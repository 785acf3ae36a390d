import MinimumRelease.Tree.Cursor

/-!
# Walking a tree

A walk visits the nodes of a tree in document order. It moves a cursor through the tree, so that the
depth of a tree costs no stack, and counts how deep the cursor stands. It may carry a limit on the
depth, and the visitor may end it early.
-/

namespace MinimumRelease

/-- How a walk ended. -/
inductive Walk.Outcome where
  /-- Every site was visited. -/
  | finished
  /-- The visitor ended the walk. -/
  | stopped
  /-- A site lies deeper than the limit. It was not visited. -/
  | tooDeep (limit : Nat)
deriving DecidableEq

namespace Walk

/-- The limit, if `depth` exceeds it. -/
def exceeded? (limit : Option Nat) (depth : Nat) : Option Nat := limit.filter (· < depth)

/-- Where a walk stands between two moves. -/
structure Stage (σ : Type) where
  cursor : Cursor
  /-- Moves down less moves up. -/
  depth : Nat
  /-- The node has been visited and has nothing below it that has not. -/
  climbing : Bool
  /-- What the visitor has made so far. -/
  state : σ

/-- What follows a stage of a walk. -/
inductive Next (σ : Type) where
  | move (stage : Stage σ)
  | ends (state : σ) (outcome : Outcome)

variable {σ : Type}

/-- Before the first visit: at the root, which has depth zero. -/
def start (root : Node) (state : σ) : Stage σ := ⟨.ofRoot root, 0, false, state⟩

/-- One move of a walk. It visits the node and goes down; where there is nothing below, it goes on
to the next sibling of the node or of the nearest ancestor that has one. -/
def next (limit : Option Nat) (visit : σ → Site → ForInStep σ) (stage : Stage σ) : Next σ :=
  if stage.climbing then
    match stage.cursor.nextSibling? with
    | some c => .move { stage with cursor := c, climbing := false }
    | none =>
      match stage.cursor.parent? with
      | some c => .move { stage with cursor := c, depth := stage.depth - 1 }
      | none => .ends stage.state .finished
  else
    match exceeded? limit stage.depth with
    | some limit => .ends stage.state (.tooDeep limit)
    | none =>
      match visit stage.state stage.cursor.site with
      | .done state => .ends state .stopped
      | .yield state =>
        match stage.cursor.firstChild? with
        | some c => .move { stage with cursor := c, depth := stage.depth + 1, state }
        | none => .move { stage with climbing := true, state }

/-- The four moves of a walk. -/
inductive Move (limit : Option Nat) (visit : σ → Site → ForInStep σ) (stage : Stage σ) :
    Stage σ → Prop
  | child {state : σ} {c : Cursor} (arriving : stage.climbing = false)
      (within : exceeded? limit stage.depth = none)
      (visits : visit stage.state stage.cursor.site = .yield state)
      (moves : stage.cursor.firstChild? = some c) :
      Move limit visit stage { stage with cursor := c, depth := stage.depth + 1, state }
  | leaf {state : σ} (arriving : stage.climbing = false)
      (within : exceeded? limit stage.depth = none)
      (visits : visit stage.state stage.cursor.site = .yield state)
      (stays : stage.cursor.firstChild? = none) :
      Move limit visit stage { stage with climbing := true, state }
  | sibling {c : Cursor} (climbing : stage.climbing = true)
      (moves : stage.cursor.nextSibling? = some c) :
      Move limit visit stage { stage with cursor := c, climbing := false }
  | parent {c : Cursor} (climbing : stage.climbing = true)
      (last : stage.cursor.nextSibling? = none) (moves : stage.cursor.parent? = some c) :
      Move limit visit stage { stage with cursor := c, depth := stage.depth - 1 }

variable {limit : Option Nat} {visit : σ → Site → ForInStep σ} {stage stage' : Stage σ}

theorem move_of_next (h : next limit visit stage = .move stage') :
    Move limit visit stage stage' := by
  unfold next at h
  split at h
  · next hclimbing =>
    split at h
    · next c hc => cases h; exact .sibling hclimbing hc
    · next hlast =>
      split at h
      · next c hc => cases h; exact .parent hclimbing hlast hc
      · cases h
  · next hclimbing =>
    rw [Bool.not_eq_true] at hclimbing
    split at h
    · cases h
    · next hwithin =>
      split at h
      · cases h
      · next state hvisit =>
        split at h
        · next c hc => cases h; exact .child hclimbing hwithin hvisit hc
        · next hleaf => cases h; exact .leaf hclimbing hwithin hvisit hleaf

/-- The most moves that a walk can still make. -/
def Stage.movesLeft (stage : Stage σ) : Nat :=
  if stage.climbing then stage.cursor.movesLeft + 1
  else 2 * stage.cursor.site.node.size + stage.cursor.movesLeft

theorem Move.movesLeft (h : Move limit visit stage stage') :
    stage'.movesLeft < stage.movesLeft := by
  cases h with
  | child harriving _ _ hc =>
    have := Cursor.movesLeft_firstChild hc
    simp only [Stage.movesLeft, harriving, Bool.false_eq_true, if_false]
    omega
  | leaf harriving =>
    have := Node.size_eq stage.cursor.site.node
    simp only [Stage.movesLeft, harriving, Bool.false_eq_true, if_false, if_true]
    omega
  | sibling hclimbing hc =>
    have := Cursor.movesLeft_nextSibling hc
    simp only [Stage.movesLeft, hclimbing, Bool.false_eq_true, if_false, if_true]
    omega
  | parent hclimbing _ hc =>
    have := Cursor.movesLeft_parent hc
    simp only [Stage.movesLeft, hclimbing, if_true]
    omega

/-- Moves until the walk ends. The visitor turns one state into the next, and ends the walk by
`done`. -/
def run (limit : Option Nat) (visit : σ → Site → ForInStep σ) (stage : Stage σ) : σ × Outcome :=
  match _ : next limit visit stage with
  | .ends state outcome => (state, outcome)
  | .move stage' => run limit visit stage'
termination_by stage.movesLeft
decreasing_by exact (move_of_next ‹_›).movesLeft

end Walk

/-- Walks the tree from its root. -/
def Node.walk {σ : Type} (root : Node) (limit : Option Nat) (visit : σ → Site → ForInStep σ)
    (state : σ) : σ × Walk.Outcome :=
  Walk.run limit visit (Walk.start root state)

/-- Walks the whole tree and folds over its sites. -/
def Node.foldSites {σ : Type} (root : Node) (step : σ → Site → σ) (state : σ) : σ :=
  (root.walk none (fun s site => .yield (step s site)) state).1

end MinimumRelease
