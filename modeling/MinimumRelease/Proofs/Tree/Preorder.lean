import MinimumRelease.Proofs.Tree.Walk

/-! # The calls of a walk

A walk calls its visitor on the sites of a tree in document order, on each once,
and stops at the first that is too deep or that the visitor ends at. What was
called is seen through a visitor that keeps a record of its calls (`recording`).
The counter of a walk is the depth of the node at its cursor in every stage that
the walk passes through, so it is positive whenever the cursor moves up. -/

namespace MinimumRelease

namespace Walk

variable {σ : Type}

/-! ## How a pass over a list of sites ends -/

/-- The visitor wants to go on after each of the sites, and makes one state of the other. -/
inductive GoesOn (visit : σ → Site → ForInStep σ) : σ → List Site → σ → Prop
  | nil (state : σ) : GoesOn visit state [] state
  | cons {state mid last : σ} {s : Site} {ss : List Site} (goes : visit state s = .yield mid)
      (rest : GoesOn visit mid ss last) : GoesOn visit state (s :: ss) last

/-- The ways in which a pass over `sites` can end: the sites that the visitor was called on, the
last state and the outcome. -/
inductive Ends (limit : Option Nat) (visit : σ → Site → ForInStep σ) (state : σ)
    (sites : List Site) : List Site → σ → Outcome → Prop
  | finished {last : σ} (within : ∀ s ∈ sites, ∀ n ∈ limit, s.depth ≤ n)
      (goes : GoesOn visit state sites last) : Ends limit visit state sites sites last .finished
  | stopped {front back : List Site} {s : Site} {mid last : σ}
      (split : sites = front ++ s :: back)
      (within : ∀ t ∈ front ++ [s], ∀ n ∈ limit, t.depth ≤ n)
      (goes : GoesOn visit state front mid) (stops : visit mid s = .done last) :
      Ends limit visit state sites (front ++ [s]) last .stopped
  | tooDeep {front back : List Site} {s : Site} {last : σ} {n : Nat}
      (split : sites = front ++ s :: back)
      (within : ∀ t ∈ front, ∀ n ∈ limit, t.depth ≤ n)
      (goes : GoesOn visit state front last) (exceeds : n ∈ limit ∧ n < s.depth) :
      Ends limit visit state sites front last (.tooDeep n)

/-- The visitor that keeps a record of the sites it was called on. -/
def recording (visit : σ → Site → ForInStep σ) (state : σ × List Site) (s : Site) :
    ForInStep (σ × List Site) :=
  match visit state.1 s with
  | .done last => .done (last, state.2 ++ [s])
  | .yield last => .yield (last, state.2 ++ [s])

variable {limit : Option Nat} {visit : σ → Site → ForInStep σ}

theorem exceeded?_eq_none_iff {depth : Nat} :
    exceeded? limit depth = none ↔ ∀ n ∈ limit, depth ≤ n := by
  cases limit <;> simp [exceeded?]

theorem exceeded?_eq_some_iff {depth n : Nat} :
    exceeded? limit depth = some n ↔ n ∈ limit ∧ n < depth := by
  simp [exceeded?, Option.mem_def]

theorem Ends.cons {state mid last : σ} {s : Site} {ss calls : List Site} {outcome : Outcome}
    (hwithin : ∀ n ∈ limit, s.depth ≤ n) (hgoes : visit state s = .yield mid)
    (h : Ends limit visit mid ss calls last outcome) :
    Ends limit visit state (s :: ss) (s :: calls) last outcome := by
  cases h with
  | finished hall hrest =>
    exact .finished (List.forall_mem_cons.2 ⟨hwithin, hall⟩) (.cons hgoes hrest)
  | @stopped front _ t _ _ hsplit hall hrest hstops =>
    show Ends limit visit state (s :: ss) ((s :: front) ++ [t]) last .stopped
    exact .stopped (congrArg (s :: ·) hsplit) (List.forall_mem_cons.2 ⟨hwithin, hall⟩)
      (.cons hgoes hrest) hstops
  | tooDeep hsplit hall hrest hexceeds =>
    exact .tooDeep (congrArg (s :: ·) hsplit) (List.forall_mem_cons.2 ⟨hwithin, hall⟩)
      (.cons hgoes hrest) hexceeds

theorem exists_ends (limit : Option Nat) (visit : σ → Site → ForInStep σ) (state : σ)
    (sites : List Site) : ∃ calls last outcome, Ends limit visit state sites calls last outcome := by
  induction sites generalizing state with
  | nil => exact ⟨[], state, .finished, .finished nofun (.nil state)⟩
  | cons s ss ih =>
    cases hlimit : exceeded? limit s.depth with
    | some n =>
      exact ⟨[], state, .tooDeep n, .tooDeep rfl nofun (.nil state)
        (exceeded?_eq_some_iff.1 hlimit)⟩
    | none =>
      have hwithin := exceeded?_eq_none_iff.1 hlimit
      cases hvisit : visit state s with
      | done last =>
        refine ⟨[] ++ [s], last, .stopped, .stopped rfl ?_ (.nil state) hvisit⟩
        intro t ht
        rw [List.mem_singleton.1 ht]
        exact hwithin
      | yield mid =>
        obtain ⟨calls, last, outcome, hends⟩ := ih mid
        exact ⟨s :: calls, last, outcome, hends.cons hwithin hvisit⟩

/-! ## What is recorded -/

theorem recording_yield {state mid : σ} {s : Site} (h : visit state s = .yield mid)
    (log : List Site) : recording visit (state, log) s = .yield (mid, log ++ [s]) := by
  rw [recording, h]

theorem recording_done {state last : σ} {s : Site} (h : visit state s = .done last)
    (log : List Site) : recording visit (state, log) s = .done (last, log ++ [s]) := by
  rw [recording, h]

/-- The record does not change what the visitor makes and how the pass ends. -/
theorem visitAll_recording (state : σ) (log sites : List Site) :
    Prod.map Prod.fst id (visitAll limit (recording visit) (state, log) sites) =
      visitAll limit visit state sites := by
  induction sites generalizing state log with
  | nil => rfl
  | cons s ss ih =>
    rw [visitAll, visitAll]
    cases exceeded? limit s.depth with
    | some n => rfl
    | none =>
      cases hvisit : visit state s with
      | done last => rw [recording_done hvisit]; rfl
      | yield mid => rw [recording_yield hvisit]; exact ih mid (log ++ [s])

theorem GoesOn.visitAll_append {state mid : σ} {front : List Site}
    (h : GoesOn visit state front mid) (hwithin : ∀ t ∈ front, ∀ n ∈ limit, t.depth ≤ n)
    (log rest : List Site) :
    visitAll limit (recording visit) (state, log) (front ++ rest) =
      visitAll limit (recording visit) (mid, log ++ front) rest := by
  induction h generalizing log with
  | nil state => rw [List.nil_append, List.append_nil]
  | @cons state mid last s ss hgoes _ ih =>
    obtain ⟨hs, hss⟩ := List.forall_mem_cons.1 hwithin
    rw [List.cons_append, visitAll, exceeded?_eq_none_iff.2 hs, recording_yield hgoes]
    show visitAll limit (recording visit) (mid, log ++ [s]) (ss ++ rest) = _
    rw [ih hss, List.append_assoc, List.singleton_append]

theorem Ends.visitAll_eq {state last : σ} {sites calls : List Site} {outcome : Outcome}
    (h : Ends limit visit state sites calls last outcome) (log : List Site) :
    visitAll limit (recording visit) (state, log) sites = ((last, log ++ calls), outcome) := by
  cases h with
  | finished hwithin hgoes =>
    have happend := hgoes.visitAll_append hwithin log []
    rwa [List.append_nil] at happend
  | @stopped front back s mid _ hsplit hwithin hgoes hstops =>
    obtain ⟨hfront, hs⟩ := List.forall_mem_append.1 hwithin
    rw [hsplit, hgoes.visitAll_append hfront, visitAll,
      exceeded?_eq_none_iff.2 (hs s List.mem_cons_self), recording_done hstops,
      List.append_assoc]
  | tooDeep hsplit hwithin hgoes hexceeds =>
    rw [hsplit, hgoes.visitAll_append hwithin, visitAll, exceeded?_eq_some_iff.2 hexceeds]

theorem visitAll_recording_iff {state last : σ} {sites calls : List Site} {outcome : Outcome} :
    visitAll limit (recording visit) (state, []) sites = ((last, calls), outcome) ↔
      Ends limit visit state sites calls last outcome := by
  constructor
  · intro h
    obtain ⟨calls', last', outcome', hends⟩ := exists_ends limit visit state sites
    rw [hends.visitAll_eq []] at h
    cases h
    exact hends
  · intro h
    exact h.visitAll_eq []

end Walk

/-! ## The stages of a walk -/

namespace Cursor

/-- The sites of the ancestors, given with their siblings. -/
def sitesAbove : List Node → List (List Node × List Node) → List Site
  | p :: above, (before, _) :: around => ⟨p, before, above⟩ :: sitesAbove above around
  | _, _ => []

/-- The site of the node and those of its ancestors. -/
def path (c : Cursor) : List Site := c.site :: sitesAbove c.site.above c.around

variable {c d : Cursor}

theorem path_firstChild (h : c.firstChild? = some d) : d.path = d.site :: c.path := by
  unfold firstChild? at h
  split at h
  · cases h
  · cases h; rfl

theorem path_nextSibling (h : c.nextSibling? = some d) : d.path = d.site :: c.path.tail := by
  unfold nextSibling? at h
  split at h
  · cases h
  · cases h; rfl

theorem path_parent (h : c.parent? = some d) : c.path = c.site :: d.path := by
  unfold parent? at h
  split at h
  · cases h; rfl
  · cases h

end Cursor

namespace Walk

variable {σ : Type} {limit : Option Nat} {visit : σ → Site → ForInStep σ} {stage stage' : Stage σ}

/-- The stages that a walk passes through, from the first one on. -/
inductive Reaches (limit : Option Nat) (visit : σ → Site → ForInStep σ) (first : Stage σ) :
    Stage σ → Prop
  | first : Reaches limit visit first first
  | move {stage stage' : Stage σ} (before : Reaches limit visit first stage)
      (moves : next limit visit stage = .move stage') : Reaches limit visit first stage'

/-- A walk comes to a stage in which it ends, and its result is the one of that stage. -/
theorem Reaches.exists_ends {first : Stage σ} (h : Reaches limit visit first stage) :
    ∃ final, Reaches limit visit first final ∧
      next limit visit final = .ends (run limit visit stage).1 (run limit visit stage).2 := by
  fun_induction run limit visit stage with
  | case1 stage state outcome hends => exact ⟨stage, h, hends⟩
  | case2 stage stage' hmove ih => exact ih (h.move hmove)

/-- What holds in every stage of a walk through a tree: the count, and that the cursor has only
nodes of the tree around it and before it. -/
structure Stage.OnTrack (root : Node) (stage : Stage σ) : Prop where
  counts : stage.Counts
  pending : stage.pending <:+ root.sites
  path : ∀ s ∈ stage.cursor.path, s ∈ root.sites

theorem onTrack_start (root : Node) (state : σ) : (start root state).OnTrack root where
  counts := rfl
  pending := by
    have hall : (start root state).pending = root.sites := List.append_nil _
    exact ⟨[], hall⟩
  path := by
    intro s hs
    have hroot : Site.ofRoot root ∈ (Site.ofRoot root).below := by
      rw [Site.below_eq]
      exact List.mem_cons_self
    rw [List.mem_singleton.1 hs]
    exact hroot

/-- Where the next node to be visited is at the cursor, it is one of the tree. -/
theorem Stage.site_mem_of_pending {root : Node} (h : stage.pending <:+ root.sites)
    (harriving : stage.climbing = false) : stage.cursor.site ∈ root.sites := by
  refine h.subset ?_
  rw [pending, harriving, if_neg Bool.false_ne_true, Site.below_eq]
  exact List.mem_cons_self

theorem Stage.OnTrack.move {root : Node} (h : stage.OnTrack root)
    (hmove : Move limit visit stage stage') : stage'.OnTrack root := by
  have hpending : stage'.pending <:+ root.sites := by
    rcases hmove.pending with ⟨-, -, hcons⟩ | ⟨-, hsame⟩
    · exact (hcons ▸ List.suffix_cons _ _).trans h.pending
    · exact hsame ▸ h.pending
  refine ⟨hmove.counts h.counts, hpending, ?_⟩
  cases hmove with
  | child harriving _ _ hc =>
    rw [Cursor.path_firstChild hc]
    exact List.forall_mem_cons.2 ⟨Stage.site_mem_of_pending hpending harriving, h.path⟩
  | leaf => exact h.path
  | sibling _ hc =>
    rw [Cursor.path_nextSibling hc]
    exact List.forall_mem_cons.2 ⟨Stage.site_mem_of_pending hpending rfl,
      fun s hs => h.path s (List.mem_of_mem_tail hs)⟩
  | parent _ _ hc =>
    intro s hs
    exact h.path s (Cursor.path_parent hc ▸ List.mem_cons_of_mem _ hs)

theorem Reaches.onTrack {root : Node} {state : σ}
    (h : Reaches limit visit (start root state) stage) : stage.OnTrack root := by
  induction h with
  | first => exact onTrack_start root state
  | move _ hnext ih => exact ih.move (move_of_next hnext)

end Walk

/-- **A walk is the traversal of the tree in document order.** The walk comes to an end. Its visitor
is called on the sites from the first one on, on each once, up to the first that lies deeper than
the limit, or up to and with the first that the visitor ends at, or on all of them; the outcome tells
which. In every stage the counter is the depth of the node at the cursor, and it is positive when the
cursor can move up. -/
theorem Node.walk_preorder {σ : Type} (root : Node) (limit : Option Nat)
    (visit : σ → Site → ForInStep σ) (state : σ) :
    (∃ final, Walk.Reaches limit visit (Walk.start root state) final ∧
      Walk.next limit visit final =
        .ends (root.walk limit visit state).1 (root.walk limit visit state).2) ∧
    (∃ calls, root.walk limit (Walk.recording visit) (state, []) =
      (((root.walk limit visit state).1, calls), (root.walk limit visit state).2)) ∧
    (∀ calls last outcome,
      root.walk limit (Walk.recording visit) (state, []) = ((last, calls), outcome) ↔
        Walk.Ends limit visit state root.sites calls last outcome) ∧
    ∀ stage, Walk.Reaches limit visit (Walk.start root state) stage →
      stage.cursor.site ∈ root.sites ∧ stage.depth = stage.cursor.site.depth ∧
        ∀ c, stage.cursor.parent? = some c → 0 < stage.depth := by
  refine ⟨Walk.Reaches.exists_ends .first, ?_, ?_, ?_⟩
  · rw [walk_eq, walk_eq, ← Walk.visitAll_recording state []]
    exact ⟨_, rfl⟩
  · intro calls last outcome
    rw [walk_eq]
    exact Walk.visitAll_recording_iff
  · intro stage hreaches
    have htrack := hreaches.onTrack
    refine ⟨htrack.path _ List.mem_cons_self, htrack.counts, ?_⟩
    intro c hc
    rw [show stage.depth = _ from htrack.counts, Cursor.depth_parent hc]
    exact Nat.succ_pos _

/-! ## A class with an empty body

The body lies two levels below the root. -/

namespace EmptyClass

def root : Node :=
  ⟨"program", true, false, 0, 9, [],
    [⟨"class_declaration", true, false, 0, 9, [], [⟨"class_body", true, false, 7, 9, [], []⟩]⟩]⟩

def count (n : Nat) (_ : Site) : ForInStep Nat := .yield (n + 1)

theorem walk_leaves_body :
    Walk.Ends (some 1) count 0 root.sites (root.sites.take 2) 2 (.tooDeep 1) ∧
    ∃ stage, Walk.Reaches none count (Walk.start root 0) stage ∧ stage.state = 3 ∧
      stage.depth = stage.cursor.site.depth ∧ 0 < stage.depth := by
  obtain ⟨-, -, hends, -⟩ := root.walk_preorder (some 1) count 0
  obtain ⟨-, -, -, hstages⟩ := root.walk_preorder none count 0
  have hbody : Walk.Reaches none count (Walk.start root 0) _ :=
    ((Walk.Reaches.first.move rfl).move rfl).move rfl
  obtain ⟨-, hdepth, hpositive⟩ := hstages _ hbody
  refine ⟨(hends _ _ _).1 ?_, _, hbody, rfl, hdepth, hpositive _ rfl⟩
  rw [Node.walk_eq]
  rfl

end EmptyClass

end MinimumRelease
