import MinimumRelease.Tree.Walk

/-! # What a walk visits

A walk moves a cursor and counts its depth. The sites of a tree are defined by
recursion over the tree. At every stage of a walk the sites that are still to be
visited are those that the cursor has before it (`Walk.Stage.pending`), and each
move takes off what it visits. So a walk is a pass over the list of sites
(`Node.walk_eq`), with a limit or without one. -/

namespace MinimumRelease

/-- Number of ancestors. -/
def Site.depth (s : Site) : Nat := s.above.length

/-- The site and everything below it, in document order. -/
def Site.below (s : Site) : List Site := s.node.sitesFrom s.above s.before

theorem Node.sitesOfChildren_eq (above before cs : List Node) :
    Node.sitesOfChildren above before cs = (Site.place above before cs).flatMap Site.below := by
  induction cs generalizing before with
  | nil => rfl
  | cons c cs ih =>
    rw [Node.sitesOfChildren, Site.place, List.flatMap_cons, ih]
    rfl

theorem Site.below_eq (s : Site) : s.below = s :: s.children.flatMap Site.below := by
  obtain ⟨⟨kind, named, missing, start, stop, fields, children⟩, before, above⟩ := s
  rw [Site.below, Node.sitesFrom, Node.sitesOfChildren_eq]
  rfl

/-! ## What the cursor has before it -/

namespace Cursor

/-- What stands behind the ancestors, given with their siblings. -/
def outside : List Node → List (List Node × List Node) → List Site
  | p :: above, (before, behind) :: around =>
    (Site.place above (p :: before) behind).flatMap Site.below ++ outside above around
  | _, _ => []

/-- All that stands behind the node and what is below it, in document order. -/
def later (c : Cursor) : List Site :=
  (Site.place c.site.above (c.site.node :: c.site.before) c.behind).flatMap Site.below ++
    outside c.site.above c.around

variable {c d : Cursor}

theorem ahead_firstChild (h : c.firstChild? = some d) :
    c.site.below ++ c.later = c.site :: (d.site.below ++ d.later) := by
  unfold firstChild? at h
  split at h
  · cases h
  · next n ns hchildren =>
    cases h
    rw [Site.below_eq c.site, Site.children, hchildren, Site.place, List.flatMap_cons,
      List.cons_append, List.append_assoc]
    rfl

theorem below_of_leaf (h : c.firstChild? = none) : c.site.below = [c.site] := by
  unfold firstChild? at h
  split at h
  · next hchildren => rw [Site.below_eq, Site.children, hchildren]; rfl
  · cases h

theorem later_nextSibling (h : c.nextSibling? = some d) : c.later = d.site.below ++ d.later := by
  unfold nextSibling? at h
  split at h
  · cases h
  · next n ns hbehind =>
    cases h
    rw [later, hbehind, Site.place, List.flatMap_cons, List.append_assoc]
    rfl

theorem later_of_last (h : c.nextSibling? = none) : c.later = outside c.site.above c.around := by
  unfold nextSibling? at h
  split at h
  · next hbehind => rw [later, hbehind]; rfl
  · cases h

theorem outside_parent (h : c.parent? = some d) : outside c.site.above c.around = d.later := by
  unfold parent? at h
  split at h
  · cases h; rfl
  · cases h

theorem outside_of_root (h : c.parent? = none) : outside c.site.above c.around = [] := by
  unfold parent? at h
  split at h
  · cases h
  · next hnone =>
    unfold outside
    split
    · next p above before behind around habove haround =>
      obtain ⟨⟨n, earlier, above'⟩, behind', around', hlength⟩ := c
      cases habove
      cases haround
      exact (hnone _ _ _ _ _ _ _ _ hlength rfl).elim
    · rfl

theorem depth_firstChild (h : c.firstChild? = some d) : d.site.depth = c.site.depth + 1 := by
  unfold firstChild? at h
  split at h
  · cases h
  · cases h; rfl

theorem depth_nextSibling (h : c.nextSibling? = some d) : d.site.depth = c.site.depth := by
  unfold nextSibling? at h
  split at h
  · cases h
  · cases h; rfl

theorem depth_parent (h : c.parent? = some d) : c.site.depth = d.site.depth + 1 := by
  unfold parent? at h
  split at h
  · cases h; rfl
  · cases h

end Cursor

/-! ## A walk is a pass over the sites -/

namespace Walk

variable {σ : Type}

/-- What is visited of a list of sites: all of them in order, or as many as the limit allows and the
visitor wants. -/
def visitAll (limit : Option Nat) (visit : σ → Site → ForInStep σ) (state : σ) :
    List Site → σ × Outcome
  | [] => (state, .finished)
  | s :: ss =>
    match exceeded? limit s.depth with
    | some limit => (state, .tooDeep limit)
    | none =>
      match visit state s with
      | .done state => (state, .stopped)
      | .yield state => visitAll limit visit state ss

/-- The sites that a walk has still to visit. -/
def Stage.pending (stage : Stage σ) : List Site :=
  if stage.climbing then stage.cursor.later else stage.cursor.site.below ++ stage.cursor.later

/-- The counter tells how deep the cursor stands. -/
def Stage.Counts (stage : Stage σ) : Prop := stage.depth = stage.cursor.site.depth

variable {limit : Option Nat} {visit : σ → Site → ForInStep σ} {stage stage' : Stage σ}

/-- Every move keeps the count. -/
theorem Move.counts (h : Move limit visit stage stage') (hcounts : stage.Counts) :
    stage'.Counts := by
  cases h with
  | child _ _ _ hc =>
    show stage.depth + 1 = _
    rw [Cursor.depth_firstChild hc, hcounts]
  | leaf => exact hcounts
  | sibling _ hc => exact hcounts.trans (Cursor.depth_nextSibling hc).symm
  | parent _ _ hc =>
    show stage.depth - 1 = _
    rw [hcounts, Cursor.depth_parent hc, Nat.add_sub_cancel]

/-- A move visits the first of the pending sites, or goes where they are the same. -/
theorem Move.pending (h : Move limit visit stage stage') :
    (exceeded? limit stage.depth = none ∧
      visit stage.state stage.cursor.site = .yield stage'.state ∧
      stage.pending = stage.cursor.site :: stage'.pending) ∨
    (stage'.state = stage.state ∧ stage.pending = stage'.pending) := by
  cases h with
  | child harriving hwithin hvisits hc =>
    refine .inl ⟨hwithin, hvisits, ?_⟩
    simp only [Stage.pending, harriving, Bool.false_eq_true, if_false]
    exact Cursor.ahead_firstChild hc
  | leaf harriving hwithin hvisits hleaf =>
    refine .inl ⟨hwithin, hvisits, ?_⟩
    simp only [Stage.pending, harriving, Bool.false_eq_true, if_false, if_true]
    rw [Cursor.below_of_leaf hleaf, List.singleton_append]
  | sibling hclimbing hc =>
    refine .inr ⟨rfl, ?_⟩
    simp only [Stage.pending, hclimbing, Bool.false_eq_true, if_false, if_true]
    exact Cursor.later_nextSibling hc
  | parent hclimbing hlast hc =>
    refine .inr ⟨rfl, ?_⟩
    simp only [Stage.pending, hclimbing, if_true]
    rw [Cursor.later_of_last hlast, Cursor.outside_parent hc]

/-- The end of a walk is that of a pass over the pending sites. -/
theorem visitAll_of_ends {state : σ} {outcome : Outcome} (hcounts : stage.Counts)
    (h : next limit visit stage = .ends state outcome) :
    visitAll limit visit stage.state stage.pending = (state, outcome) := by
  unfold Stage.Counts at hcounts
  unfold next at h
  split at h
  · next hclimbing =>
    split at h
    · cases h
    · next hlast =>
      split at h
      · cases h
      · next hroot =>
        cases h
        rw [Stage.pending, if_pos hclimbing, Cursor.later_of_last hlast,
          Cursor.outside_of_root hroot, visitAll]
  · next hclimbing =>
    rw [Stage.pending, if_neg hclimbing, Site.below_eq, List.cons_append, visitAll, ← hcounts]
    cases hlimit : exceeded? limit stage.depth with
    | some n =>
      rw [hlimit] at h
      cases h
      rfl
    | none =>
      rw [hlimit] at h
      dsimp only at h ⊢
      cases hvisit : visit stage.state stage.cursor.site with
      | done last =>
        rw [hvisit] at h
        cases h
        rfl
      | yield last =>
        rw [hvisit] at h
        dsimp only at h
        split at h <;> cases h

/-- **A walk is a pass over the sites that its cursor has before it.** -/
theorem run_eq_visitAll (stage : Stage σ) (hcounts : stage.Counts) :
    run limit visit stage = visitAll limit visit stage.state stage.pending := by
  fun_induction run limit visit stage with
  | case1 stage state outcome hends => exact (visitAll_of_ends hcounts hends).symm
  | case2 stage stage' hnext ih =>
    have hmove := move_of_next hnext
    rw [ih (hmove.counts hcounts)]
    rcases hmove.pending with ⟨hwithin, hvisits, hpending⟩ | ⟨hstate, hpending⟩
    · rw [hpending, visitAll, ← show stage.depth = _ from hcounts, hwithin, hvisits]
    · rw [hstate, hpending]

theorem visitAll_yield (step : σ → Site → σ) (state : σ) (ss : List Site) :
    (visitAll none (fun s site => .yield (step s site)) state ss).1 = ss.foldl step state := by
  induction ss generalizing state with
  | nil => rfl
  | cons s ss ih => exact ih (step state s)

/-- A visitor that ends the walk at the first site where there is something to be found. -/
theorem visitAll_find {α : Type} {visit : Option α → Site → ForInStep (Option α)}
    {find? : Site → Option α} (hnone : ∀ s, find? s = none → visit none s = .yield none)
    (hsome : ∀ s a, find? s = some a → visit none s = .done (some a)) (ss : List Site) :
    (visitAll none visit none ss).1 = ss.findSome? find? := by
  induction ss with
  | nil => rfl
  | cons s ss ih =>
    rw [visitAll, List.findSome?_cons]
    cases h : find? s with
    | none =>
      rw [hnone s h]
      exact ih
    | some a =>
      rw [hsome s a h]
      rfl

end Walk

theorem Node.walk_eq {σ : Type} (root : Node) (limit : Option Nat)
    (visit : σ → Site → ForInStep σ) (state : σ) :
    root.walk limit visit state = Walk.visitAll limit visit state root.sites := by
  rw [Node.walk, Walk.run_eq_visitAll (Walk.start root state) rfl]
  exact congrArg (Walk.visitAll limit visit state) (List.append_nil _)

theorem Node.foldSites_eq {σ : Type} (root : Node) (step : σ → Site → σ) (state : σ) :
    root.foldSites step state = root.sites.foldl step state := by
  rw [Node.foldSites, Node.walk_eq, Walk.visitAll_yield]

end MinimumRelease
