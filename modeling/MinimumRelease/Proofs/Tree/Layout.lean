import Mathlib.Data.List.Pairwise
import MinimumRelease.Proofs.Tree.Walk

/-! # Where nodes stand in a text

A parser lays out the children of a node one behind the other, inside the range
of the node. So of two nodes of a tree one stands in the other, or their ranges
are apart (`Node.Within.nested_or_apart`). A node without a `yield` statement in
it is then also apart from the keyword of every `yield` statement
(`Node.Within.apart_of_yield`). -/

namespace MinimumRelease

/-! ## Nodes of a tree -/

/-- The node stands in the tree below the other one, or is that one. -/
inductive Node.Within (n : Node) : Node → Prop
  | self : Within n n
  | child {c m : Node} (mem : c ∈ m.children) (h : Within n c) : Within n m

theorem Node.Within.trans {a b c : Node} (hab : a.Within b) (hbc : b.Within c) : a.Within c := by
  induction hbc with
  | self => exact hab
  | child mem _ ih => exact .child mem ih

theorem Node.within_of_mem_children {c n : Node} (h : c ∈ n.children) : c.Within n :=
  .child h .self

namespace Site

theorem place_spec {above before cs : List Node} {s : Site} (h : s ∈ place above before cs) :
    s.node ∈ cs ∧ s.above = above := by
  induction cs generalizing before with
  | nil => cases h
  | cons c cs ih =>
    rcases List.mem_cons.1 h with rfl | h
    · exact ⟨List.mem_cons_self, rfl⟩
    · exact ⟨List.mem_cons_of_mem _ (ih h).1, (ih h).2⟩

theorem before_of_mem_place {above before cs : List Node} {s : Site}
    (h : s ∈ place above before cs) :
    ∃ front back, cs = front ++ s.node :: back ∧ s.before = front.reverse ++ before := by
  induction cs generalizing before with
  | nil => cases h
  | cons c cs ih =>
    rcases List.mem_cons.1 h with rfl | h
    · exact ⟨[], cs, rfl, rfl⟩
    · obtain ⟨front, back, rfl, hbefore⟩ := ih h
      exact ⟨c :: front, back, rfl, by simp [hbefore]⟩

theorem exists_mem_place {above before cs : List Node} {n : Node} (h : n ∈ cs) :
    ∃ s ∈ place above before cs, s.node = n := by
  induction cs generalizing before with
  | nil => cases h
  | cons c cs ih =>
    rcases List.mem_cons.1 h with rfl | h
    · exact ⟨_, List.mem_cons_self, rfl⟩
    · obtain ⟨s, hs, hn⟩ := ih h
      exact ⟨s, List.mem_cons_of_mem _ hs, hn⟩

theorem mem_below_iff {s t : Site} : t ∈ s.below ↔ t = s ∨ ∃ c ∈ s.children, t ∈ c.below := by
  rw [below_eq, List.mem_cons, List.mem_flatMap]

/-- What passes from a site to its children passes to all that is below it. -/
theorem below_induction {P : Site → Prop} (hstep : ∀ s, P s → ∀ c ∈ s.children, P c) (s : Site)
    (hs : P s) : ∀ t ∈ s.below, P t := by
  intro t ht
  rcases mem_below_iff.1 ht with rfl | ⟨c, hc, ht⟩
  · exact hs
  · have := Node.size_lt_of_mem (place_spec hc).1
    exact below_induction hstep c (hstep s hs c hc) t ht
termination_by s.node.size

theorem exists_mem_below {n : Node} {s : Site} (h : n.Within s.node) :
    ∃ t ∈ s.below, t.node = n := by
  generalize hm : s.node = m at h
  induction h generalizing s with
  | self => exact ⟨s, mem_below_iff.2 (.inl rfl), hm⟩
  | child mem _ ih =>
    subst hm
    obtain ⟨c, hc, hnode⟩ := exists_mem_place mem
    obtain ⟨t, ht, htn⟩ := ih hnode
    exact ⟨t, mem_below_iff.2 (.inr ⟨c, hc, ht⟩), htn⟩

end Site

theorem Node.exists_mem_sites {n root : Node} (h : n.Within root) :
    ∃ s ∈ root.sites, s.node = n :=
  Site.exists_mem_below (s := .ofRoot root) h

/-- Everything that a site of a tree shows stands in the tree. -/
theorem Node.within_of_mem_sites {root : Node} {s : Site} (h : s ∈ root.sites) :
    s.node.Within root ∧ ∀ a ∈ s.above, a.Within root := by
  refine Site.below_induction (P := fun s => s.node.Within root ∧ ∀ a ∈ s.above, a.Within root)
    ?_ (.ofRoot root) ⟨.self, fun a ha => by cases ha⟩ s h
  rintro s ⟨hnode, habove⟩ c hc
  obtain ⟨hmem, hab⟩ := Site.place_spec hc
  refine ⟨(Node.within_of_mem_children hmem).trans hnode, ?_⟩
  intro a ha
  rw [hab] at ha
  rcases List.mem_cons.1 ha with rfl | ha
  · exact hnode
  · exact habove a ha

/-- A site knows what stands before it in its parent. -/
theorem Node.children_of_mem_sites {root p : Node} {s : Site} (h : s ∈ root.sites)
    (hp : s.parent? = some p) : ∃ back, p.children = s.before.reverse ++ s.node :: back := by
  refine Site.below_induction (P := fun s => ∀ p, s.parent? = some p →
    ∃ back, p.children = s.before.reverse ++ s.node :: back) ?_ (.ofRoot root)
    (fun p hp => by cases hp) s h p hp
  intro s _ c hc p hp
  obtain ⟨front, back, hchildren, hbefore⟩ := Site.before_of_mem_place hc
  rw [Site.parent?, (Site.place_spec hc).2] at hp
  cases hp
  exact ⟨back, by rw [hchildren, hbefore, List.append_nil, List.reverse_reverse]⟩

/-! ## Ranges -/

/-- The keyword of a `yield` statement that begins at byte `start`. -/
def Node.isYieldToken (start : Nat) (n : Node) : Bool :=
  n.kind = "yield" && !n.named && n.fields.isEmpty && n.children.isEmpty && n.start = start &&
    n.stop = start + 5

/-- How a parser lays out a node: its children stand one behind the other in its range, and a
`yield` statement begins with its keyword. -/
structure Node.LaidOut (n : Node) : Prop where
  range : n.start ≤ n.stop
  inside : ∀ c ∈ n.children, n.start ≤ c.start ∧ c.stop ≤ n.stop
  ordered : n.children.Pairwise (·.stop ≤ ·.start)
  keyword : n.kind = "yield_statement" → n.children.head?.any (·.isYieldToken n.start) = true

instance Node.decidableLaidOut (n : Node) : Decidable n.LaidOut :=
  decidable_of_iff
    (n.start ≤ n.stop ∧ (∀ c ∈ n.children, n.start ≤ c.start ∧ c.stop ≤ n.stop) ∧
      n.children.Pairwise (·.stop ≤ ·.start) ∧
      (n.kind = "yield_statement" → n.children.head?.any (·.isYieldToken n.start) = true))
    ⟨fun ⟨hrange, hinside, hordered, hkeyword⟩ => ⟨hrange, hinside, hordered, hkeyword⟩,
     fun h => ⟨h.range, h.inside, h.ordered, h.keyword⟩⟩

namespace Node.Within

variable {root x y : Node}

theorem range (hlaid : ∀ m : Node, m.Within root → m.LaidOut) (h : x.Within root) :
    root.start ≤ x.start ∧ x.start ≤ x.stop ∧ x.stop ≤ root.stop := by
  induction h with
  | self => exact ⟨Nat.le_refl _, (hlaid _ .self).range, Nat.le_refl _⟩
  | child mem _ ih =>
    obtain ⟨hstart, hrange, hstop⟩ := ih fun m hm => hlaid m (.child mem hm)
    have hin := (hlaid _ .self).inside _ mem
    omega

theorem apart_of_ordered {ns : List Node} {c d : Node} (h : ns.Pairwise (·.stop ≤ ·.start))
    (hc : c ∈ ns) (hd : d ∈ ns) (hcd : c ≠ d) : c.stop ≤ d.start ∨ d.stop ≤ c.start := by
  let Apart (a b : Node) : Prop := a.stop ≤ b.start ∨ b.stop ≤ a.start
  have : Std.Symm Apart := ⟨fun _ _ => Or.symm⟩
  have happart : ns.Pairwise Apart := h.imp Or.inl
  exact happart.forall hc hd hcd

/-- **Of two nodes of a tree one stands in the other, or their ranges are apart.** -/
theorem nested_or_apart (hlaid : ∀ m : Node, m.Within root → m.LaidOut) (hx : x.Within root)
    (hy : y.Within root) :
    x.Within y ∨ y.Within x ∨ x.stop ≤ y.start ∨ y.stop ≤ x.start := by
  induction hx with
  | self => exact .inr (.inl hy)
  | @child c m hc hx ih =>
    cases hy with
    | self => exact .inl (.child hc hx)
    | @child d _ hd hy =>
      by_cases hcd : c = d
      · subst hcd
        exact ih (fun m hm => hlaid m (.child hc hm)) hy
      · have hxc := range (fun m hm => hlaid m (.child hc hm)) hx
        have hyd := range (fun m hm => hlaid m (.child hd hm)) hy
        rcases apart_of_ordered (hlaid m .self).ordered hc hd hcd with hlt | hlt
        · exact .inr (.inr (.inl (by omega)))
        · exact .inr (.inr (.inr (by omega)))

/-- A node is apart from the keyword of a `yield` statement that does not stand in it. -/
theorem apart_of_yield (hlaid : ∀ m : Node, m.Within root → m.LaidOut) (hx : x.Within root)
    (hy : y.Within root) (hkind : y.kind = "yield_statement") (hyx : ¬ y.Within x)
    (htoken : x.isYieldToken y.start = false) : x.stop ≤ y.start ∨ y.start + 5 ≤ x.start := by
  obtain ⟨k, hk, hyield⟩ := (Option.any_eq_true _ _).1 ((hlaid y hy).keyword hkind)
  obtain ⟨rest, hchildren⟩ := List.head?_eq_some_iff.1 hk
  have hk' := hyield
  simp only [isYieldToken, Bool.and_eq_true, decide_eq_true_eq, List.isEmpty_iff] at hk'
  obtain ⟨⟨⟨-, hleaf⟩, -⟩, hstop⟩ := hk'
  rcases nested_or_apart hlaid hx hy with hxy | hxy | happart
  · cases hxy with
    | self => exact absurd .self hyx
    | @child c _ hc hxc =>
      -- in the statement, behind its keyword
      have hrange := range (fun m hm => hlaid m ((hm.trans (.child hc .self)).trans hy)) hxc
      rw [hchildren] at hc
      rcases List.mem_cons.1 hc with rfl | hc
      · cases hxc with
        | self =>
          rw [hyield] at htoken
          cases htoken
        | child hd _ =>
          rw [hleaf] at hd
          cases hd
      · have hordered := (hlaid y hy).ordered
        rw [hchildren] at hordered
        have := (List.pairwise_cons.1 hordered).1 c hc
        omega
  · exact absurd hxy hyx
  · have hin := (hlaid y hy).inside k (by rw [hchildren]; exact List.mem_cons_self)
    omega

end Node.Within

end MinimumRelease
