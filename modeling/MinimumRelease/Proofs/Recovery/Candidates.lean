import MinimumRelease.Proofs.Recovery.KeywordSearch

/-! # Which keywords are candidates

A candidate should be a `yield` in code at the start of a statement, with blanks
and an operand behind it that is neither a member access nor an assignment
(`ReadsAsStatement`). The candidates come close to this rule, and miss it in two
ways. No notice is taken of the assignments that shift. And of places that abut,
in comments too, every second one is passed over. Up to these two the rule is
exact (`yieldCandidates_exact`). -/

namespace MinimumRelease.Recovery

/-! ## The rule for candidates -/

/-- Assignments that also compute, with one character for the operation. -/
def compoundAssignments : List String := ["+=", "-=", "*=", "/=", "%=", "&=", "|=", "^="]

/-- Assignments that also shift. -/
def shiftAssignments : List String := ["<<=", ">>=", ">>>="]

/-- All operators that assign. -/
def assignments : List String := "=" :: (compoundAssignments ++ shiftAssignments)

/-- A text begins with one of `operators`. -/
def BeginsWith (operators : List String) (cs : List Char) : Prop :=
  ∃ op ∈ operators, op.toList <+: cs

instance (operators : List String) (cs : List Char) : Decidable (BeginsWith operators cs) :=
  inferInstanceAs (Decidable (∃ op ∈ operators, op.toList <+: cs))

/-- What a candidate should be. In code, at the start of a statement, stands the keyword, then at
least one blank, and then something that is neither a dot nor an assignment. -/
structure Place.ReadsAsStatement (cs : List Char) (p : Place) : Prop where
  text : p.text = cs
  begins : BeginsStatement p.before
  blanks : p.gap ≠ []
  operand : ∃ c rest, p.operand = c :: rest ∧ c ≠ '.'
  noAssignment : ¬ BeginsWith assignments p.operand
  inCode : ¬ Covered p.offset 0 (tokens cs)

/-- An assignment that shifts, to a variable called `yield`. -/
structure Place.AssignsShifted (cs : List Char) (p : Place) : Prop where
  text : p.text = cs
  begins : BeginsStatement p.before
  blanks : p.gap ≠ []
  operand : BeginsWith shiftAssignments p.operand
  inCode : ¬ Covered p.offset 0 (tokens cs)

theorem beginsAssignment_iff (cs : List Char) :
    beginsAssignment cs = true ↔ BeginsWith compoundAssignments cs := by
  match cs with
  | [] => decide
  | [c] =>
    simp [beginsAssignment, BeginsWith, compoundAssignments]
  | c :: d :: rest =>
    by_cases hd : d = '='
    · subst hd
      simp [beginsAssignment, BeginsWith, compoundAssignments, @eq_comm _ c]
    · have hfalse : beginsAssignment (c :: d :: rest) = false := by
        unfold beginsAssignment
        split
        · next heq => exact absurd (List.cons.inj (List.cons.inj heq).2).1 hd
        · rfl
      simp [hfalse, BeginsWith, compoundAssignments, Ne.symm hd]

theorem not_beginsAssignment_of_shift {cs : List Char} (h : BeginsWith shiftAssignments cs) :
    beginsAssignment cs = false := by
  obtain ⟨op, hop, rest, rfl⟩ := h
  simp only [shiftAssignments, List.mem_cons, List.not_mem_nil, or_false] at hop
  rcases hop with rfl | rfl | rfl <;> rfl

theorem not_beginsWith_assignments {c : Char} {rest : List Char} (hc : c ≠ '=')
    (hcompound : beginsAssignment (c :: rest) = false)
    (hshift : ¬ BeginsWith shiftAssignments (c :: rest)) :
    ¬ BeginsWith assignments (c :: rest) := by
  rintro ⟨op, hop, hlead⟩
  rcases List.mem_cons.1 hop with rfl | hop
  · exact hc (List.cons_prefix_cons.1 hlead).1.symm
  · rcases List.mem_append.1 hop with hop | hop
    · rw [(beginsAssignment_iff _).2 ⟨op, hop, hlead⟩] at hcompound
      cases hcompound
    · exact hshift ⟨op, hop, hlead⟩

namespace Place

variable {cs : List Char} {p : Place}

theorem ReadsAsStatement.looks (h : p.ReadsAsStatement cs) : p.Looks true := by
  obtain ⟨c, rest, hoperand, hdot⟩ := h.operand
  refine ⟨(beginsStatement_iff _).1 h.begins, h.blanks, c, rest, hoperand, ?_, hdot⟩
  rintro rfl
  exact h.noAssignment ⟨"=", List.mem_cons_self, rest, hoperand.symm⟩

theorem ReadsAsStatement.not_beginsAssignment (h : p.ReadsAsStatement cs) :
    beginsAssignment p.operand = false := by
  rw [← Bool.not_eq_true, beginsAssignment_iff]
  rintro ⟨op, hop, hlead⟩
  exact h.noAssignment ⟨op, List.mem_cons_of_mem _ (List.mem_append_left _ hop), hlead⟩

/-- What looks like a statement and is no compound assignment in code follows the rule, or is an
assignment that shifts. -/
theorem Looks.cases (h : p.Looks true) (htext : p.text = cs)
    (hcompound : beginsAssignment p.operand = false) (hcode : ¬ Covered p.offset 0 (tokens cs)) :
    p.ReadsAsStatement cs ∨ p.AssignsShifted cs := by
  have hbegins := (beginsStatement_iff _).2 h.1
  obtain ⟨hgap, c, rest, hoperand, heq, hdot⟩ := h.2
  by_cases hshift : BeginsWith shiftAssignments p.operand
  · exact .inr ⟨htext, hbegins, hgap, hshift, hcode⟩
  · refine .inl ⟨htext, hbegins, hgap, ⟨c, rest, hoperand, hdot⟩, ?_, hcode⟩
    rw [hoperand] at hcompound hshift ⊢
    exact not_beginsWith_assignments heq hcompound hshift

end Place

theorem mem_yieldCandidates_iff (source : String) (o : Nat) : o ∈ yieldCandidates source ↔
    ∃ p : Place, p.offset = o ∧
      (p.ReadsAsStatement source.toList ∨ p.AssignsShifted source.toList) ∧
      ∃ k, InRow source.toList (2 * k) p := by
  have s := search_proposals true 0 source.toList
  constructor
  · intro h
    obtain ⟨q, hq, rfl⟩ := List.mem_map.1 h
    obtain ⟨hmem, hfilter⟩ := List.mem_filter.1 hq
    obtain ⟨p, htext, hlooks, rfl⟩ := s.looks hmem
    simp only [Place.proposal, Nat.zero_add, Bool.and_eq_true, Bool.not_eq_true'] at hfilter
    have hcode : ¬ Covered p.offset 0 (tokens source.toList) := by
      rw [← inRanges_coveredRanges, hfilter.1]
      simp
    obtain ⟨k, hk⟩ := InRow.exists_of_looks htext hlooks
    have heven := hk.mem_iff.1 hmem
    refine ⟨p, (Nat.zero_add _).symm, hlooks.cases htext hfilter.2 hcode, k / 2, ?_⟩
    rwa [Nat.mul_div_cancel' (Nat.dvd_of_mod_eq_zero heven)]
  · rintro ⟨p, rfl, hp, k, hk⟩
    have hmem := hk.mem_iff.2 (Nat.mul_mod_right 2 k)
    have hfilter : ¬ Covered p.offset 0 (tokens source.toList) ∧
        beginsAssignment p.operand = false := by
      rcases hp with hp | hp
      · exact ⟨hp.inCode, hp.not_beginsAssignment⟩
      · exact ⟨hp.inCode, not_beginsAssignment_of_shift hp.operand⟩
    refine List.mem_map.2 ⟨p.proposal 0, List.mem_filter.2 ⟨hmem, ?_⟩, Nat.zero_add _⟩
    rw [← inRanges_coveredRanges, Bool.not_eq_true] at hfilter
    simp [Place.proposal, hfilter]

/-- **Which keywords are candidates.** They are listed in ascending order. They are the places that
follow the rule, and beyond it those of shifting assignments, but of places that abut only every
second one. In a text where no two places abut and nothing is assigned with a shift, the candidates
are exactly the places that follow the rule. -/
theorem yieldCandidates_exact (source : String) :
    (yieldCandidates source).Pairwise (· < ·) ∧
    (∀ o, o ∈ yieldCandidates source ↔ ∃ p : Place, p.offset = o ∧
      (p.ReadsAsStatement source.toList ∨ p.AssignsShifted source.toList) ∧
      ∃ k, InRow source.toList (2 * k) p) ∧
    ((∀ p q : Place, p.text = source.toList → q.text = source.toList → p.Looks true →
        q.Looks true → ¬ p.Abuts q) → (∀ p : Place, ¬ p.AssignsShifted source.toList) →
      ∀ o, o ∈ yieldCandidates source ↔
        ∃ p : Place, p.offset = o ∧ p.ReadsAsStatement source.toList) := by
  refine ⟨yieldCandidates_ascending source, mem_yieldCandidates_iff source, ?_⟩
  intro hapart hshift o
  rw [mem_yieldCandidates_iff]
  constructor
  · rintro ⟨p, ho, hp, -⟩
    exact ⟨p, ho, hp.resolve_right (hshift p)⟩
  · rintro ⟨p, ho, hp⟩
    have hfirst : InRow source.toList (2 * 0) p :=
      .first hp.text hp.looks fun y hy hylooks => hapart y p hy hp.text hylooks hp.looks
    exact ⟨p, ho, .inl hp, 0, hfirst⟩

/-- A statement that nothing abuts. -/
def yieldOnce : String := "case 1: yield x;"

theorem yieldCandidates_once : yieldCandidates yieldOnce = [8] ∧
    ∃ p : Place, p.offset = 8 ∧ p.ReadsAsStatement yieldOnce.toList := by
  -- with one `y` in the text there is no place for a second keyword
  have hsingle : ∀ p q : Place, p.text = yieldOnce.toList → q.text = yieldOnce.toList →
      ¬ p.Abuts q := by
    rintro p q hp hq ⟨next, hbefore, -⟩
    have hcount : q.text.count 'y' = 1 := by rw [hq]; decide
    have hkeyword : yieldKeyword.count 'y' = 1 := by decide
    rw [Place.text, hbefore] at hcount
    simp only [List.count_append, hkeyword] at hcount
    omega
  have hassigns : '=' ∉ yieldOnce.toList := by decide
  have hshift : ∀ p : Place, ¬ p.AssignsShifted yieldOnce.toList := by
    rintro p ⟨htext, -, -, ⟨op, hop, hlead⟩, -⟩
    have heq : '=' ∈ op.toList := by
      simp only [shiftAssignments, List.mem_cons, List.not_mem_nil, or_false] at hop
      rcases hop with rfl | rfl | rfl <;> decide
    refine hassigns ?_
    rw [← htext, Place.text, ← p.gap_append_operand]
    simp [hlead.subset heq]
  have hcandidates : yieldCandidates yieldOnce = [8] := by decide +kernel
  have hexact := (yieldCandidates_exact yieldOnce).2.2 (fun p q hp hq _ _ => hsingle p q hp hq) hshift
  exact ⟨hcandidates, (hexact 8).1 (by rw [hcandidates]; exact List.mem_cons_self)⟩

/-- A variable called `yield` is shifted. -/
def yieldShifted : String := "yield <<= 2;"

/-- The words of a comment and a statement below it. -/
def yieldBelowComment : String := "// default: yield\n    yield 1;"

/-- The shift is a candidate and should be none. The statement should be one and is none: its first
letter is passed over as the operand of the keyword in the comment. -/
theorem yieldCandidates_not_exact :
    (yieldCandidates yieldShifted = [0] ∧
      ¬ ∃ p : Place, p.offset = 0 ∧ p.ReadsAsStatement yieldShifted.toList) ∧
    (yieldCandidates yieldBelowComment = [] ∧
      ∃ p : Place, p.offset = 22 ∧ p.ReadsAsStatement yieldBelowComment.toList) := by
  refine ⟨⟨by decide +kernel, ?_⟩, by decide +kernel, ?_⟩
  · rintro ⟨p, hoffset, hp⟩
    obtain rfl : p = ⟨[], " <<= 2;".toList⟩ := Place.eq_of_offset (hp.text.trans rfl) hoffset
    exact hp.noAssignment (by decide +kernel)
  · refine ⟨⟨"// default: yield\n    ".toList, " 1;".toList⟩, by decide +kernel, ?_⟩
    refine ⟨by decide +kernel, by decide +kernel, by decide +kernel, ?_, by decide +kernel,
      by decide +kernel⟩
    exact ⟨'1', [';'], by decide +kernel, by decide⟩

end MinimumRelease.Recovery
