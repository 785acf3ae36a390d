import MinimumRelease.Proofs.Recovery.Substitution
import Mathlib.Data.List.DropRight

/-! # Places of the keyword

A place is a `yield` in a text, with what stands before it and what stands behind
it. Two of them never overlap (`Place.order`). What stands before decides whether
a statement may begin there (`BeginsStatement`), and this can be read off from the
left too, character by character (`statementAhead`), as a search does. What stands
behind decides whether it fits a statement (`Place.Fits`). -/

namespace MinimumRelease.Recovery

open Text (byteLength isBlank)

/-! ## Literals and comments -/

/-- Byte `p` lies in a literal or a comment among tokens that begin at byte `offset`. -/
def Covered (p : Nat) (offset : Nat) : List Token → Prop
  | [] => False
  | t :: ts => (t.isCovered = true ∧ offset ≤ p ∧ p < offset + byteLength t.text) ∨
      Covered p (offset + byteLength t.text) ts

instance Covered.decidable (p : Nat) : (offset : Nat) → (ts : List Token) →
    Decidable (Covered p offset ts)
  | _, [] => inferInstanceAs (Decidable False)
  | offset, t :: ts =>
    have := Covered.decidable p (offset + byteLength t.text) ts
    inferInstanceAs (Decidable (_ ∨ _))

theorem Covered.le {p offset : Nat} {ts : List Token} (h : Covered p offset ts) : offset ≤ p := by
  induction ts generalizing offset with
  | nil => cases h
  | cons t ts ih =>
    rcases h with h | h
    · exact h.2.1
    · have := ih h
      omega

/-- The ranges tell exactly what literals and comments cover. -/
theorem inRanges_coveredRanges (p offset : Nat) (ts : List Token) :
    inRanges (coveredRanges offset ts) p = true ↔ Covered p offset ts := by
  induction ts generalizing offset with
  | nil => simp [coveredRanges, inRanges, Covered]
  | cons t ts ih =>
    rw [coveredRanges, Covered]
    cases ht : t.isCovered with
    | false => simpa using ih (offset + byteLength t.text)
    | true =>
      simp only [if_true, true_and]
      by_cases hp : offset + byteLength t.text ≤ p
      · have hskip : inRanges ((offset, offset + byteLength t.text) ::
            coveredRanges (offset + byteLength t.text) ts) p =
              inRanges (coveredRanges (offset + byteLength t.text) ts) p := by
          simp [inRanges, hp]
        rw [hskip, ih]
        exact ⟨.inr, fun h => h.resolve_left (by omega)⟩
      · have hstop : inRanges ((offset, offset + byteLength t.text) ::
            coveredRanges (offset + byteLength t.text) ts) p = decide (offset ≤ p) := by
          simp [inRanges, hp, Nat.lt_of_not_le hp]
        rw [hstop, decide_eq_true_eq]
        exact ⟨fun h => .inl ⟨h, by omega⟩, fun h => h.elim (·.1) fun h => by
          have := h.le
          omega⟩

/-! ## Where a statement may begin -/

/-- The marks behind which a statement may begin. -/
def statementMarks : List Char := [';', '{', '}', ':']

/-- A statement may begin behind `before`: the blanks at its end begin with the text, contain a
line feed, or stand behind a mark. -/
def BeginsStatement (before : List Char) : Prop :=
  before.rdropWhile isBlank = [] ∨ '\n' ∈ before.rtakeWhile isBlank ∨
    ∃ c ∈ statementMarks, (before.rdropWhile isBlank).getLast? = some c

instance (before : List Char) : Decidable (BeginsStatement before) :=
  inferInstanceAs (Decidable (_ ∨ _ ∨ _))

/-- The same, read from the left. At first a statement may begin if `fresh` says so. -/
def statementAhead (fresh : Bool) (cs : List Char) : Bool :=
  cs.foldl (fun ahead c => c = '\n' || c ∈ statementMarks || (ahead && isBlank c)) fresh

@[simp] theorem statementAhead_nil (fresh : Bool) : statementAhead fresh [] = fresh := rfl

@[simp] theorem statementAhead_cons (fresh : Bool) (c : Char) (cs : List Char) :
    statementAhead fresh (c :: cs) =
      statementAhead (c = '\n' || c ∈ statementMarks || (fresh && isBlank c)) cs := rfl

theorem statementAhead_append (fresh : Bool) (as bs : List Char) :
    statementAhead fresh (as ++ bs) = statementAhead (statementAhead fresh as) bs :=
  List.foldl_append

theorem isBlank_of_mem_statementMarks {c : Char} (h : c ∈ statementMarks) :
    isBlank c = false := by
  simp only [statementMarks, List.mem_cons, List.not_mem_nil, or_false] at h
  rcases h with rfl | rfl | rfl | rfl <;> decide

theorem beginsStatement_iff (before : List Char) :
    BeginsStatement before ↔ statementAhead true before = true := by
  induction before using List.reverseRecOn with
  | nil => simp [BeginsStatement]
  | append_singleton cs c ih =>
    rw [statementAhead_append]
    simp only [statementAhead_cons, statementAhead_nil, Bool.or_eq_true, Bool.and_eq_true,
      decide_eq_true_eq]
    cases hc : isBlank c with
    | true =>
      have hmark : c ∉ statementMarks := fun h => by
        rw [isBlank_of_mem_statementMarks h] at hc
        cases hc
      rw [BeginsStatement, List.rdropWhile_concat_pos _ _ _ hc, List.rtakeWhile_concat_pos _ _ _ hc,
        ← ih, BeginsStatement]
      simp only [List.mem_append, List.mem_singleton, hmark, or_false, and_true]
      grind
    | false =>
      have hfeed : c ≠ '\n' := by
        rintro rfl
        cases hc
      have hneg : ¬ isBlank c = true := by simp [hc]
      rw [BeginsStatement, List.rdropWhile_concat_neg _ _ _ hneg,
        List.rtakeWhile_concat_neg _ _ _ hneg]
      simp [hfeed]

/-- What stood before matters only behind nothing but blanks. -/
theorem statementAhead_eq_true (fresh : Bool) (cs : List Char) :
    statementAhead fresh cs = true ↔ statementAhead false cs = true ∨
      (fresh = true ∧ ∀ c ∈ cs, isBlank c = true) := by
  induction cs generalizing fresh with
  | nil => simp
  | cons c cs ih =>
    rw [statementAhead_cons, statementAhead_cons, ih, ih (_ || _ || (false && _))]
    simp only [Bool.or_eq_true, Bool.and_eq_true, decide_eq_true_eq, Bool.false_eq_true,
      false_and, or_false, List.forall_mem_cons]
    grind

theorem statementAhead_of_blank {cs : List Char} (h : ∀ c ∈ cs, isBlank c = true) :
    statementAhead false cs = true ↔ '\n' ∈ cs := by
  induction cs with
  | nil => simp
  | cons c cs ih =>
    obtain ⟨hc, hcs⟩ := List.forall_mem_cons.1 h
    have hmark : c ∉ statementMarks := fun h => by
      rw [isBlank_of_mem_statementMarks h] at hc
      cases hc
    rw [statementAhead_cons, statementAhead_eq_true, ih hcs, List.mem_cons]
    simp only [hmark, decide_false, Bool.or_false, Bool.false_and, decide_eq_true_eq]
    grind

/-! ## Keywords in a text -/

/-- A `yield` in a text: what stands before it and what stands behind it. -/
structure Place where
  before : List Char
  after : List Char

namespace Place

def text (p : Place) : List Char := p.before ++ yieldKeyword ++ p.after

/-- Byte offset of the keyword. -/
def offset (p : Place) : Nat := byteLength p.before

/-- The blanks behind the keyword. -/
def gap (p : Place) : List Char := p.after.takeWhile isBlank

/-- What follows the blanks. -/
def operand (p : Place) : List Char := p.after.dropWhile isBlank

/-- Blanks and then an operand follow, which is neither a member access nor a plain assignment. -/
def Fits (p : Place) : Prop :=
  p.gap ≠ [] ∧ ∃ c rest, p.operand = c :: rest ∧ c ≠ '=' ∧ c ≠ '.'

/-- The search would stop here if it found nothing before. -/
def Looks (fresh : Bool) (p : Place) : Prop := statementAhead fresh p.before = true ∧ p.Fits

/-- The search ends with the first character of the operand of `p`, and with it `q` begins: it is
that operand, or the operand begins with the mark behind which `q` begins. -/
def Abuts (p q : Place) : Prop :=
  ∃ next, q.before = p.before ++ yieldKeyword ++ p.gap ++ next ∧
    (next = [] ∨ ∃ mark blanks, next = mark :: blanks ∧ mark ∈ statementMarks ∧
      ∀ c ∈ blanks, isBlank c = true ∧ c ≠ '\n')

def proposal (start : Nat) (p : Place) : Proposal := ⟨start + p.offset, p.operand⟩

/-- The place in a text that has `as` before it. -/
def behind (as : List Char) (p : Place) : Place := ⟨as ++ p.before, p.after⟩

theorem text_behind (as : List Char) (p : Place) : (p.behind as).text = as ++ p.text := by
  simp [behind, text]

theorem proposal_behind (start : Nat) (as : List Char) (p : Place) :
    (p.behind as).proposal start = p.proposal (start + byteLength as) := by
  simp [behind, proposal, offset, operand, Nat.add_assoc]

theorem abuts_behind {as : List Char} {p q : Place} :
    (p.behind as).Abuts (q.behind as) ↔ p.Abuts q := by
  simp [Abuts, behind, gap]

theorem gap_append_operand (p : Place) : p.gap ++ p.operand = p.after :=
  List.takeWhile_append_dropWhile

theorem isBlank_of_mem_gap {p : Place} {c : Char} (h : c ∈ p.gap) : isBlank c = true :=
  List.mem_takeWhile_imp h

theorem not_isBlank_operand {p : Place} {c : Char} {rest : List Char}
    (h : p.operand = c :: rest) : isBlank c = false := by
  have := List.head?_dropWhile_not isBlank p.after
  rw [← operand, h] at this
  simpa using this

end Place

/-- What stands before the first `c` of a text begins with all that stands before any other
character. -/
theorem append_cons_eq_append {α : Type} {as bs xs ys : List α} {c : α}
    (h : as ++ c :: bs = xs ++ ys) (hc : c ∉ xs) : ∃ zs, as = xs ++ zs ∧ ys = zs ++ c :: bs := by
  rcases List.append_eq_append_iff.1 h with ⟨zs, hxs, hbs⟩ | ⟨zs, has, hys⟩
  · cases zs with
    | nil => exact ⟨[], by simpa using hxs.symm, by simpa using hbs.symm⟩
    | cons z zs =>
      obtain rfl : c = z := (List.cons.inj hbs).1
      exact absurd (by simp [hxs]) hc
  · exact ⟨zs, has, hys⟩

namespace Place

variable {p q : Place}

/-- Of two keywords one stands behind the other. -/
theorem order (h : p.text = q.text) : p = q ∨
    (∃ t, q.before = p.before ++ yieldKeyword ++ t ∧ p.after = t ++ yieldKeyword ++ q.after) ∨
    ∃ t, p.before = q.before ++ yieldKeyword ++ t ∧ q.after = t ++ yieldKeyword ++ p.after := by
  -- it is enough to look at a keyword and the text behind it
  have hbehind : ∀ {as bs cs : List Char}, yieldKeyword ++ as = bs ++ yieldKeyword ++ cs →
      bs = [] ∨ ∃ t, bs = yieldKeyword ++ t ∧ as = t ++ yieldKeyword ++ cs := by
    intro as bs cs he
    cases bs with
    | nil => exact .inl rfl
    | cons b bs =>
      rw [List.append_assoc] at he
      have he' : 'y' :: ("ield".toList ++ as) = b :: (bs ++ 'y' :: ("ield".toList ++ cs)) := he
      obtain ⟨rfl, hrest⟩ := List.cons.inj he'
      obtain ⟨t, rfl, rfl⟩ := append_cons_eq_append hrest.symm (by decide)
      exact .inr ⟨t, rfl, by simp [yieldKeyword]⟩
  obtain ⟨pb, pa⟩ := p
  obtain ⟨qb, qa⟩ := q
  simp only [text, List.append_assoc] at h
  rcases List.append_eq_append_iff.1 h with ⟨zs, rfl, he⟩ | ⟨zs, rfl, he⟩
  · rcases hbehind (by rw [he, List.append_assoc]) with rfl | ⟨t, rfl, rfl⟩
    · rw [List.nil_append, List.append_cancel_left_eq] at he
      exact .inl (by simp [he])
    · exact .inr (.inl ⟨t, by simp, rfl⟩)
  · rcases hbehind (by rw [he, List.append_assoc]) with rfl | ⟨t, rfl, rfl⟩
    · rw [List.nil_append, List.append_cancel_left_eq] at he
      exact .inl (by simp [he])
    · exact .inr (.inr ⟨t, by simp, rfl⟩)

theorem eq_of_offset (h : p.text = q.text) (ho : p.offset = q.offset) : p = q := by
  have hfive : byteLength yieldKeyword = 5 := rfl
  rcases order h with h | ⟨t, ht, -⟩ | ⟨t, ht, -⟩
  · exact h
  all_goals
    rw [offset, offset, ht] at ho
    simp only [Text.byteLength_append, hfive] at ho
    omega

/-- The search finds the place from the beginning of its text on: blanks lead to the keyword, at
the start of a line or behind a mark. -/
def Starts (fresh : Bool) (p : Place) : Prop :=
  (fresh = true ∧ ∀ c ∈ p.before, isBlank c = true) ∨
    ∃ mark blanks, p.before = mark :: blanks ∧ mark ∈ statementMarks ∧
      ∀ c ∈ blanks, isBlank c = true

theorem Starts.statementAhead {fresh : Bool} (h : p.Starts fresh) :
    statementAhead fresh p.before = true := by
  rcases h with ⟨hfresh, hblank⟩ | ⟨mark, blanks, hp, hmark, hblank⟩
  · exact (statementAhead_eq_true _ _).2 (.inr ⟨hfresh, hblank⟩)
  · rw [hp, statementAhead_cons, statementAhead_eq_true]
    exact .inr ⟨by simp [hmark], hblank⟩

end Place

end MinimumRelease.Recovery
