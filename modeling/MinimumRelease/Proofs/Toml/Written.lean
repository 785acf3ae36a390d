import MinimumRelease.Toml.Document

/-! # Values as they are written

An integer is written with a minus sign if it is negative, and then in decimal digits
without a zero before them. What reads such a text must not take it for something else:
a year or an hour begins with digits too, and so does a float. Behind the digits the line
ends, and that tells all of them apart. Main statement: an integer of 64 bits and a truth
value read back as what they are (`written_integer`, `written_true`, `written_false`). -/

namespace MinimumRelease.Toml

/-- At the end of a line the text reads as the value. -/
structure Written (text : List Char) (v : Value) : Prop where
  reads : ∀ rest, value (nestingLimit - 1) (text ++ '\n' :: rest) = some (v, '\n' :: rest)
  begins : ∃ c cs, text = c :: cs ∧ isWs c = false

/-- A character of one sort is none of another. -/
theorem ne_of_sort {p : Char → Bool} {c x : Char} (hc : p c = true) (hx : p x = false) :
    c ≠ x := by
  intro he
  rw [he, hx] at hc
  cases hc

/-! ## Decimal digits -/

/-- The text is a decimal number: digits, of which a leading zero is the only one. -/
structure Decimal (ds : List Char) : Prop where
  digits : ∀ d ∈ ds, d.isDigit = true
  nonempty : ds ≠ []
  leading : ∀ ds', ds = '0' :: ds' → ds' = []

theorem head?_toDigits_ne_zero (n : Nat) (hn : 0 < n) : (Nat.toDigits 10 n).head? ≠ some '0' := by
  induction n using Nat.strongRecOn with
  | ind n ih =>
    rw [Nat.toDigits_eq_if (by omega)]
    split
    · next hlt =>
      have hdigit : ∀ d, d < 10 → 0 < d → Nat.digitChar d ≠ '0' := by decide
      simpa using hdigit n hlt hn
    · next hge =>
      have hshort := ih (n / 10) (by omega) (by omega)
      obtain ⟨d, hd⟩ := Option.isSome_iff_exists.1 (List.isSome_head?.2
        (Nat.toDigits_ne_nil (n := n / 10) (b := 10)))
      rwa [List.head?_append, hd, Option.some_or, ← hd]

theorem decimal_toDigits (n : Nat) : Decimal (Nat.toDigits 10 n) where
  digits d hd := Nat.isDigit_of_mem_toDigits (by omega) (by omega) hd
  nonempty := Nat.toDigits_ne_nil
  leading ds' h := by
    cases n with
    | zero => exact (List.cons.inj h).2.symm
    | succ n =>
      have := head?_toDigits_ne_zero (n + 1) (by omega)
      rw [h] at this
      simp at this

theorem digitsValue_toDigits (n : Nat) : digitsValue 10 (Nat.toDigits 10 n) = n := by
  have hfold : ∀ (ds : List Char) (k : Nat), (∀ d ∈ ds, d.isDigit = true) →
      ds.foldl (fun n c => n * 10 + digitValue c) k = Nat.ofDigitChars 10 ds k := by
    intro ds
    induction ds with
    | nil => intro k _; rfl
    | cons d ds ih =>
      intro k h
      rw [List.forall_mem_cons] at h
      rw [List.foldl_cons, ih _ h.2, Nat.ofDigitChars_cons, digitValue, if_pos h.1, Nat.mul_comm]
  rw [digitsValue, hfold _ _ (decimal_toDigits n).digits, Nat.ofDigitChars_ten_toDigits]

theorem moreDigits_line {ds : List Char} (h : ∀ d ∈ ds, d.isDigit = true) (rest : List Char) :
    moreDigits Char.isDigit (ds ++ '\n' :: rest) = some (ds, '\n' :: rest) := by
  induction ds with
  | nil => rfl
  | cons d ds ih =>
    rw [List.forall_mem_cons] at h
    have hd : d ≠ '_' := ne_of_sort h.1 rfl
    rw [List.cons_append, moreDigits.eq_3 _ _ _ (fun _ _ he => absurd he hd), if_pos h.1, ih h.2]
    rfl

theorem Decimal.decimalDigits_line {ds : List Char} (h : Decimal ds) (rest : List Char) :
    decimalDigits (ds ++ '\n' :: rest) = some (ds, '\n' :: rest) := by
  cases ds with
  | nil => exact absurd rfl h.nonempty
  | cons d ds =>
    have hdigits := List.forall_mem_cons.1 h.digits
    by_cases hd : d = '0'
    · subst hd
      rw [h.leading ds rfl]
      rfl
    · rw [List.cons_append, decimalDigits.eq_2 _ (fun _ he => hd (List.cons.inj he).1), Toml.digits,
        if_pos hdigits.1, moreDigits_line hdigits.2]
      rfl

/-! ## Neither a date nor a float -/

/-- Behind some of the digits of a line come more digits or the end of the line. -/
theorem single_of_fixedNumber {ds rest cs : List Char} {n lo hi v : Nat} {c : Char}
    (h : ∀ d ∈ ds, d.isDigit = true) (hc : c.isDigit = false) (hend : c ≠ '\n')
    (hf : fixedNumber n lo hi (ds ++ '\n' :: rest) = some (v, cs)) : single c cs = none := by
  simp only [fixedNumber, Option.ite_none_right_eq_some, Bool.and_eq_true, decide_eq_true_eq,
    List.all_eq_true, Option.some.injEq, Prod.mk.injEq] at hf
  obtain ⟨⟨⟨⟨-, hall⟩, -⟩, -⟩, -, hcs⟩ := hf
  have hn : n ≤ ds.length := by
    refine Nat.le_of_not_lt fun hlt => ?_
    have hmem : '\n' ∈ (ds ++ '\n' :: rest).take n := by
      obtain ⟨k, hk⟩ : ∃ k, n - ds.length = k + 1 := ⟨n - ds.length - 1, by omega⟩
      rw [List.take_append, hk, List.take_succ_cons]
      simp
    exact absurd (hall _ hmem) (by decide)
  rw [List.drop_append_of_le_length hn] at hcs
  cases hd : ds.drop n with
  | nil =>
    rw [hd] at hcs
    rw [← hcs, List.nil_append, single, if_neg (Ne.symm hend)]
  | cons d ds' =>
    have hdigit : d.isDigit = true := h d (List.mem_of_mem_drop (hd ▸ List.mem_cons_self))
    rw [hd] at hcs
    rw [← hcs, List.cons_append, single, if_neg (ne_of_sort hdigit hc)]

/-- The digits of an integer, behind its sign. -/
def signed (negative : Bool) (ds : List Char) : List Char :=
  if negative then '-' :: ds else ds

theorem sign_signed {ds : List Char} (h : Decimal ds) (negative : Bool) (rest : List Char) :
    sign (signed negative ds ++ '\n' :: rest) = (negative, ds ++ '\n' :: rest) := by
  cases negative with
  | true => rfl
  | false =>
    cases ds with
    | nil => exact absurd rfl h.nonempty
    | cons d ds =>
      have hd := h.digits d List.mem_cons_self
      simp only [signed, Bool.false_eq_true, if_false, List.cons_append]
      unfold sign
      split
      · next he => exact absurd (List.cons.inj he).1 (ne_of_sort hd rfl)
      · next he => exact absurd (List.cons.inj he).1 (ne_of_sort hd rfl)
      · rfl

theorem fixedNumber_minus {n : Nat} (hn : 0 < n) (lo hi : Nat) (cs : List Char) :
    fixedNumber n lo hi ('-' :: cs) = none := by
  obtain ⟨k, rfl⟩ : ∃ k, n = k + 1 := ⟨n - 1, by omega⟩
  simp [fixedNumber]

theorem single_of_fixedNumber_signed {ds rest cs : List Char} {negative : Bool}
    {n lo hi v : Nat} {c : Char} (h : Decimal ds) (hn : 0 < n) (hc : c.isDigit = false)
    (hend : c ≠ '\n')
    (hf : fixedNumber n lo hi (signed negative ds ++ '\n' :: rest) = some (v, cs)) :
    single c cs = none := by
  cases negative with
  | true =>
    have hminus := fixedNumber_minus hn lo hi (ds ++ '\n' :: rest)
    cases hminus.symm.trans hf
  | false => exact single_of_fixedNumber h.digits hc hend hf

/-- A date has a dash behind the year, and a time a colon behind the hour. -/
theorem dateTime_signed {ds : List Char} (h : Decimal ds) (negative : Bool) (rest : List Char) :
    dateTime (signed negative ds ++ '\n' :: rest) = none := by
  have hdate : date (signed negative ds ++ '\n' :: rest) = none := by
    unfold date
    cases hf : fixedNumber 4 0 9999 (signed negative ds ++ '\n' :: rest) with
    | none => rfl
    | some p =>
      have hdash : single '-' p.2 = none :=
        single_of_fixedNumber_signed h (by omega) rfl (by decide) hf
      simp [hdash]
  have htime : time (signed negative ds ++ '\n' :: rest) = none := by
    unfold time
    cases hf : fixedNumber 2 0 23 (signed negative ds ++ '\n' :: rest) with
    | none => rfl
    | some p =>
      have hcolon : single ':' p.2 = none :=
        single_of_fixedNumber_signed h (by omega) rfl (by decide) hf
      simp [hcolon]
  simp [dateTime, hdate, htime]

theorem finiteFloat_signed {ds : List Char} (h : Decimal ds) (negative : Bool)
    (rest : List Char) : finiteFloat (signed negative ds ++ '\n' :: rest) = none := by
  have hexponent : exponent ('\n' :: rest) = none := rfl
  simp [finiteFloat, sign_signed h, h.decimalDigits_line, hexponent]

theorem specialFloat_signed {ds : List Char} (h : Decimal ds) (negative : Bool)
    (rest : List Char) : specialFloat (signed negative ds ++ '\n' :: rest) = none := by
  cases ds with
  | nil => exact absurd rfl h.nonempty
  | cons d ds =>
    have hd := h.digits d List.mem_cons_self
    simp only [specialFloat, sign_signed h]
    split
    · next he => exact absurd (List.cons.inj he).1 (ne_of_sort hd rfl)
    · next he => exact absurd (List.cons.inj he).1 (ne_of_sort hd rfl)
    · rfl

/-! ## Integers and truth values -/

theorem integer_signed {ds : List Char} (h : Decimal ds) (negative : Bool) (rest : List Char) :
    integer (signed negative ds ++ '\n' :: rest) =
      (integerOf negative 10 ds).map (·, '\n' :: rest) := by
  have hdecimal : integer (signed negative ds ++ '\n' :: rest) =
      decimalInteger (signed negative ds ++ '\n' :: rest) := by
    cases negative with
    | true => rfl
    | false =>
      cases ds with
      | nil => exact absurd rfl h.nonempty
      | cons d ds =>
        by_cases hd : d = '0'
        · subst hd
          rw [h.leading ds rfl]
          rfl
        · simp only [signed, Bool.false_eq_true, if_false, List.cons_append]
          unfold integer
          split
          · next he => exact absurd (List.cons.inj he).1 hd
          · next he => exact absurd (List.cons.inj he).1 hd
          · next he => exact absurd (List.cons.inj he).1 hd
          · rfl
  rw [hdecimal, decimalInteger, sign_signed h]
  simp only [h.decimalDigits_line]
  cases hof : integerOf negative 10 ds <;> simp [hof]

theorem exists_signed_of_integer (n : Int) : ∃ negative ds, Decimal ds ∧
    (toString n).toList = signed negative ds ∧
    integerOf negative 10 ds = if inRange n then some (.integer n) else none := by
  cases n with
  | ofNat m =>
    refine ⟨false, Nat.toDigits 10 m, decimal_toDigits m, ?_, ?_⟩
    · show (Nat.repr m).toList = _
      rw [Nat.toList_repr]
      rfl
    · simp only [integerOf, digitsValue_toDigits, Bool.false_eq_true, if_false]
      rfl
  | negSucc m =>
    refine ⟨true, Nat.toDigits 10 (m + 1), decimal_toDigits (m + 1), ?_, ?_⟩
    · show ("-" ++ Nat.repr (m + 1)).toList = _
      rw [String.toList_append, Nat.toList_repr]
      rfl
    · simp only [integerOf, digitsValue_toDigits, if_true]
      rfl

theorem signed_eq_cons {ds : List Char} (h : Decimal ds) (negative : Bool) :
    ∃ c cs, signed negative ds = c :: cs ∧ (c = '-' ∨ c.isDigit = true) := by
  cases negative with
  | true => exact ⟨'-', ds, rfl, .inl rfl⟩
  | false =>
    cases ds with
    | nil => exact absurd rfl h.nonempty
    | cons d ds => exact ⟨d, ds, rfl, .inr (h.digits d List.mem_cons_self)⟩

/-- What begins like a number is none of the other kinds of value. -/
theorem value_of_number {c : Char} (h : c = '-' ∨ c.isDigit = true) (depth : Nat)
    (cs : List Char) : value depth (c :: cs) = number (c :: cs) ∧ isWs c = false := by
  have hne : ∀ x : Char, x.isDigit = false → x ≠ '-' → c ≠ x := by
    intro x hx hminus he
    rcases h with h | h
    · exact hminus (he ▸ h)
    · exact ne_of_sort h hx he
  have hscalar : scalar (c :: cs) = number (c :: cs) := by
    have hnumber : (c = '+' || c = '-' || c.isDigit) = true := by
      rcases h with h | h <;> simp [h]
    have hquote : (c = '"' || c = '\x27') = false := by
      simp [hne '"' (by decide) (by decide), hne '\x27' (by decide) (by decide)]
    rw [scalar, if_neg (by simp [hquote]), if_pos hnumber]
  constructor
  · rw [← hscalar]
    unfold value
    split
    · next he => exact absurd (List.cons.inj he).1 (hne '[' (by decide) (by decide))
    · next he => exact absurd (List.cons.inj he).1 (hne '{' (by decide) (by decide))
    · rfl
  · simp [isWs, hne ' ' (by decide) (by decide), hne '\t' (by decide) (by decide)]

/-- **An integer of 64 bits reads back.** -/
theorem written_integer {n : Int} (h : inRange n = true) :
    Written (toString n).toList (.integer n) := by
  obtain ⟨negative, ds, hds, htext, hof⟩ := exists_signed_of_integer n
  rw [if_pos h] at hof
  obtain ⟨c, cs, hcons, hc⟩ := signed_eq_cons hds negative
  rw [htext]
  constructor
  · intro rest
    have hvalue := (value_of_number hc (nestingLimit - 1) (cs ++ '\n' :: rest)).1
    rw [← List.cons_append, ← hcons] at hvalue
    rw [hvalue, number, dateTime_signed hds, finiteFloat_signed hds, specialFloat_signed hds,
      integer_signed hds, hof]
    rfl
  · exact ⟨c, cs, hcons, (value_of_number hc 0 []).2⟩

theorem written_true : Written "true".toList (.boolean true) :=
  ⟨fun _ => rfl, 't', _, rfl, rfl⟩

theorem written_false : Written "false".toList (.boolean false) :=
  ⟨fun _ => rfl, 'f', _, rfl, rfl⟩

end MinimumRelease.Toml
