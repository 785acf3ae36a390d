import MinimumRelease.Proofs.Recovery.Rearrangement

/-! # Nested brackets

A stretch of tokens turns the stack of open brackets into another one, unless
it closes what is not open (`openAfter`). It is nested if it leaves every
stack as it was. The scanner counts one kind of bracket at a time and knows no
stack; on nested tokens it finds the right one all the same
(`closing?_of_open`). -/

namespace MinimumRelease.Recovery

open Token

def isOpening (c : Char) : Bool := c = '(' || c = '[' || c = '{'

/-- The bracket that a closing bracket closes. -/
def opening? : Char → Option Char
  | ')' => some '('
  | ']' => some '['
  | '}' => some '{'
  | _ => none

/-- The open brackets behind a mark, innermost first. -/
def bracket (stack : List Char) (c : Char) : Option (List Char) :=
  if isOpening c then some (c :: stack)
  else
    match opening? c with
    | none => some stack
    | some o => if stack.head? = some o then some stack.tail else none

/-- The open brackets behind the tokens. There are none if a bracket closes another one. -/
def openAfter (stack : List Char) : List Token → Option (List Char)
  | [] => some stack
  | t :: ts =>
    match t.mark? with
    | none => openAfter stack ts
    | some c => (bracket stack c).bind (openAfter · ts)

/-- Every bracket is closed by its own counterpart. -/
def Nested (ts : List Token) : Prop := openAfter [] ts = some []

instance (ts : List Token) : Decidable (Nested ts) := inferInstanceAs (Decidable (_ = _))

/-! ## Stacks -/

theorem openAfter_mark {stack ts} {t : Token} {c : Char} (h : t.mark? = some c) :
    openAfter stack (t :: ts) = (bracket stack c).bind (openAfter · ts) := by
  rw [openAfter, h]

theorem openAfter_none {stack ts} {t : Token} (h : t.mark? = none) :
    openAfter stack (t :: ts) = openAfter stack ts := by
  rw [openAfter, h]

theorem openAfter_append (stack : List Char) (as bs : List Token) :
    openAfter stack (as ++ bs) = (openAfter stack as).bind (openAfter · bs) := by
  induction as generalizing stack with
  | nil => rfl
  | cons t as ih =>
    rw [List.cons_append]
    cases h : t.mark? with
    | none => rw [openAfter_none h, openAfter_none h, ih]
    | some c =>
      rw [openAfter_mark h, openAfter_mark h, Option.bind_assoc]
      cases bracket stack c with
      | none => rfl
      | some stack' => exact ih stack'

theorem bracket_append {stack stack' : List Char} {c : Char} (h : bracket stack c = some stack')
    (below : List Char) : bracket (stack ++ below) c = some (stack' ++ below) := by
  unfold bracket at h ⊢
  split at h
  · next ho =>
    cases h
    rw [if_pos ho, List.cons_append]
  · next ho =>
    rw [if_neg ho]
    split at h
    · cases h
      rfl
    · next o hc =>
      split at h
      · next hh =>
        cases h
        cases stack with
        | nil => cases hh
        | cons s stack =>
          cases hh
          exact if_pos rfl
      · cases h

/-- What lies below on the stack does not matter. -/
theorem openAfter_append_stack {ts : List Token} {stack stack' : List Char}
    (h : openAfter stack ts = some stack') (below : List Char) :
    openAfter (stack ++ below) ts = some (stack' ++ below) := by
  induction ts generalizing stack with
  | nil =>
    cases h
    rfl
  | cons t ts ih =>
    cases hm : t.mark? with
    | none =>
      rw [openAfter_none hm] at h ⊢
      exact ih h
    | some c =>
      rw [openAfter_mark hm] at h ⊢
      obtain ⟨s, hs, h⟩ := Option.bind_eq_some_iff.1 h
      rw [bracket_append hs below, Option.bind_some]
      exact ih h

theorem Nested.openAfter_eq {ts : List Token} (h : Nested ts) (stack : List Char) :
    openAfter stack ts = some stack :=
  openAfter_append_stack h stack

/-- Blanks and comments have no brackets. -/
theorem openAfter_filter (stack : List Char) (ts : List Token) :
    openAfter stack (ts.filter (!·.isTrivia)) = openAfter stack ts := by
  induction ts generalizing stack with
  | nil => rfl
  | cons t ts ih =>
    cases htr : t.isTrivia with
    | true =>
      have hm : t.mark? = none := by
        unfold mark?
        split
        · next hk => simp [isTrivia, hk] at htr
        · rfl
      rw [List.filter_cons_of_neg (by simp [htr]), openAfter_none hm, ih]
    | false =>
      rw [List.filter_cons_of_pos (by simp [htr])]
      cases hm : t.mark? with
      | none => rw [openAfter_none hm, openAfter_none hm, ih]
      | some c =>
        rw [openAfter_mark hm, openAfter_mark hm]
        cases bracket stack c with
        | none => rfl
        | some stack' => exact ih stack'

/-! ## Finding the counterpart -/

/-- A pair of brackets that belong together. -/
structure Pair (o c : Char) : Prop where
  opening : isOpening o = true
  closing : opening? c = some o

theorem pair_braces : Pair '{' '}' := ⟨rfl, rfl⟩

theorem pair_parens : Pair '(' ')' := ⟨rfl, rfl⟩

theorem opening?_eq_some {c o : Char} (h : opening? c = some o) :
    (c = ')' ∧ o = '(') ∨ (c = ']' ∧ o = '[') ∨ (c = '}' ∧ o = '{') := by
  unfold opening? at h
  split at h <;> cases h <;> simp

theorem Pair.not_opening {o c : Char} (h : Pair o c) : isOpening c = false := by
  rcases opening?_eq_some h.closing with ⟨rfl, -⟩ | ⟨rfl, -⟩ | ⟨rfl, -⟩ <;> rfl

theorem Pair.eq_of_opening? {o c d : Char} (h : Pair o c) (hd : opening? d = some o) : d = c := by
  rcases opening?_eq_some h.closing with ⟨rfl, rfl⟩ | ⟨rfl, rfl⟩ | ⟨rfl, rfl⟩ <;>
    rcases opening?_eq_some hd with ⟨rfl, h'⟩ | ⟨rfl, h'⟩ | ⟨rfl, h'⟩ <;> first
      | rfl
      | exact absurd h' (by decide)

theorem closing?_skip {o c : Char} {d i : Nat} {t : Token} {ts : List Placed}
    (ho : t.mark? ≠ some o) (hc : t.mark? ≠ some c) :
    closing? o c d ((t, i) :: ts) = closing? o c d ts := by
  rw [closing?, if_neg ho, if_neg hc]

/-- **On nested tokens the counterpart of an open bracket is found.** What stands between the two
is closed, and what was open before is still open behind them. -/
theorem closing?_of_open {o c : Char} (hp : Pair o c) {xs : List Placed} :
    ∀ {above below : List Char},
      openAfter (above ++ o :: below) (xs.map Prod.fst) = some [] →
        ∃ mid t j rest, xs = mid ++ (t, j) :: rest ∧
          closing? o c (above.count o + 1) xs = some (j + 1, rest) ∧
          openAfter above (mid.map Prod.fst) = some [] ∧
          openAfter below (rest.map Prod.fst) = some [] := by
  induction xs with
  | nil =>
    intro above below h
    simp [openAfter] at h
  | cons p xs ih =>
    obtain ⟨t, i⟩ := p
    intro above below h
    rw [List.map_cons] at h
    cases hm : t.mark? with
    | none =>
      rw [openAfter_none hm] at h
      obtain ⟨mid, u, j, rest, rfl, hr, ha, hb⟩ := ih h
      refine ⟨(t, i) :: mid, u, j, rest, rfl, ?_, ?_, hb⟩
      · rwa [closing?_skip (by simp [hm]) (by simp [hm])]
      · rwa [List.map_cons, openAfter_none hm]
    | some x =>
      rw [openAfter_mark hm] at h
      obtain ⟨stack, hs, h⟩ := Option.bind_eq_some_iff.1 h
      unfold bracket at hs
      split at hs
      · next hopen =>
        -- one more bracket is open, of the same kind or of another
        cases hs
        rw [← List.cons_append] at h
        obtain ⟨mid, u, j, rest, rfl, hr, ha, hb⟩ := ih h
        refine ⟨(t, i) :: mid, u, j, rest, rfl, ?_, ?_, hb⟩
        · by_cases hx : x = o
          · subst hx
            rw [List.count_cons_self] at hr
            rwa [closing?, if_pos hm]
          · have hxc : x ≠ c := by
              rintro rfl
              rw [hp.not_opening] at hopen
              cases hopen
            rw [List.count_cons_of_ne hx] at hr
            rwa [closing?_skip (by simp [hm, hx]) (by simp [hm, hxc])]
        · rw [List.map_cons, openAfter_mark hm, bracket, if_pos hopen, Option.bind_some]
          exact ha
      · next hopen =>
        have hxo : x ≠ o := by
          rintro rfl
          exact hopen hp.opening
        split at hs
        · next hclose =>
          cases hs
          have hxc : x ≠ c := by
            rintro rfl
            rw [hp.closing] at hclose
            cases hclose
          obtain ⟨mid, u, j, rest, rfl, hr, ha, hb⟩ := ih h
          refine ⟨(t, i) :: mid, u, j, rest, rfl, ?_, ?_, hb⟩
          · rwa [closing?_skip (by simp [hm, hxo]) (by simp [hm, hxc])]
          · rw [List.map_cons, openAfter_mark hm, bracket, if_neg hopen, hclose, Option.bind_some]
            exact ha
        · next o' hclose =>
          split at hs
          · next hhead =>
            cases hs
            cases above with
            | nil =>
              -- the bracket itself is closed
              cases hhead
              obtain rfl := hp.eq_of_opening? hclose
              refine ⟨[], t, i, xs, rfl, ?_, rfl, h⟩
              rw [closing?, if_neg (by simp [hm, hxo]), if_pos hm, if_pos (by simp)]
            | cons s above =>
              obtain rfl : s = o' := Option.some.inj hhead
              obtain ⟨mid, u, j, rest, rfl, hr, ha, hb⟩ := ih h
              refine ⟨(t, i) :: mid, u, j, rest, rfl, ?_, ?_, hb⟩
              · by_cases hxc : x = c
                · subst hxc
                  obtain rfl : o = s := Option.some.inj (hp.closing.symm.trans hclose)
                  rwa [closing?, if_neg (by simp [hm, hxo]), if_pos hm, List.count_cons_self,
                    if_neg (by omega)]
                · have hso : s ≠ o := by
                    rintro rfl
                    exact hxc (hp.eq_of_opening? hclose)
                  rwa [closing?_skip (by simp [hm, hxo]) (by simp [hm, hxc]),
                    List.count_cons_of_ne hso]
              · have hpop : bracket (s :: above) x = some above := by
                  rw [bracket, if_neg hopen, hclose]
                  exact if_pos rfl
                rw [List.map_cons, openAfter_mark hm, hpop, Option.bind_some]
                exact ha
          · cases hs

/-- A bracket at the front is closed. -/
theorem closing?_of_nested {o c : Char} (hp : Pair o c) {t : Token} {i : Nat} {xs : List Placed}
    {stack : List Char} (ht : t.mark? = some o)
    (h : openAfter stack (t :: xs.map Prod.fst) = some []) :
    ∃ mid u j rest, xs = mid ++ (u, j) :: rest ∧
      closing? o c 0 ((t, i) :: xs) = some (j + 1, rest) ∧ Nested (mid.map Prod.fst) ∧
      openAfter stack (rest.map Prod.fst) = some [] := by
  rw [openAfter_mark ht, bracket, if_pos hp.opening, Option.bind_some] at h
  rw [closing?, if_pos ht]
  exact @closing?_of_open o c hp xs [] stack h

/-! ## Moved declarations -/

theorem openAfter_tokensWithout {ts : List Token} {ms : List Move} {start stop : Nat}
    (h : Spaced ts start ms stop)
    (hn : ∀ m ∈ ms, Nested (tokensBetween ts m.start m.stop)) (stack : List Char) :
    openAfter stack (tokensWithout ts start stop ms) =
      openAfter stack (tokensBetween ts start stop) := by
  induction ms generalizing start stack with
  | nil => rfl
  | cons m ms ih =>
    obtain ⟨hle, -, hlt, -, hrest⟩ := h
    have hstop := hrest.le
    rw [← tokensBetween_append ts hle (by omega : m.start ≤ stop),
      ← tokensBetween_append ts (Nat.le_of_lt hlt) hstop, tokensWithout, openAfter_append,
      openAfter_append]
    congr 1
    funext stack'
    rw [ih hrest (fun k hk => hn k (List.mem_cons_of_mem _ hk)), openAfter_append,
      (hn m List.mem_cons_self).openAfter_eq, Option.bind_some]

theorem openAfter_movedTokens {ts : List Token} {ms : List Move}
    (hn : ∀ m ∈ ms, Nested (tokensBetween ts m.start m.stop)) (n : Nat) (stack : List Char) :
    openAfter stack (movedTokens ts n ms) = some stack := by
  induction ms generalizing n with
  | nil => rfl
  | cons m ms ih =>
    have hplace : Nested (placeholderTokens n) := rfl
    rw [movedTokens, openAfter_append, openAfter_append,
      (hn m List.mem_cons_self).openAfter_eq, Option.bind_some, hplace.openAfter_eq,
      Option.bind_some]
    exact ih (fun k hk => hn k (List.mem_cons_of_mem _ hk)) (n + 1)

/-- **Moving nested declarations keeps a text nested.** -/
theorem openAfter_relocatedTokens {ts : List Token} {ds : List Destination} {start lo : Nat}
    (h : Ordered ts lo ds) (hle : start ≤ lo)
    (hn : ∀ s ∈ ds.flatMap Destination.spans, Nested (s.block ts)) (n : Nat)
    (stack : List Char) :
    openAfter stack (relocatedTokens ts start n ds) = openAfter stack (ts.drop start) := by
  induction ds generalizing start lo n stack with
  | nil => rfl
  | cons d ds ih =>
    obtain ⟨hms, -, hrest⟩ := h
    have hms := hms.weaken hle
    have hd : ∀ m ∈ d.moves, Nested (tokensBetween ts m.start m.stop) := by
      intro m hm
      exact hn ⟨m, d.brace⟩ (List.mem_append_left _ (List.mem_map_of_mem hm))
    have hds : ∀ s ∈ ds.flatMap Destination.spans, Nested (s.block ts) := by
      intro s hs
      exact hn s (List.mem_append_right _ hs)
    rw [relocatedTokens, openAfter_append, openAfter_append, openAfter_tokensWithout hms hd,
      drop_eq_tokensBetween_append ts hms.le, openAfter_append, Option.bind_assoc]
    congr 1
    funext stack'
    rw [openAfter_movedTokens hd, Option.bind_some, ih hrest (Nat.le_succ _) hds]

end MinimumRelease.Recovery
