import MinimumRelease.Proofs.Recovery.Lexeme

/-! # How tokens begin and end

The kind of a token says with which character it can begin (`Token.Extent`). If
a text goes on behind a token, and not with a line feed, then a literal there
ends with its quote and a comment with a slash. So the last character of a token
tells what kind of token it can be (`Token.Reads.endsIn`). -/

namespace MinimumRelease.Recovery

open Token

/-! ## Tokens by their kinds -/

/-- What the kind of a token says about its first character and its length. -/
inductive Token.Extent (c : Char) (cs : List Char) : Kind × Nat → Prop
  | blank {n} : isSpace c = true → Extent c cs (.blank, n)
  | comment {n} : Extent c cs (.comment, n)
  | literal {n} : c = '"' ∨ c = '\x27' → Extent c cs (.literal, n)
  | word : isWordChar c = true → Extent c cs (.word, runLength isWordChar cs)
  | mark : isSpace c = false → isWordChar c = false → c ≠ '"' → c ≠ '\x27' →
      Extent c cs (.mark, 0)

theorem extent_cases (c : Char) (cs : List Char) : Token.Extent c cs (extent c cs) := by
  unfold extent
  split
  · next hs => exact .blank hs
  · next hs =>
    split
    · exact .comment
    · exact .comment
    · exact .literal (.inl rfl)
    · split
      · next hq => exact .literal (by simpa using hq)
      · next hq =>
        simp only [Bool.or_eq_true, decide_eq_true_eq, not_or] at hq
        split
        · next hw => exact .word hw
        · next hw => exact .mark (by simpa using hs) (by simpa using hw) hq.1 hq.2

theorem extent_eq_word {c : Char} {cs : List Char} {n : Nat} (h : extent c cs = (.word, n)) :
    isWordChar c = true ∧ runLength isWordChar cs = n := by
  have hcases := extent_cases c cs
  rw [h] at hcases
  cases hcases with
  | word hw => exact ⟨hw, rfl⟩

theorem extent_eq_mark {c : Char} {cs : List Char} {n : Nat} (h : extent c cs = (.mark, n)) :
    isSpace c = false ∧ isWordChar c = false ∧ c ≠ '"' ∧ c ≠ '\x27' ∧ n = 0 := by
  have hcases := extent_cases c cs
  rw [h] at hcases
  cases hcases with
  | mark hs hw h2 h3 => exact ⟨hs, hw, h2, h3, rfl⟩

theorem extent_eq_literal {c : Char} {cs : List Char} {n : Nat}
    (h : extent c cs = (.literal, n)) : c = '"' ∨ c = '\x27' := by
  have hcases := extent_cases c cs
  rw [h] at hcases
  cases hcases with
  | literal hq => exact hq

/-! ## Ends of literals and comments -/

theorem getLast?_of_blockCommentLength {as cs : List Char} {c : Char}
    (h : blockCommentLength (as ++ c :: cs) = as.length) : as.getLast? = some '/' := by
  have hpos := blockCommentLength_pos c cs
  induction as with
  | nil =>
    rw [List.nil_append] at h
    exact absurd h (Nat.ne_of_gt hpos)
  | cons a as ih =>
    cases as with
    | nil =>
      simp only [List.cons_append, List.nil_append, blockCommentLength_cons, List.length_cons,
        List.length_nil] at h
      split at h <;> omega
    | cons b as =>
      simp only [List.cons_append, blockCommentLength_cons, List.length_cons] at h ih
      rw [List.getLast?_cons_cons]
      split at h
      · next hc =>
        obtain rfl : as = [] := List.length_eq_zero_iff.1 (by omega)
        rw [hc.2]
        rfl
      · exact ih (by omega)

theorem getLast?_of_textBlockLength {c : Char} {cs : List Char} : ∀ {as : List Char},
    textBlockLength (as ++ c :: cs) = as.length → as.getLast? = some '"'
  | [], h => by
    have := textBlockLength_pos c cs
    simp only [List.nil_append, List.length_nil] at h
    omega
  | [a], h => by
    have := textBlockLength_pos c cs
    by_cases ha : a = '\\'
    · subst ha
      simp only [List.cons_append, List.nil_append, textBlockLength_escape, List.length_cons,
        List.length_nil] at h
      omega
    · simp only [List.cons_append, List.nil_append, textBlockLength_cons a _ ha,
        List.length_cons, List.length_nil] at h
      split at h <;> omega
  | a :: b :: as, h => by
    rw [List.getLast?_cons_cons]
    by_cases ha : a = '\\'
    · subst ha
      simp only [List.cons_append, textBlockLength_escape, List.length_cons] at h
      have hrest : textBlockLength (as ++ c :: cs) = as.length := by omega
      rw [List.getLast?_cons, getLast?_of_textBlockLength hrest]
      rfl
    · simp only [List.cons_append, textBlockLength_cons a _ ha, List.length_cons] at h
      split at h
      · next hq =>
        obtain ⟨x, rfl⟩ : ∃ x, as = [x] := List.length_eq_one_iff.1 (by omega)
        obtain ⟨-, hx⟩ : '"' = b ∧ '"' = x := by simpa using hq.2
        rw [← hx]
        rfl
      · exact getLast?_of_textBlockLength (by simpa using h)

/-- A quoted literal is closed, or it stands before a line feed. -/
theorem getLast?_of_quotedLength {q c : Char} {cs : List Char} (hc : c ≠ '\n') :
    ∀ {as : List Char}, quotedLength q (as ++ c :: cs) = as.length → as.getLast? = some q
  | [], h => by
    by_cases hb : c = '\\'
    · subst hb
      cases cs <;> simp [quotedLength] at h
    · simp only [List.nil_append, quotedLength_cons q c cs hb, List.length_nil, if_neg hc] at h
      split at h <;> omega
  | [a], h => by
    by_cases ha : a = '\\'
    · subst ha
      simp [quotedLength] at h
    · simp only [List.cons_append, List.nil_append, quotedLength_cons q a _ ha, List.length_cons,
        List.length_nil] at h
      split at h
      · omega
      · split at h
        · next hq => rw [hq]; rfl
        · have hrest : quotedLength q ([] ++ c :: cs) = ([] : List Char).length := by
            simpa using h
          cases getLast?_of_quotedLength hc hrest
  | a :: b :: as, h => by
    rw [List.getLast?_cons_cons]
    by_cases ha : a = '\\'
    · subst ha
      simp only [List.cons_append, quotedLength, List.length_cons] at h
      have hrest : quotedLength q (as ++ c :: cs) = as.length := by omega
      rw [List.getLast?_cons, getLast?_of_quotedLength hc hrest]
      rfl
    · simp only [List.cons_append, quotedLength_cons q a _ ha, List.length_cons] at h
      split at h
      · omega
      · split at h
        · omega
        · exact getLast?_of_quotedLength hc (by simpa using h)

/-- A mark is one character. -/
theorem Token.Reads.text_of_mark {t : Token} {cs : List Char} (h : t.Reads cs)
    {c : Char} (hm : t.mark? = some c) : t.text = [c] := by
  obtain ⟨hk, hhead⟩ := mark?_eq_some.1 hm
  obtain ⟨a, text, ht, he⟩ := h
  rw [hk] at he
  obtain ⟨-, -, -, -, hlen⟩ := extent_eq_mark he
  rw [ht, List.length_eq_zero_iff.1 hlen] at hhead ⊢
  rw [Option.some.inj hhead]

/-- `x` can be the last character of the token. -/
def Token.EndsIn (t : Token) (x : Char) : Prop :=
  match t.kind with
  | .blank => isSpace x = true
  | .word => isWordChar x = true
  | .mark => t.text = [x]
  | .literal => x = '"' ∨ x = '\x27'
  | .comment => x = '/'

/-- A character before a text does not change how the text ends. -/
theorem eq_of_getLast?_cons {a x y : Char} {text : List Char}
    (hx : (a :: text).getLast? = some x) (hy : text.getLast? = some y) : x = y := by
  rw [List.getLast?_cons, hy] at hx
  exact (Option.some.inj hx).symm

theorem endsIn_slash {text cs : List Char} {c x : Char} {kind : Kind} (hc : c ≠ '\n')
    (he : extent '/' (text ++ c :: cs) = (kind, text.length))
    (hx : ('/' :: text).getLast? = some x) : (⟨kind, '/' :: text⟩ : Token).EndsIn x := by
  cases text with
  | nil =>
    have hslash : c ≠ '/' ∧ c ≠ '*' := by
      constructor
      · intro h
        simp [h, extent_line, runLength] at he
      · intro h
        simp [h, extent_block] at he
    rw [List.nil_append, extent_slash (by simpa using hslash)] at he
    cases he
    rw [← Option.some.inj hx]
    rfl
  | cons a text =>
    by_cases h1 : a = '/'
    · -- a line comment runs to the line feed
      rw [h1, List.cons_append, extent_line, Prod.mk.injEq, ← List.cons_append,
        runLength_append_iff] at he
      exact absurd (by simpa using he.2.2) hc
    · by_cases h2 : a = '*'
      · rw [h2, List.cons_append, extent_block, Prod.mk.injEq, List.length_cons] at he
        rw [← he.1]
        rw [List.getLast?_cons_cons] at hx
        exact eq_of_getLast?_cons hx (getLast?_of_blockCommentLength (Nat.succ.inj he.2))
      · rw [List.cons_append, extent_slash (by simpa using ⟨h1, h2⟩)] at he
        cases he

theorem endsIn_quote {text cs : List Char} {c x : Char} {kind : Kind} (hc : c ≠ '\n')
    (he : extent '"' (text ++ c :: cs) = (kind, text.length))
    (hx : ('"' :: text).getLast? = some x) : (⟨kind, '"' :: text⟩ : Token).EndsIn x := by
  by_cases hq : ['"', '"'] <+: text ++ c :: cs
  · -- a text block, whose three quotes are its own
    match text, hq, he, hx with
    | [], ⟨rest, hr⟩, he, _ =>
      rw [← hr, List.cons_append, List.cons_append, extent_textBlock] at he
      simp at he
    | [_], ⟨rest, hr⟩, he, _ =>
      rw [← hr, List.cons_append, List.cons_append, extent_textBlock] at he
      simp at he
    | a :: b :: text, ⟨rest, hr⟩, he, hx =>
      obtain ⟨ha, hb, -⟩ : '"' = a ∧ '"' = b ∧ _ := by simpa using hr
      rw [← ha, ← hb, List.cons_append, List.cons_append, extent_textBlock, Prod.mk.injEq] at he
      rw [← he.1]
      have hlen : textBlockLength (text ++ c :: cs) = text.length := by simpa using he.2
      rw [List.getLast?_cons_cons, List.getLast?_cons_cons] at hx
      exact .inl (eq_of_getLast?_cons hx (getLast?_of_textBlockLength hlen))
  · rw [extent_quote hq, Prod.mk.injEq] at he
    rw [← he.1]
    exact .inl (eq_of_getLast?_cons hx (getLast?_of_quotedLength hc he.2))

/-- **How a token ends** that does not stand at the end of a line. -/
theorem Token.Reads.endsIn {t : Token} {c x : Char} {cs : List Char} (h : t.Reads (c :: cs))
    (hc : c ≠ '\n') (hx : t.text.getLast? = some x) : t.EndsIn x := by
  obtain ⟨kind, all⟩ := t
  obtain ⟨a, text, ht, he⟩ := h
  obtain rfl : all = a :: text := ht
  replace he : extent a (text ++ c :: cs) = (kind, text.length) := he
  replace hx : (a :: text).getLast? = some x := hx
  have hmem : x ∈ a :: text := List.mem_of_getLast? hx
  by_cases hs : isSpace a = true
  · rw [extent_space hs, Prod.mk.injEq] at he
    rw [← he.1]
    have hall : ∀ d ∈ a :: text, isSpace d = true :=
      List.forall_mem_cons.2 ⟨hs, of_runLength_append he.2⟩
    exact hall x hmem
  by_cases h1 : a = '/'
  · subst h1
    exact endsIn_slash hc he hx
  by_cases h2 : a = '"'
  · subst h2
    exact endsIn_quote hc he hx
  by_cases h3 : a = '\x27'
  · subst h3
    rw [extent_tick, Prod.mk.injEq] at he
    rw [← he.1]
    exact .inr (eq_of_getLast?_cons hx (getLast?_of_quotedLength hc he.2))
  rw [extent_plain (by simpa using hs) h1 h2 h3] at he
  split at he
  · next hw =>
    rw [Prod.mk.injEq] at he
    rw [← he.1]
    have hall : ∀ d ∈ a :: text, isWordChar d = true :=
      List.forall_mem_cons.2 ⟨hw, of_runLength_append he.2⟩
    exact hall x hmem
  · rw [Prod.mk.injEq] at he
    obtain rfl : text = [] := List.length_eq_zero_iff.1 he.2.symm
    rw [← he.1, ← Option.some.inj hx]
    rfl

end MinimumRelease.Recovery
