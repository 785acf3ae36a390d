import MinimumRelease.Recovery.Relocation

/-! # Lexemes under cutting and pasting

The lexemes of a text are its tokens without the blanks. A token is read off
the front of a text by looking at its own characters and at no more than the
one behind it, so a piece of a text keeps its lexemes wherever it is put, as
long as that one character stays what it was or becomes a line feed. Behind a
brace, a semicolon or a closed comment even that does not matter. -/

namespace MinimumRelease.Recovery

open Token

/-- The tokens that are not blank. -/
def solid (ts : List Token) : List Token := ts.filter (·.kind ≠ .blank)

/-- What stands in a text: its tokens, comments included and blanks left out. -/
def lexemes (cs : List Char) : List Token := solid (tokens cs)

/-- The token is what is read off the front of its own text followed by `cs`. -/
def Token.Reads (t : Token) (cs : List Char) : Prop :=
  ∃ c text, t.text = c :: text ∧ extent c (text ++ cs) = (t.kind, text.length)

/-- Every token is read off the front of the text that it and its successors spell. -/
def Lexed : List Token → Prop
  | [] => True
  | t :: ts => t.Reads (join ts) ∧ Lexed ts

@[simp] theorem solid_nil : solid [] = [] := rfl

@[simp] theorem solid_append (as bs : List Token) : solid (as ++ bs) = solid as ++ solid bs :=
  List.filter_append ..

@[simp] theorem join_nil : join [] = [] := rfl

@[simp] theorem join_cons (t : Token) (ts : List Token) : join (t :: ts) = t.text ++ join ts :=
  List.flatMap_cons

@[simp] theorem join_append (as bs : List Token) : join (as ++ bs) = join as ++ join bs :=
  List.flatMap_append

/-! ## How far a token reaches -/

theorem runLength_le (p : Char → Bool) (cs : List Char) : runLength p cs ≤ cs.length :=
  (List.takeWhile_sublist p).length_le

theorem drop_runLength (p : Char → Bool) (cs : List Char) :
    cs.drop (runLength p cs) = cs.dropWhile p := by
  induction cs with
  | nil => rfl
  | cons c cs ih =>
    cases hc : p c with
    | false => simp [runLength, hc]
    | true => simpa [runLength, hc] using ih

theorem runLength_append_iff {p : Char → Bool} {as cs : List Char} {c : Char} :
    runLength p (as ++ c :: cs) = as.length ↔ (∀ a ∈ as, p a = true) ∧ p c = false := by
  induction as with
  | nil => cases h : p c <;> simp [runLength, h]
  | cons a as ih =>
    cases h : p a with
    | false => simp [runLength, h]
    | true => simpa [runLength, h] using ih

theorem of_runLength_append {p : Char → Bool} {as cs : List Char}
    (h : runLength p (as ++ cs) = as.length) : ∀ a ∈ as, p a = true := by
  induction as with
  | nil => simp
  | cons a as ih =>
    cases ha : p a with
    | false => simp [runLength, ha] at h
    | true =>
      rw [List.forall_mem_cons]
      exact ⟨ha, ih (by simpa [runLength, ha] using h)⟩

theorem blockCommentLength_cons (c d : Char) (cs : List Char) :
    blockCommentLength (c :: d :: cs) =
      if c = '*' ∧ d = '/' then 2 else blockCommentLength (d :: cs) + 1 := by
  by_cases h : c = '*' ∧ d = '/'
  · obtain ⟨rfl, rfl⟩ := h
    simp [blockCommentLength]
  · rw [if_neg h, blockCommentLength]
    rintro _ rfl hcs
    cases hcs
    exact h ⟨rfl, rfl⟩

theorem blockCommentLength_pos (c : Char) (cs : List Char) : 0 < blockCommentLength (c :: cs) := by
  cases cs with
  | nil => simp [blockCommentLength]
  | cons d cs => rw [blockCommentLength_cons]; split <;> omega

theorem blockCommentLength_le (cs : List Char) : blockCommentLength cs ≤ cs.length := by
  fun_induction blockCommentLength cs with
  | case1 => simp
  | case2 cs => simp
  | case3 c cs _ ih => simp only [List.length_cons]; omega

/-- A block comment that ends before the end of the text is closed, and so ends there whatever
follows it. -/
theorem blockCommentLength_append {as cs : List Char} {c : Char}
    (h : blockCommentLength (as ++ c :: cs) = as.length) (ds : List Char) :
    blockCommentLength (as ++ ds) = as.length := by
  induction as with
  | nil =>
    have := blockCommentLength_pos c cs
    simp only [List.nil_append, List.length_nil] at h
    omega
  | cons a as ih =>
    cases as with
    | nil =>
      have := blockCommentLength_pos c cs
      simp only [List.cons_append, List.nil_append, blockCommentLength_cons,
        List.length_cons, List.length_nil] at h
      split at h <;> omega
    | cons b as =>
      simp only [List.cons_append, blockCommentLength_cons] at h ih ⊢
      split at h
      · next hc =>
        rw [if_pos hc]
        exact h
      · next hc =>
        rw [if_neg hc, List.length_cons, ih (by simpa using h)]

theorem textBlockLength_cons (c : Char) (cs : List Char) (hc : c ≠ '\\') :
    textBlockLength (c :: cs) =
      if c = '"' ∧ ['"', '"'] <+: cs then 3 else textBlockLength cs + 1 := by
  by_cases h : c = '"' ∧ ['"', '"'] <+: cs
  · obtain ⟨rfl, rest, rfl⟩ := h
    simp [textBlockLength]
  · rw [if_neg h, textBlockLength]
    · rintro rfl
      exact absurd rfl hc
    · rintro _ _ rfl
      exact absurd rfl hc
    · rintro rest rfl rfl
      exact h ⟨rfl, rest, rfl⟩

theorem textBlockLength_escape (c : Char) (cs : List Char) :
    textBlockLength ('\\' :: c :: cs) = textBlockLength cs + 2 := by
  rw [textBlockLength]

theorem textBlockLength_pos (c : Char) (cs : List Char) : 0 < textBlockLength (c :: cs) := by
  by_cases hc : c = '\\'
  · subst hc
    cases cs with
    | nil => simp [textBlockLength]
    | cons d cs => rw [textBlockLength_escape]; omega
  · rw [textBlockLength_cons c cs hc]; split <;> omega

theorem textBlockLength_le (cs : List Char) : textBlockLength cs ≤ cs.length := by
  fun_induction textBlockLength cs with
  | case1 => simp
  | case2 => simp
  | case3 c cs ih => simp only [List.length_cons]; omega
  | case4 => simp
  | case5 c cs _ _ _ ih => simp only [List.length_cons]; omega

/-- A text block that ends before the end of the text is closed, and so ends there whatever
follows it. -/
theorem textBlockLength_append {c : Char} {cs : List Char} : ∀ {as : List Char},
    textBlockLength (as ++ c :: cs) = as.length →
      ∀ ds, textBlockLength (as ++ ds) = as.length
  | [], h, _ => by
    have := textBlockLength_pos c cs
    simp only [List.nil_append, List.length_nil] at h
    omega
  | [a], h, _ => by
    have := textBlockLength_pos c cs
    by_cases ha : a = '\\'
    · subst ha
      simp only [List.cons_append, List.nil_append, textBlockLength_escape, List.length_cons,
        List.length_nil] at h
      omega
    · simp only [List.cons_append, List.nil_append, textBlockLength_cons a _ ha,
        List.length_cons, List.length_nil] at h
      split at h <;> omega
  | a :: b :: as, h, ds => by
    by_cases ha : a = '\\'
    · subst ha
      simp only [List.cons_append, textBlockLength_escape, List.length_cons] at h ⊢
      have hrest : textBlockLength (as ++ c :: cs) = as.length := by omega
      rw [textBlockLength_append hrest ds]
    · simp only [List.cons_append, textBlockLength_cons a _ ha, List.length_cons] at h ⊢
      split at h
      · next hq =>
        obtain ⟨x, rfl⟩ : ∃ x, as = [x] := List.length_eq_one_iff.1 (by omega)
        rw [if_pos (by simpa using hq)]
        rfl
      · next hq =>
        have hrest : textBlockLength (b :: as ++ c :: cs) = (b :: as).length := by
          simpa using h
        have hds := textBlockLength_append hrest ds
        rw [if_neg, ← List.cons_append, hds, List.length_cons]
        rintro ⟨hqa, hpre⟩
        cases as with
        | nil =>
          have hb : b = '"' := by simpa using (List.cons_prefix_cons.1 hpre).1.symm
          have hlen : textBlockLength (b :: c :: cs) = 1 := hrest
          have := textBlockLength_pos c cs
          rw [textBlockLength_cons b _ (by rw [hb]; decide)] at hlen
          split at hlen <;> omega
        | cons x as => exact hq ⟨hqa, by simpa using hpre⟩

theorem quotedLength_le (q : Char) (cs : List Char) : quotedLength q cs ≤ cs.length := by
  fun_induction quotedLength q cs with
  | case1 => simp
  | case2 => simp
  | case3 c cs ih => simp only [List.length_cons]; omega
  | case4 => simp
  | case5 => simp
  | case6 c cs _ _ _ ih => simp only [List.length_cons]; omega

theorem quotedLength_cons (q c : Char) (cs : List Char) (hc : c ≠ '\\') :
    quotedLength q (c :: cs) =
      if c = '\n' then 0 else if c = q then 1 else quotedLength q cs + 1 := by
  rw [quotedLength]
  · rintro rfl
    exact absurd rfl hc
  · rintro _ _ rfl
    exact absurd rfl hc

/-- A quoted literal that ends before the end of the text is closed or stands before a line feed,
and a line feed behind it changes nothing either way. -/
theorem quotedLength_append {q c d : Char} {cs : List Char} (hd : d = c ∨ d = '\n') :
    ∀ {as : List Char}, quotedLength q (as ++ c :: cs) = as.length →
      ∀ ds, quotedLength q (as ++ d :: ds) = as.length
  | [], h, ds => by
    have hc : c = '\n' := by
      by_cases hb : c = '\\'
      · subst hb
        cases cs <;> simp [quotedLength] at h
      · simp only [List.nil_append, quotedLength_cons q c cs hb, List.length_nil] at h
        split at h
        · assumption
        · split at h <;> omega
    have hd : d = '\n' := by rcases hd with rfl | rfl <;> first | exact hc | rfl
    subst hd
    simp [quotedLength_cons]
  | [a], h, ds => by
    by_cases ha : a = '\\'
    · subst ha
      simp [quotedLength] at h
    · simp only [List.cons_append, List.nil_append, quotedLength_cons q a _ ha,
        List.length_cons, List.length_nil] at h ⊢
      split at h
      · omega
      · next hn =>
        rw [if_neg hn]
        split at h
        · next hq => rw [if_pos hq]
        · next hq =>
          rw [if_neg hq]
          have hrest : quotedLength q ([] ++ c :: cs) = ([] : List Char).length := by
            simpa using h
          exact congrArg (· + 1) (quotedLength_append hd hrest ds)
  | a :: b :: as, h, ds => by
    by_cases ha : a = '\\'
    · subst ha
      simp only [List.cons_append, quotedLength, List.length_cons] at h ⊢
      have hrest : quotedLength q (as ++ c :: cs) = as.length := by omega
      rw [quotedLength_append hd hrest ds]
    · simp only [List.cons_append, quotedLength_cons q a _ ha, List.length_cons] at h ⊢
      split at h
      · omega
      · next hn =>
        rw [if_neg hn]
        split at h
        · omega
        · next hq =>
          rw [if_neg hq]
          have hrest : quotedLength q (b :: as ++ c :: cs) = (b :: as).length := by
            simpa using h
          exact congrArg (· + 1) (quotedLength_append hd hrest ds)

/-! ## Reading one token -/

theorem extent_space {c : Char} (h : isSpace c = true) (cs : List Char) :
    extent c cs = (.blank, runLength isSpace cs) := by
  unfold extent
  rw [if_pos h]

/-- No other token begins with a blank character. -/
theorem not_isSpace_of_extent {c : Char} {cs : List Char} {kind : Kind} {n : Nat}
    (h : extent c cs = (kind, n)) (hk : kind ≠ .blank) : isSpace c = false := by
  cases hs : isSpace c with
  | false => rfl
  | true =>
    rw [extent_space hs] at h
    exact absurd (congrArg Prod.fst h).symm hk

theorem extent_line {cs : List Char} :
    extent '/' ('/' :: cs) = (.comment, runLength (· ≠ '\n') ('/' :: cs)) := rfl

theorem extent_block {cs : List Char} :
    extent '/' ('*' :: cs) = (.comment, blockCommentLength cs + 1) := rfl

theorem extent_slash {cs : List Char} (h : ∀ c, cs.head? = some c → c ≠ '/' ∧ c ≠ '*') :
    extent '/' cs = (.mark, 0) := by
  cases cs with
  | nil => rfl
  | cons c cs =>
    obtain ⟨h1, h2⟩ := h c rfl
    unfold extent
    rw [if_neg (by decide)]
    split
    · next heq => exact absurd (List.cons.inj heq).1 h1
    · next heq => exact absurd (List.cons.inj heq).1 h2
    · next hc _ => exact absurd hc (by decide)
    · rfl

theorem extent_textBlock {cs : List Char} :
    extent '"' ('"' :: '"' :: cs) = (.literal, textBlockLength cs + 2) := rfl

theorem extent_quote {cs : List Char} (h : ¬ ['"', '"'] <+: cs) :
    extent '"' cs = (.literal, quotedLength '"' cs) := by
  unfold extent
  rw [if_neg (by decide)]
  split
  · next hc => exact absurd hc (by decide)
  · next hc => exact absurd hc (by decide)
  · exact absurd ⟨_, rfl⟩ h
  · rfl

theorem extent_tick (cs : List Char) :
    extent '\x27' cs = (.literal, quotedLength '\x27' cs) := rfl

theorem extent_plain {c : Char} {cs : List Char} (hs : isSpace c = false) (h1 : c ≠ '/')
    (h2 : c ≠ '"') (h3 : c ≠ '\x27') :
    extent c cs = if isWordChar c then (.word, runLength isWordChar cs) else (.mark, 0) := by
  unfold extent
  rw [if_neg (by simp [hs])]
  split
  · exact absurd rfl h1
  · exact absurd rfl h1
  · exact absurd rfl h2
  · simp [h2, h3]

theorem extent_le (c : Char) (cs : List Char) : (extent c cs).2 ≤ cs.length := by
  unfold extent
  split
  · exact runLength_le ..
  · split
    · exact runLength_le ..
    · rename_i rest _
      have := blockCommentLength_le rest
      simp only [List.length_cons]; omega
    · rename_i rest _
      have := textBlockLength_le rest
      simp only [List.length_cons]; omega
    · split
      · exact quotedLength_le ..
      · split
        · exact runLength_le ..
        · exact Nat.zero_le _

theorem lexed_tokens (cs : List Char) : Lexed (tokens cs) := by
  fun_induction tokens cs with
  | case1 => trivial
  | case2 c cs kind n he ih =>
    have hn : n ≤ cs.length := by simpa [he] using extent_le c cs
    refine ⟨⟨c, cs.take n, rfl, ?_⟩, ih⟩
    rw [join_tokens, List.take_append_drop, he, List.length_take_of_le hn]

theorem tokens_of_reads {t : Token} {cs : List Char} (h : t.Reads cs) :
    tokens (t.text ++ cs) = t :: tokens cs := by
  obtain ⟨c, text, ht, he⟩ := h
  rw [ht, List.cons_append, tokens, he]
  simp [← ht]

theorem extent_slash_next {text cs : List Char} {c d : Char} {kind : Kind}
    (he : extent '/' (text ++ c :: cs) = (kind, text.length)) (hd : d = c ∨ d = '\n')
    (ds : List Char) : extent '/' (text ++ d :: ds) = (kind, text.length) := by
  cases text with
  | nil =>
    -- a lone slash: nothing that makes it a comment stands behind it, before or after
    have hc : c ≠ '/' ∧ c ≠ '*' := by
      constructor
      · rintro rfl
        simp [extent_line, runLength] at he
      · rintro rfl
        simp [extent_block] at he
    rw [List.nil_append, extent_slash (by simpa using hc)] at he
    rw [List.nil_append, extent_slash, he]
    rcases hd with rfl | rfl
    · simpa using hc
    · simp
  | cons x text =>
    by_cases h1 : x = '/'
    · subst h1
      rw [List.cons_append, extent_line, Prod.mk.injEq, ← List.cons_append,
        runLength_append_iff] at he ⊢
      refine ⟨he.1, he.2.1, ?_⟩
      have hc : c = '\n' := by simpa using he.2.2
      rcases hd with rfl | rfl <;> simp [hc]
    · by_cases h2 : x = '*'
      · subst h2
        rw [List.cons_append, extent_block, Prod.mk.injEq] at he ⊢
        refine ⟨he.1, ?_⟩
        rw [blockCommentLength_append (Nat.succ.inj he.2), List.length_cons]
      · rw [List.cons_append, extent_slash (by simpa using ⟨h1, h2⟩)] at he
        simp at he

theorem extent_quote_next {text cs : List Char} {c d : Char} {kind : Kind}
    (he : extent '"' (text ++ c :: cs) = (kind, text.length)) (hd : d = c ∨ d = '\n')
    (ds : List Char) : extent '"' (text ++ d :: ds) = (kind, text.length) := by
  by_cases hq : ['"', '"'] <+: text ++ c :: cs
  · -- a text block, whose three quotes are its own
    match text, hq, he with
    | [], ⟨rest, hr⟩, he =>
      rw [← hr, List.cons_append, List.cons_append, extent_textBlock] at he
      simp at he
    | [_], ⟨rest, hr⟩, he =>
      rw [← hr, List.cons_append, List.cons_append, extent_textBlock] at he
      simp at he
    | x :: y :: text, ⟨rest, hr⟩, he =>
      obtain ⟨rfl, rfl, -⟩ : x = '"' ∧ y = '"' ∧ _ := by simpa [eq_comm] using hr
      rw [List.cons_append, List.cons_append, extent_textBlock, Prod.mk.injEq] at he ⊢
      refine ⟨he.1, ?_⟩
      have hlen : textBlockLength (text ++ c :: cs) = text.length := by simpa using he.2
      rw [textBlockLength_append hlen, List.length_cons, List.length_cons]
  · rw [extent_quote hq, Prod.mk.injEq] at he
    have hlen := quotedLength_append hd he.2 ds
    rw [extent_quote, Prod.mk.injEq]
    · exact ⟨he.1, hlen⟩
    · -- a quote behind the literal would have been one before
      rintro ⟨rest, hr⟩
      match text, hr with
      | [], hr =>
        obtain rfl : '"' = d := (List.cons.inj hr).1
        simp [quotedLength_cons] at hlen
      | [x], hr =>
        obtain ⟨rfl, rfl, -⟩ : '"' = x ∧ '"' = d ∧ _ := by simpa using hr
        obtain rfl : '"' = c := hd.resolve_right (by decide)
        exact hq ⟨cs, rfl⟩
      | x :: y :: text, hr =>
        obtain ⟨rfl, rfl, -⟩ : '"' = x ∧ '"' = y ∧ _ := by simpa using hr
        exact hq ⟨text ++ c :: cs, rfl⟩

/-- What is read as a token is read as the same token before any text that begins with the same
character, or with a line feed. -/
theorem Token.Reads.next {t : Token} {c d : Char} {cs : List Char} (h : t.Reads (c :: cs))
    (hk : t.kind ≠ .blank) (hd : d = c ∨ d = '\n') (ds : List Char) : t.Reads (d :: ds) := by
  obtain ⟨a, text, ht, he⟩ := h
  refine ⟨a, text, ht, ?_⟩
  have hs : isSpace a = false := not_isSpace_of_extent he hk
  by_cases h1 : a = '/'
  · subst h1
    exact extent_slash_next he hd ds
  by_cases h2 : a = '"'
  · subst h2
    exact extent_quote_next he hd ds
  by_cases h3 : a = '\x27'
  · subst h3
    rw [extent_tick, Prod.mk.injEq] at he ⊢
    exact ⟨he.1, quotedLength_append hd he.2 ds⟩
  -- a word ends at the first character that is none of its own, and a mark at once
  rw [extent_plain hs h1 h2 h3] at he ⊢
  split at he
  · next hw =>
    rw [if_pos hw]
    rw [Prod.mk.injEq, runLength_append_iff] at he ⊢
    refine ⟨he.1, he.2.1, ?_⟩
    rcases hd with rfl | rfl
    · exact he.2.2
    · decide
  · next hw => rw [if_neg hw, he]

/-- A semicolon or a brace: a statement or a member begins behind it. -/
def Token.stops (t : Token) : Bool :=
  t.mark? = some ';' || t.mark? = some '{' || t.mark? = some '}'

theorem mark?_eq_some {t : Token} {c : Char} :
    t.mark? = some c ↔ t.kind = .mark ∧ t.text.head? = some c := by
  unfold mark?
  split <;> simp_all

theorem word?_eq_some {t : Token} {w : List Char} :
    t.word? = some w ↔ t.kind = .word ∧ t.text = w := by
  unfold word?
  split <;> simp_all

/-- A brace or a semicolon is read as such before any text. -/
theorem Token.Reads.of_stops {t : Token} {cs : List Char} (h : t.Reads cs)
    (hm : t.stops = true) (ds : List Char) : t.Reads ds := by
  obtain ⟨a, text, ht, he⟩ := h
  have hext : t.kind = .mark ∧ ∀ cs, extent a cs = (.mark, 0) := by
    simp only [Token.stops, Bool.or_eq_true, decide_eq_true_eq, mark?_eq_some, ht,
      List.head?_cons, Option.some.injEq] at hm
    rcases hm with (⟨hk, rfl⟩ | ⟨hk, rfl⟩) | ⟨hk, rfl⟩ <;> exact ⟨hk, fun _ => rfl⟩
  refine ⟨a, text, ht, ?_⟩
  rw [hext.2, hext.1, Prod.mk.injEq] at he
  rw [hext.2, hext.1, ← he.2]

theorem eq_slash_of_extent {c : Char} {cs : List Char} (h : (extent c cs).1 = .comment) :
    c = '/' := by
  unfold extent at h
  split at h
  · cases h
  · split at h
    · rfl
    · rfl
    · cases h
    · split at h
      · cases h
      · split at h <;> cases h

/-- A comment runs to a line feed, or it is closed. -/
theorem extent_comment {text cs : List Char} {c : Char}
    (he : extent '/' (text ++ c :: cs) = (.comment, text.length)) :
    c = '\n' ∨ ∀ ds, extent '/' (text ++ ds) = (.comment, text.length) := by
  cases text with
  | nil =>
    by_cases h1 : c = '/'
    · subst h1
      simp [extent_line, runLength] at he
    · by_cases h2 : c = '*'
      · subst h2
        simp [extent_block] at he
      · rw [List.nil_append, extent_slash (by simpa using ⟨h1, h2⟩)] at he
        simp at he
  | cons x text =>
    by_cases h1 : x = '/'
    · subst h1
      rw [List.cons_append, extent_line, Prod.mk.injEq, ← List.cons_append,
        runLength_append_iff] at he
      exact .inl (by simpa using he.2.2)
    · by_cases h2 : x = '*'
      · subst h2
        rw [List.cons_append, extent_block, Prod.mk.injEq] at he
        refine .inr fun ds => ?_
        rw [List.cons_append, extent_block, blockCommentLength_append (Nat.succ.inj he.2),
          List.length_cons]
      · rw [List.cons_append, extent_slash (by simpa using ⟨h1, h2⟩)] at he
        simp at he

/-- A comment that does not stand before a line feed is read as such before any text. -/
theorem Token.Reads.of_comment {t : Token} {c : Char} {cs : List Char} (h : t.Reads (c :: cs))
    (hk : t.kind = .comment) (hc : c ≠ '\n') (ds : List Char) : t.Reads ds := by
  obtain ⟨a, text, ht, he⟩ := h
  rw [hk] at he
  obtain rfl : a = '/' := eq_slash_of_extent (by rw [he])
  refine ⟨'/', text, ht, ?_⟩
  rw [hk]
  exact (extent_comment he).resolve_left hc ds

theorem isSpace_of_extent {c : Char} {cs : List Char} (h : (extent c cs).1 = .blank) :
    isSpace c = true := by
  unfold extent at h
  split at h
  · assumption
  · split at h
    · cases h
    · cases h
    · cases h
    · split at h
      · cases h
      · split at h <;> cases h

theorem Token.Reads.isSpace_of_blank {t : Token} {cs : List Char} (h : t.Reads cs)
    (hk : t.kind = .blank) : ∀ c ∈ t.text, isSpace c = true := by
  obtain ⟨a, text, ht, he⟩ := h
  rw [hk] at he
  have ha : isSpace a = true := isSpace_of_extent (by rw [he])
  rw [extent_space ha, Prod.mk.injEq] at he
  rw [ht, List.forall_mem_cons]
  exact ⟨ha, of_runLength_append he.2⟩

/-! ## Lexemes of pieces -/

theorem lexemes_dropWhile (cs : List Char) : lexemes (cs.dropWhile isSpace) = lexemes cs := by
  cases cs with
  | nil => rfl
  | cons c cs =>
    by_cases hc : isSpace c = true
    · rw [List.dropWhile_cons_of_pos hc, lexemes, lexemes, tokens, extent_space hc]
      simp [solid, drop_runLength]
    · rw [List.dropWhile_cons_of_neg hc]

/-- Blanks before a text add no lexeme. -/
theorem lexemes_blank_append {bs : List Char} (h : ∀ c ∈ bs, isSpace c = true) (cs : List Char) :
    lexemes (bs ++ cs) = lexemes cs := by
  rw [← lexemes_dropWhile (bs ++ cs), List.dropWhile_append_of_pos h, lexemes_dropWhile]

theorem lexemes_space_cons {c : Char} (h : isSpace c = true) (cs : List Char) :
    lexemes (c :: cs) = lexemes cs := by
  rw [← List.singleton_append, lexemes_blank_append (by simpa using h)]

theorem lexemes_of_reads {t : Token} {cs : List Char} (h : t.Reads cs) :
    lexemes (t.text ++ cs) = solid [t] ++ lexemes cs := by
  rw [lexemes, tokens_of_reads h, ← List.singleton_append, solid_append, lexemes]

theorem Lexed.tail {as bs : List Token} (h : Lexed (as ++ bs)) : Lexed bs := by
  induction as with
  | nil => exact h
  | cons a as ih => exact ih h.2

theorem Lexed.reads_getLast {as bs : List Token} {t : Token} (h : Lexed (as ++ bs))
    (ht : as.getLast? = some t) : t.Reads (join bs) := by
  obtain ⟨as, rfl⟩ := List.getLast?_eq_some_iff.1 ht
  rw [List.append_assoc] at h
  exact h.tail.1

/-- **A stretch of a text keeps its lexemes** before any text that its last token is still read
before. -/
theorem Lexed.lexemes_join_append {as bs : List Token} {cs : List Char} (h : Lexed (as ++ bs))
    (hlast : ∀ t, as.getLast? = some t → t.kind ≠ .blank → t.Reads cs) :
    lexemes (join as ++ cs) = solid as ++ lexemes cs := by
  induction as with
  | nil => simp
  | cons a as ih =>
    have ih := ih h.2 (fun t ht hk => hlast t (by simp [List.getLast?_cons, ht]) hk)
    rw [join_cons, List.append_assoc]
    by_cases hk : a.kind = .blank
    · rw [lexemes_blank_append (h.1.isSpace_of_blank hk), ih]
      simp [solid, hk]
    · have hreads : a.Reads (join as ++ cs) := by
        cases as with
        | nil => exact hlast a rfl hk
        | cons b as =>
          -- the next token is still there, and with it the character behind this one
          obtain ⟨c, text, hb, -⟩ := h.2.1
          have ha : a.Reads (join ((b :: as) ++ bs)) := h.1
          rw [List.cons_append, join_cons, hb] at ha
          rw [join_cons, hb]
          exact ha.next hk (.inl rfl) _
      rw [lexemes_of_reads hreads, ih, ← List.append_assoc, ← solid_append,
        List.singleton_append]

/-- A stretch keeps its lexemes where the token behind it is still behind it. -/
theorem Lexed.lexemes_before_token {as bs : List Token} {x : Token} (h : Lexed (as ++ x :: bs))
    (cs : List Char) :
    lexemes (join as ++ (x.text ++ cs)) = solid as ++ lexemes (x.text ++ cs) := by
  apply h.lexemes_join_append
  intro t ht hk
  obtain ⟨c, text, hx, -⟩ := h.tail.1
  have hr := h.reads_getLast ht
  rw [join_cons, hx] at hr
  rw [hx]
  exact hr.next hk (.inl rfl) _

/-- A stretch keeps its lexemes where a line feed is put behind it. -/
theorem Lexed.lexemes_before_lineFeed {as bs : List Token} {x : Token} (h : Lexed (as ++ x :: bs))
    (cs : List Char) : lexemes (join as ++ '\n' :: cs) = solid as ++ lexemes cs := by
  rw [h.lexemes_join_append, lexemes_space_cons (by decide)]
  intro t ht hk
  obtain ⟨c, text, hx, -⟩ := h.tail.1
  have hr := h.reads_getLast ht
  rw [join_cons, hx] at hr
  exact hr.next hk (.inr rfl) _

/-- The token separates what stands before it from what stands behind it: it is a blank, a comment,
a brace or a semicolon. -/
def Token.separates (t : Token) : Bool := t.isTrivia || t.stops

/-- A stretch that ends with a separator keeps its lexemes whatever is put in place of the code
behind it. -/
theorem Lexed.lexemes_before_cut {as bs : List Token} {x : Token} (h : Lexed (as ++ x :: bs))
    (hx : x.isTrivia = false) (hsep : ∀ t, as.getLast? = some t → t.separates = true)
    (cs : List Char) : lexemes (join as ++ cs) = solid as ++ lexemes cs := by
  apply h.lexemes_join_append
  intro t ht hk
  have hr := h.reads_getLast ht
  have hs := hsep t ht
  simp only [Token.separates, isTrivia, Bool.or_eq_true, decide_eq_true_eq, hk, false_or] at hs
  rcases hs with hc | hm
  · -- code does not begin with a line feed, so the comment is closed
    obtain ⟨c, text, hxt, hxe⟩ := h.tail.1
    rw [join_cons, hxt] at hr
    refine hr.of_comment hc ?_ cs
    rintro rfl
    rw [extent_space (by decide)] at hxe
    have hkx : x.kind = .blank := (congrArg Prod.fst hxe).symm
    simp [isTrivia, hkx] at hx
  · exact hr.of_stops hm cs

end MinimumRelease.Recovery
