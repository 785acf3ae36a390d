import MinimumRelease.Proofs.Recovery.Outline
import MinimumRelease.Proofs.Recovery.Places
import MinimumRelease.Proofs.Recovery.Rearrangement
import MinimumRelease.Proofs.Recovery.TokenEnds

/-! # The tokens of a text with keywords replaced

A keyword in code lies within a word: letters go on a word, and of the other tokens
only literals and comments hold any (`KeywordAt.in_word`). With `return` in place of
`yield` the word stays a word, and the token before it ends where it did, as a letter
stands behind it before and after. So the replacement changes no token but words,
and of these none that the scanner tells apart (`outline_of_replaced`). -/

namespace MinimumRelease.Recovery

open Token
open Text (byteLength)

/-! ## Words before another text -/

/-- A run reaches to the end, or to a character that is none of it. -/
theorem runLength_append_of_head {p : Char → Bool} {as cs : List Char}
    (has : ∀ a ∈ as, p a = true) (hcs : ∀ c, cs.head? = some c → p c = false) :
    runLength p (as ++ cs) = as.length := by
  cases cs with
  | nil => rw [runLength, List.append_nil, List.takeWhile_eq_self_iff.2 has]
  | cons c cs => exact runLength_append_iff.2 ⟨has, hcs c rfl⟩

theorem head?_of_runLength {p : Char → Bool} {as cs : List Char}
    (h : runLength p (as ++ cs) = as.length) : ∀ c, cs.head? = some c → p c = false := by
  intro c hc
  cases cs with
  | nil => cases hc
  | cons d cs =>
    cases hc
    exact (runLength_append_iff.1 h).2

theorem Token.Reads.word {t : Token} {cs : List Char} (h : t.Reads cs) (hk : t.kind = .word) :
    (∀ c ∈ t.text, isWordChar c = true) ∧ ∀ c, cs.head? = some c → isWordChar c = false := by
  obtain ⟨a, text, ht, he⟩ := h
  rw [hk] at he
  obtain ⟨ha, hrun⟩ := extent_eq_word he
  rw [ht]
  exact ⟨List.forall_mem_cons.2 ⟨ha, of_runLength_append hrun⟩, head?_of_runLength hrun⟩

theorem reads_of_wordChars {w cs : List Char} (hne : w ≠ [])
    (hw : ∀ c ∈ w, isWordChar c = true) (hcs : ∀ c, cs.head? = some c → isWordChar c = false) :
    (⟨.word, w⟩ : Token).Reads cs := by
  cases w with
  | nil => exact absurd rfl hne
  | cons a w =>
    obtain ⟨ha, hw⟩ := List.forall_mem_cons.1 hw
    obtain ⟨hs, h1, h2, h3⟩ := isWordChar_ne ha
    refine ⟨a, w, rfl, ?_⟩
    rw [extent_plain hs h1 h2 h3, if_pos ha, runLength_append_of_head hw hcs]

/-! ## The character behind a token -/

/-- A quoted literal that does not stand before a line feed is closed, and so ends there whatever
follows it. -/
theorem quotedLength_closed {q c : Char} {cs : List Char} (hc : c ≠ '\n') :
    ∀ {as : List Char}, quotedLength q (as ++ c :: cs) = as.length →
      ∀ ds, quotedLength q (as ++ ds) = as.length
  | [], h, ds => by
    have hpos : quotedLength q (c :: cs) ≠ 0 := by
      by_cases hb : c = '\\'
      · subst hb
        cases cs <;> simp [quotedLength]
      · rw [quotedLength_cons q c cs hb, if_neg hc]
        split <;> omega
    exact absurd h hpos
  | [a], h, ds => by
    by_cases ha : a = '\\'
    · subst ha
      simp [quotedLength] at h
    · simp only [List.cons_append, List.nil_append, quotedLength_cons q a _ ha,
        List.length_cons, List.length_nil] at h ⊢
      split at h
      · omega
      · next hn =>
        rw [if_neg hn]
        split at h
        · next hq => rw [if_pos hq]
        · next hq =>
          rw [if_neg hq]
          have hrest : quotedLength q ([] ++ c :: cs) = ([] : List Char).length := by
            simpa using h
          exact congrArg (· + 1) (quotedLength_closed hc hrest ds)
  | a :: b :: as, h, ds => by
    by_cases ha : a = '\\'
    · subst ha
      simp only [List.cons_append, quotedLength, List.length_cons] at h ⊢
      have hrest : quotedLength q (as ++ c :: cs) = as.length := by omega
      rw [quotedLength_closed hc hrest ds]
    · simp only [List.cons_append, quotedLength_cons q a _ ha, List.length_cons] at h ⊢
      split at h
      · omega
      · next hn =>
        rw [if_neg hn]
        split at h
        · omega
        · next hq =>
          rw [if_neg hq]
          have hrest : quotedLength q (b :: as ++ c :: cs) = (b :: as).length := by
            simpa using h
          exact congrArg (· + 1) (quotedLength_closed hc hrest ds)

theorem extent_quote_word {text cs ds : List Char} {c d : Char} {kind : Kind}
    (he : extent '"' (text ++ c :: cs) = (kind, text.length)) (hc : c ≠ '\n') (hd : d ≠ '"') :
    extent '"' (text ++ d :: ds) = (kind, text.length) := by
  by_cases hq : ['"', '"'] <+: text ++ c :: cs
  · -- the text block is closed, and its opening quotes are its own
    match text, hq, he with
    | [], ⟨rest, hr⟩, he =>
      rw [← hr, List.cons_append, List.cons_append, extent_textBlock] at he
      simp at he
    | [_], ⟨rest, hr⟩, he =>
      rw [← hr, List.cons_append, List.cons_append, extent_textBlock] at he
      simp at he
    | x :: y :: text, ⟨rest, hr⟩, he =>
      obtain ⟨rfl, rfl, -⟩ : x = '"' ∧ y = '"' ∧ _ := by simpa [eq_comm] using hr
      rw [List.cons_append, List.cons_append, extent_textBlock, Prod.mk.injEq] at he ⊢
      refine ⟨he.1, ?_⟩
      have hlen : textBlockLength (text ++ c :: cs) = text.length := by simpa using he.2
      rw [textBlockLength_append hlen, List.length_cons, List.length_cons]
  · rw [extent_quote hq, Prod.mk.injEq] at he
    rw [extent_quote, Prod.mk.injEq]
    · exact ⟨he.1, quotedLength_closed hc he.2 _⟩
    · rintro ⟨rest, hr⟩
      match text, hr with
      | [], hr => exact hd (List.cons.inj hr).1.symm
      | [x], hr => exact hd (List.cons.inj (List.cons.inj hr).2).1.symm
      | x :: y :: text, hr =>
        obtain ⟨rfl, rfl, -⟩ : '"' = x ∧ '"' = y ∧ _ := by simpa using hr
        exact hq ⟨text ++ c :: cs, rfl⟩

/-- A token before a letter is read as such before any other letter. -/
theorem Token.Reads.of_wordChar {t : Token} {c d : Char} {cs : List Char} (h : t.Reads (c :: cs))
    (hc : isWordChar c = true) (hd : isWordChar d = true) (ds : List Char) : t.Reads (d :: ds) := by
  have hfeed : c ≠ '\n' := by
    rintro rfl
    cases hc
  obtain ⟨hspace, hslash, hquote, -⟩ := isWordChar_ne hd
  cases hk : t.kind with
  | comment => exact h.of_comment hk hfeed _
  | word =>
    rw [(h.word hk).2 c rfl] at hc
    cases hc
  | blank =>
    obtain ⟨a, text, ht, he⟩ := h
    rw [hk] at he
    have ha : isSpace a = true := isSpace_of_extent (by rw [he])
    rw [extent_space ha, Prod.mk.injEq, runLength_append_iff] at he
    exact ⟨a, text, ht, by rw [hk, extent_space ha, runLength_append_iff.2 ⟨he.2.1, hspace⟩]⟩
  | mark =>
    obtain ⟨a, text, ht, he⟩ := h
    rw [hk] at he
    obtain ⟨hs, hw, h2, h3, hlen⟩ := extent_eq_mark he
    refine ⟨a, text, ht, ?_⟩
    rw [hk, List.eq_nil_of_length_eq_zero hlen]
    by_cases h1 : a = '/'
    · subst h1
      have hstar : d ≠ '*' := by
        rintro rfl
        cases hd
      exact extent_slash (by simpa using ⟨hslash, hstar⟩)
    · rw [List.nil_append, extent_plain hs h1 h2 h3, if_neg (by simp [hw])]
      rfl
  | literal =>
    obtain ⟨a, text, ht, he⟩ := h
    refine ⟨a, text, ht, ?_⟩
    rw [hk] at he ⊢
    rcases extent_eq_literal he with rfl | rfl
    · exact extent_quote_word he hfeed hquote
    · rw [extent_tick, Prod.mk.injEq] at he ⊢
      exact ⟨he.1, quotedLength_closed hfeed he.2 _⟩

/-- A token is read as such before any text that begins with the same character. -/
theorem Token.Reads.of_head {t : Token} {cs ds : List Char} (h : t.Reads cs)
    (hhead : cs.head? = ds.head?) : t.Reads ds := by
  cases cs with
  | nil =>
    cases ds with
    | nil => exact h
    | cons d ds => cases hhead
  | cons c cs =>
    cases ds with
    | nil => cases hhead
    | cons d ds =>
      obtain rfl : c = d := Option.some.inj hhead
      by_cases hk : t.kind = .blank
      · obtain ⟨a, text, ht, he⟩ := h
        rw [hk] at he
        have ha : isSpace a = true := isSpace_of_extent (by rw [he])
        rw [extent_space ha, Prod.mk.injEq, runLength_append_iff] at he
        exact ⟨a, text, ht, by rw [hk, extent_space ha, runLength_append_iff.2 he.2]⟩
      · exact h.next hk (.inl rfl) ds

/-! ## Keywords in words -/

namespace KeywordAt

variable {offset p : Nat} {t : Token} {cs : List Char}

/-- A keyword that begins in a token which is neither literal nor comment is part of a word. -/
theorem in_word (h : KeywordAt offset 0 p (t.text ++ cs)) (ht : t.Reads cs)
    (hcode : t.isCovered = false) (hlt : p < offset + byteLength t.text) :
    t.kind = .word ∧ p + 5 ≤ offset + byteLength t.text := by
  obtain ⟨as, bs, hcs, rfl, -⟩ := h
  rw [List.append_assoc] at hcs
  obtain ⟨more, htext, hmore⟩ : ∃ more, t.text = as ++ 'y' :: more ∧
      "ield".toList ++ bs = more ++ cs := by
    rcases List.append_eq_append_iff.1 hcs with ⟨zs, has, -⟩ | ⟨zs, htext, hzs⟩
    · rw [has, Text.byteLength_append] at hlt
      omega
    · cases zs with
      | nil =>
        rw [htext, List.append_nil] at hlt
        omega
      | cons z zs =>
        obtain ⟨rfl, hrest⟩ := List.cons.inj hzs
        exact ⟨zs, htext, hrest⟩
  have hy : 'y' ∈ t.text := by simp [htext]
  cases hk : t.kind with
  | blank => exact absurd (ht.isSpace_of_blank hk _ hy) (by decide)
  | mark =>
    obtain ⟨a, text, htext', he⟩ := ht
    rw [hk] at he
    obtain ⟨-, hw, -, -, hlen⟩ := extent_eq_mark he
    rw [htext', List.eq_nil_of_length_eq_zero hlen, List.mem_singleton] at hy
    rw [← hy] at hw
    cases hw
  | literal => simp [isCovered, hk] at hcode
  | comment => simp [isCovered, hk] at hcode
  | word =>
    -- the other letters go on the word
    obtain ⟨us, rfl⟩ : "ield".toList <+: more := by
      rcases List.append_eq_append_iff.1 hmore with ⟨us, hus, -⟩ | ⟨us, hus, hcs'⟩
      · exact ⟨us, hus.symm⟩
      · cases us with
        | nil => exact ⟨[], by simpa using hus⟩
        | cons u us =>
          have hu : u ∈ "ield".toList := by simp [hus]
          have hword : "ield".toList.all isWordChar = true := rfl
          have hnot := (ht.word hk).2 u (by rw [hcs']; rfl)
          rw [List.all_eq_true.1 hword u hu] at hnot
          cases hnot
    refine ⟨rfl, ?_⟩
    have hfive : byteLength ('y' :: "ield".toList) = 5 := rfl
    rw [htext, ← List.cons_append, Text.byteLength_append, Text.byteLength_append, hfive]
    omega

theorem drop {as : List Char} (h : KeywordAt offset 0 p (as ++ cs))
    (hle : offset + byteLength as ≤ p) : KeywordAt (offset + byteLength as) 0 p cs := by
  obtain ⟨xs, bs, hcs, rfl, -⟩ := h
  rw [List.append_assoc] at hcs
  rcases List.append_eq_append_iff.1 hcs with ⟨zs, rfl, hzs⟩ | ⟨zs, rfl, hzs⟩
  · refine ⟨zs, bs, by rw [hzs, List.append_assoc], ?_, Nat.zero_le _⟩
    rw [Text.byteLength_append, Nat.add_assoc]
  · -- bytes are left over on neither side
    cases zs with
    | nil => exact ⟨[], bs, by simpa using hzs.symm, by simp, Nat.zero_le _⟩
    | cons z zs =>
      have := z.utf8Size_pos
      simp only [Text.byteLength_append, Text.byteLength_cons] at hle
      omega

end KeywordAt

/-! ## Stretches of the changed text -/

namespace Replaced

variable {places : List Nat} {offset : Nat} {cs ds : List Char}

theorem eq_nil (h : Replaced places offset [] ds) : ds = [] := by
  generalize hcs : ([] : List Char) = cs at h
  cases h with
  | nil => rfl
  | char => cases hcs
  | keyword => simp [yieldKeyword] at hcs

/-- A stretch that ends inside no keyword is changed for itself. -/
theorem split {as : List Char} (h : Replaced places offset (as ++ cs) ds)
    (hend : ∀ p ∈ places, offset ≤ p → p < offset + byteLength as →
      p + 5 ≤ offset + byteLength as) :
    ∃ bs rest, ds = bs ++ rest ∧ Replaced places offset as bs ∧
      Replaced places (offset + byteLength as) cs rest := by
  generalize hall : as ++ cs = all at h
  induction h generalizing as with
  | nil offset =>
    obtain ⟨rfl, rfl⟩ := List.append_eq_nil_iff.1 hall
    exact ⟨[], [], rfl, .nil _, .nil _⟩
  | @char offset cs' ds c free rest ih =>
    cases as with
    | nil =>
      obtain rfl : cs = c :: cs' := hall
      exact ⟨[], c :: ds, rfl, .nil _, .char c free rest⟩
    | cons a as =>
      obtain ⟨rfl, rfl⟩ := List.cons.inj hall
      rw [Text.byteLength_cons] at hend ⊢
      obtain ⟨bs, rest', rfl, hbs, hrest⟩ := ih
        (fun p hp hle hlt => by have := hend p hp; omega) rfl
      rw [← Nat.add_assoc]
      exact ⟨a :: bs, rest', rfl, .char a free hbs, hrest⟩
  | @keyword offset cs' ds mem free rest ih =>
    cases as with
    | nil =>
      obtain rfl : cs = yieldKeyword ++ cs' := hall
      exact ⟨[], returnKeyword ++ ds, rfl, .nil _, .keyword mem free rest⟩
    | cons a as =>
      have hpos := a.utf8Size_pos
      have hlong := hend offset mem (Nat.le_refl _) (by rw [Text.byteLength_cons]; omega)
      -- the stretch takes in the whole keyword
      rcases List.append_eq_append_iff.1 hall with ⟨us, hus, -⟩ | ⟨us, hus, hcs⟩
      · have hfive : byteLength yieldKeyword = 5 := rfl
        rw [hus, Text.byteLength_append] at hfive
        cases us with
        | nil =>
          rw [List.append_nil] at hus
          rw [← hus] at hall ⊢
          obtain rfl : cs = cs' := List.append_cancel_left hall
          exact ⟨returnKeyword, ds, rfl, by simpa using Replaced.keyword mem free (.nil _), rest⟩
        | cons u us =>
          have := u.utf8Size_pos
          simp only [Text.byteLength_cons] at hfive hlong
          omega
      · rw [hus, Text.byteLength_append, show byteLength yieldKeyword = 5 from rfl] at hend ⊢
        obtain ⟨bs, rest', rfl, hbs, hrest⟩ := ih
          (fun p hp hle hlt => by have := hend p hp; omega) hcs.symm
        rw [← Nat.add_assoc]
        refine ⟨returnKeyword ++ bs, rest', by simp, .keyword mem free hbs, hrest⟩

theorem eq_of_free (h : Replaced places offset cs ds)
    (hfree : ∀ p ∈ places, offset ≤ p → offset + byteLength cs ≤ p) : ds = cs := by
  induction h with
  | nil => rfl
  | char c free rest ih =>
    rw [ih fun p hp hle => ?_]
    have := hfree p hp (by have := c.utf8Size_pos; omega)
    rw [Text.byteLength_cons] at this
    omega
  | @keyword offset cs ds mem free rest ih =>
    have := hfree offset mem (Nat.le_refl _)
    rw [Text.byteLength_append, show byteLength yieldKeyword = 5 from rfl] at this
    omega

/-- The changed text begins as the text does, or both begin with a keyword. -/
theorem head? (h : Replaced places offset cs ds) :
    cs.head? = ds.head? ∨ cs.head? = some 'y' ∧ ds.head? = some 'r' := by
  cases h with
  | nil => exact .inl rfl
  | char => exact .inl rfl
  | keyword => exact .inr ⟨rfl, rfl⟩

theorem all_isWordChar (h : Replaced places offset cs ds) (hcs : ∀ c ∈ cs, isWordChar c = true) :
    ∀ c ∈ ds, isWordChar c = true := by
  induction h with
  | nil => exact hcs
  | char c free rest ih =>
    obtain ⟨hc, hcs⟩ := List.forall_mem_cons.1 hcs
    exact List.forall_mem_cons.2 ⟨hc, ih hcs⟩
  | keyword mem free rest ih =>
    have hreturn : returnKeyword.all isWordChar = true := rfl
    exact List.forall_mem_append.2
      ⟨List.all_eq_true.1 hreturn, ih (List.forall_mem_append.1 hcs).2⟩

theorem count_lineFeeds (h : Replaced places offset cs ds) :
    ds.count '\n' = cs.count '\n' := by
  induction h with
  | nil => rfl
  | char c free rest ih => rw [List.count_cons, List.count_cons, ih]
  | keyword mem free rest ih => rw [List.count_append, List.count_append, ih]; rfl

theorem eq_or_changed (h : Replaced places offset cs ds) :
    ds = cs ∨ 'y' ∈ cs ∧ 't' ∈ ds ∧ 'u' ∈ ds := by
  induction h with
  | nil => exact .inl rfl
  | char c free rest ih =>
    rcases ih with rfl | ⟨hy, ht, hu⟩
    · exact .inl rfl
    · exact .inr ⟨List.mem_cons_of_mem _ hy, List.mem_cons_of_mem _ ht, List.mem_cons_of_mem _ hu⟩
  | keyword mem free rest ih =>
    have hreturn : 't' ∈ returnKeyword ∧ 'u' ∈ returnKeyword := by decide
    exact .inr ⟨List.mem_cons_self, List.mem_append_left _ hreturn.1,
      List.mem_append_left _ hreturn.2⟩

/-- No word that the scanner tells apart holds the letters of either keyword. -/
theorem maskWord_eq (h : Replaced places offset cs ds) : maskWord ds = maskWord cs := by
  have hwords : ∀ w ∈ scannedWords, 'y' ∉ w ∧ ¬ ('t' ∈ w ∧ 'u' ∈ w) := by decide
  rcases h.eq_or_changed with rfl | ⟨hy, htu⟩
  · rfl
  · have hcs : cs ∉ scannedWords := fun hmem => (hwords cs hmem).1 hy
    have hds : ds ∉ scannedWords := fun hmem => (hwords ds hmem).2 htu
    rw [maskWord, maskWord, if_neg hcs, if_neg hds]

end Replaced

/-! ## Token by token -/

/-- A token and what the replacement makes of it. -/
theorem Token.Reads.replaced {places : List Nat} {offset offset' : Nat} {t : Token}
    {cs text rest : List Char} (ht : t.Reads cs) (htext : Replaced places offset t.text text)
    (hrest : Replaced places offset' cs rest) (hfree : t.kind ≠ .word → text = t.text) :
    (⟨t.kind, text⟩ : Token).Reads rest ∧ (⟨t.kind, text⟩ : Token).outline = t.outline := by
  have hcount := htext.count_lineFeeds
  by_cases hk : t.kind = .word
  · obtain ⟨hword, hnext⟩ := ht.word hk
    have hne : text ≠ [] := by
      rintro rfl
      obtain ⟨a, as, ha, -⟩ := ht
      rcases htext.head? with hh | ⟨-, hh⟩
      · rw [ha] at hh
        cases hh
      · cases hh
    have hrest' : ∀ c, rest.head? = some c → isWordChar c = false := by
      rcases hrest.head? with hh | ⟨hy, -⟩
      · rwa [← hh]
      · exact absurd (hnext 'y' hy) (by decide)
    rw [hk]
    refine ⟨reads_of_wordChars hne (htext.all_isWordChar hword) hrest', ?_⟩
    rw [Token.outline, Token.outline, Token.masked, Token.masked, if_pos hk, if_pos rfl,
      htext.maskWord_eq, hcount]
  · obtain rfl := hfree hk
    refine ⟨?_, rfl⟩
    rcases hrest.head? with hh | ⟨hy, hr⟩
    · exact ht.of_head hh
    · obtain ⟨cs', rfl⟩ := List.head?_eq_some_iff.1 hy
      obtain ⟨rest', rfl⟩ := List.head?_eq_some_iff.1 hr
      exact ht.of_wordChar (by decide) (by decide) rest'

/-- **The replacement of keywords in code keeps every outline.** -/
theorem outline_of_replaced {places : List Nat} {offset : Nat} {ts : List Token} {ds : List Char}
    (hts : Lexed ts) (h : Replaced places offset (join ts) ds)
    (hplaces : ∀ p ∈ places, offset ≤ p → KeywordAt offset 0 p (join ts) ∧ ¬ Covered p offset ts) :
    (tokens ds).map Token.outline = ts.map Token.outline := by
  induction ts generalizing offset ds with
  | nil =>
    rw [h.eq_nil, tokens]
  | cons t ts ih =>
    obtain ⟨ht, hts⟩ := hts
    rw [join_cons] at h hplaces
    have hinside : ∀ p ∈ places, offset ≤ p → p < offset + byteLength t.text →
        t.kind = .word ∧ p + 5 ≤ offset + byteLength t.text := by
      intro p hp hle hlt
      obtain ⟨hkeyword, hcode⟩ := hplaces p hp hle
      refine hkeyword.in_word ht ?_ hlt
      rw [← Bool.not_eq_true]
      exact fun hcovered => hcode (.inl ⟨hcovered, hle, hlt⟩)
    obtain ⟨text, rest, rfl, htext, hrest⟩ :=
      h.split fun p hp hle hlt => (hinside p hp hle hlt).2
    have hfree : t.kind ≠ .word → text = t.text := by
      refine fun hk => htext.eq_of_free fun p hp hle => ?_
      exact Nat.le_of_not_lt fun hlt => hk (hinside p hp hle hlt).1
    obtain ⟨hreads, houtline⟩ := ht.replaced htext hrest hfree
    have htokens : tokens (text ++ rest) = ⟨t.kind, text⟩ :: tokens rest := tokens_of_reads hreads
    have hlater : ∀ p ∈ places, offset + byteLength t.text ≤ p →
        KeywordAt (offset + byteLength t.text) 0 p (join ts) ∧
          ¬ Covered p (offset + byteLength t.text) ts := by
      intro p hp hle
      obtain ⟨hkeyword, hcode⟩ := hplaces p hp (by omega)
      exact ⟨hkeyword.drop hle, fun hc => hcode (.inr hc)⟩
    rw [htokens, List.map_cons, List.map_cons, houtline, ih hts hrest hlater]

end MinimumRelease.Recovery
