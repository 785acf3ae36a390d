import MinimumRelease.Proofs.Recovery.ByteScan
import MinimumRelease.Proofs.Recovery.InBounds
import MinimumRelease.Proofs.Recovery.Places
import MinimumRelease.Proofs.Recovery.TokenEnds

/-! # Tokens tile the text

The tokens of a text that are not blank are ranges of bytes. They stand one behind the
other, and between them is white space only (`Tiles`). Behind a token the text can be
cut, and what is read in the rest are the tokens that were left (`restart_byteAt`).

So the ranges of literals and comments are in order too, and exactly one index parts
those that end before a byte from the others (`SplitsAt`). However a search finds that
index, the range that stands there tells whether the byte is covered (`Covers`). -/

namespace MinimumRelease.Recovery

open Token
open Text (byteLength bytes)

/-- The tokens of a source with their bytes. -/
def byteTokens (source : String) : List ByteToken := located 0 (tokens source.toList)

/-- Literals and comments. -/
def ByteToken.isCovered (t : ByteToken) : Bool := t.kind = .literal || t.kind = .comment

/-- Byte `p` is one of the bytes of the token. -/
def ByteToken.Holds (t : ByteToken) (p : Nat) : Prop := t.start ≤ p ∧ p < t.stop

/-- The tokens stand in the source one behind the other and leave out nothing but white space. -/
structure Tiles (source : String) (ts : List ByteToken) : Prop where
  within : ∀ t ∈ ts, t.start < t.stop ∧ t.stop ≤ source.utf8ByteSize
  apart : ts.Pairwise fun a b => a.stop ≤ b.start
  boundaries : ∀ t ∈ ts, ∀ o ∈ [t.start, t.stop], (⟨o⟩ : String.Pos.Raw).IsValid source
  /-- Every byte outside is a space, tab, line feed, form feed or carriage return. -/
  spaces : ∀ p b, (bytes source.toList)[p]? = some b → (∀ t ∈ ts, ¬ t.Holds p) →
    b ∈ ([32, 9, 10, 12, 13] : List UInt8)
  /-- A mark is a single ASCII byte. -/
  marks : ∀ t ∈ ts, t.kind = .mark →
    t.stop = t.start + 1 ∧ ∃ b, (bytes source.toList)[t.start]? = some b ∧ b < 128

/-- Just the first `k` of the ranges end at or before byte `p`. -/
def SplitsAt (ranges : List (Nat × Nat)) (p k : Nat) : Prop :=
  k ≤ ranges.length ∧ ∀ i r, ranges[i]? = some r → (r.2 ≤ p ↔ i < k)

/-- The ranges are those of the literals and comments, and tell which bytes are in one. -/
structure Covers (ts : List ByteToken) (ranges : List (Nat × Nat)) : Prop where
  ranges_eq : ranges = (ts.filter (·.isCovered)).map fun t => (t.start, t.stop)
  /-- The range to look at is found at the one index where the ranges split. -/
  search : ∀ p, ∃ k, (∀ n, SplitsAt ranges p n ↔ n = k) ∧
    inRanges ranges p = ranges[k]?.any fun r => r.1 ≤ p && p < r.2
  inRanges_iff : ∀ p, inRanges ranges p = true ↔
    ∃ t ∈ ts, (t.kind = .literal ∨ t.kind = .comment) ∧ t.Holds p

/-! ## Tokens by their positions -/

variable {ts : List Token} {offset : Nat}

theorem byteAt_cons_succ (x : Token) (ts : List Token) (i : Nat) :
    byteAt (x :: ts) (i + 1) = byteLength x.text + byteAt ts i := by
  simp [byteAt, textBetween]

theorem mem_located_cons {x : Token} {t : ByteToken} : t ∈ located offset (x :: ts) ↔
    (x.kind ≠ .blank ∧ t = ⟨x.kind, offset, offset + byteLength x.text⟩) ∨
      t ∈ located (offset + byteLength x.text) ts := by
  rw [located]
  split
  · next hk => simp [hk]
  · next hk => simp [hk]

/-- The token at position `i`, unless it is blank. -/
theorem mem_located {t : ByteToken} : t ∈ located offset ts ↔ ∃ i x, ts[i]? = some x ∧
    x.kind ≠ .blank ∧ t = ⟨x.kind, offset + byteAt ts i, offset + byteAt ts (i + 1)⟩ := by
  induction ts generalizing offset with
  | nil => simp [located]
  | cons x ts ih =>
    have hsucc : ∀ i, offset + byteAt (x :: ts) (i + 1) =
        offset + byteLength x.text + byteAt ts i := by
      intro i
      rw [byteAt_cons_succ, Nat.add_assoc]
    rw [mem_located_cons]
    constructor
    · rintro (⟨hk, rfl⟩ | h)
      · exact ⟨0, x, rfl, hk, by rw [hsucc]; rfl⟩
      · obtain ⟨i, y, hy, hk, rfl⟩ := ih.1 h
        exact ⟨i + 1, y, hy, hk, by rw [hsucc, hsucc]⟩
    · rintro ⟨i, y, hy, hk, rfl⟩
      cases i with
      | zero =>
        cases hy
        exact .inl ⟨hk, by rw [hsucc]; rfl⟩
      | succ i => exact .inr (ih.2 ⟨i, y, hy, hk, by rw [hsucc, hsucc]⟩)

theorem located_append (offset : Nat) (as bs : List Token) : located offset (as ++ bs) =
    located offset as ++ located (offset + byteLength (join as)) bs := by
  induction as generalizing offset with
  | nil => simp [located]
  | cons a as ih =>
    simp only [List.cons_append, located, ih, join_cons, Text.byteLength_append, Nat.add_assoc]
    split <;> rfl

theorem le_start_of_mem_located {t : ByteToken} (h : t ∈ located offset ts) :
    offset ≤ t.start := by
  obtain ⟨i, x, -, -, rfl⟩ := mem_located.1 h
  exact Nat.le_add_right _ _

theorem pairwise_located (offset : Nat) (ts : List Token) :
    (located offset ts).Pairwise fun a b => a.stop ≤ b.start := by
  induction ts generalizing offset with
  | nil => exact .nil
  | cons x ts ih =>
    rw [located]
    split
    · exact ih _
    · exact .cons (fun b hb => le_start_of_mem_located hb) (ih _)

/-! ## Tiling -/

theorem isSpaceByte_of_mem_bytes {cs : List Char} (h : ∀ c ∈ cs, isSpace c = true) :
    ∀ b ∈ bytes cs, Bytewise.isSpaceByte b = true := by
  intro b hb
  obtain ⟨c, hc, hbc⟩ := List.mem_flatMap.1 hb
  have hascii := Bytewise.ascii_of_isSpace (h c hc)
  rw [utf8EncodeChar_of_ascii hascii, List.mem_singleton] at hbc
  rw [hbc, Bytewise.isSpaceByte_toUInt8 hascii, h c hc]

/-- A byte outside of all tokens is white space. -/
theorem Lexed.isSpaceByte_of_outside (h : Lexed ts) (offset : Nat) {p : Nat} {b : UInt8}
    (hb : (bytes (join ts))[p]? = some b)
    (hout : ∀ t ∈ located offset ts, ¬ t.Holds (offset + p)) : Bytewise.isSpaceByte b = true := by
  induction ts generalizing offset p with
  | nil => simp at hb
  | cons x ts ih =>
    obtain ⟨hreads, hts⟩ := h
    rw [join_cons, Text.bytes_append] at hb
    by_cases hp : p < byteLength x.text
    · rw [List.getElem?_append_left (by rwa [Text.length_bytes])] at hb
      by_cases hk : x.kind = .blank
      · exact isSpaceByte_of_mem_bytes (hreads.isSpace_of_blank hk) b (List.mem_of_getElem? hb)
      · exact absurd ⟨Nat.le_add_right _ _, Nat.add_lt_add_left hp _⟩
          (hout _ (mem_located_cons.2 (.inl ⟨hk, rfl⟩)))
    · have hp := Nat.le_of_not_lt hp
      rw [List.getElem?_append_right (by rwa [Text.length_bytes]), Text.length_bytes] at hb
      refine ih hts _ hb fun t ht hholds => hout t (mem_located_cons.2 (.inr ht)) ?_
      rwa [Nat.add_assoc, Nat.add_sub_cancel' hp] at hholds

theorem Token.Reads.of_kind_mark {t : Token} {cs : List Char} (h : t.Reads cs)
    (hk : t.kind = .mark) : ∃ c, t.text = [c] ∧ c.toNat < 128 := by
  obtain ⟨c, text, ht, he⟩ := h
  rw [hk] at he
  obtain ⟨-, hword, -, -, hlen⟩ := extent_eq_mark he
  refine ⟨c, ?_, Bytewise.ascii_of_not_word hword⟩
  rw [ht, List.length_eq_zero_iff.1 hlen]

/-- A mark is one ASCII byte. -/
theorem Lexed.byte_of_mark (h : Lexed ts) {i : Nat} {x : Token} (hx : ts[i]? = some x)
    (hk : x.kind = .mark) : byteAt ts (i + 1) = byteAt ts i + 1 ∧
      ∃ b, (bytes (join ts))[byteAt ts i]? = some b ∧ b < 128 := by
  have hdrop := drop_of_getElem? hx
  have hlexed := h.drop i
  rw [hdrop] at hlexed
  obtain ⟨c, hc, hascii⟩ := hlexed.1.of_kind_mark hk
  constructor
  · rw [← byteAt_add ts (Nat.le_add_right i 1), textBetween_succ hx, hc, Text.byteLength_cons,
      utf8Size_of_ascii hascii]
    rfl
  · refine ⟨c.toUInt8, ?_, ?_⟩
    · rw [join_eq_textBetween ts i, hdrop, join_cons, hc, Text.bytes_append, byteAt,
        ← Text.length_bytes, List.getElem?_append_right (Nat.le_refl _), Nat.sub_self,
        List.singleton_append, Text.bytes_cons, utf8EncodeChar_of_ascii hascii]
      rfl
    · rw [UInt8.lt_iff_toNat_lt, toNat_toUInt8 hascii]
      exact hascii

theorem tiles_byteTokens (source : String) : Tiles source (byteTokens source) := by
  have hlexed := lexed_tokens source.toList
  constructor
  · intro t ht
    obtain ⟨i, x, hx, -, rfl⟩ := mem_located.1 ht
    have hi := (List.getElem?_eq_some_iff.1 hx).1
    have hlt := byteAt_lt (fun t ht => text_ne_nil_of_mem_tokens ht) (Nat.lt_succ_self i) hi
    have hle := byteAt_le (tokens source.toList) hi
    rw [byteAt_length] at hle
    simp only [Nat.zero_add]
    exact ⟨hlt, hle⟩
  · exact pairwise_located 0 _
  · intro t ht o ho
    obtain ⟨i, x, -, -, rfl⟩ := mem_located.1 ht
    simp only [Nat.zero_add, List.mem_cons, List.not_mem_nil, or_false] at ho
    rcases ho with rfl | rfl <;> exact isValid_byteAt source _
  · intro p b hb hout
    rw [← join_tokens source.toList] at hb
    have hspace := hlexed.isSpaceByte_of_outside 0 hb (by rwa [Nat.zero_add])
    simpa [Bytewise.isSpaceByte, or_assoc] using hspace
  · intro t ht hk
    obtain ⟨i, x, hx, -, rfl⟩ := mem_located.1 ht
    have hmark := hlexed.byte_of_mark hx hk
    rw [join_tokens] at hmark
    simpa only [Nat.zero_add] using hmark

/-! ## Cutting the text between tokens -/

/-- Behind the first `i` tokens those are left that begin there or later. -/
theorem filter_located (hne : ∀ t ∈ ts, t.text ≠ []) (i : Nat) :
    (located 0 ts).filter (byteAt ts i ≤ ·.start) = located (byteAt ts i) (ts.drop i) := by
  have hat : byteLength (join (ts.take i)) = byteAt ts i := rfl
  have hall : byteAt (ts.take i) (ts.take i).length = byteAt ts i := by
    rw [← hat, byteAt, textBetween, List.drop_zero, Nat.sub_zero, List.take_length]
  have hsplit := located_append 0 (ts.take i) (ts.drop i)
  rw [List.take_append_drop, Nat.zero_add, hat] at hsplit
  have hbefore : (located 0 (ts.take i)).filter (byteAt ts i ≤ ·.start) = [] := by
    rw [List.filter_eq_nil_iff]
    intro t ht
    obtain ⟨j, x, hx, -, rfl⟩ := mem_located.1 ht
    have hlt := byteAt_lt (fun t ht => hne t (List.mem_of_mem_take ht))
      (List.getElem?_eq_some_iff.1 hx).1 (Nat.le_refl _)
    rw [hall] at hlt
    simpa using hlt
  have hbehind : (located (byteAt ts i) (ts.drop i)).filter (byteAt ts i ≤ ·.start) =
      located (byteAt ts i) (ts.drop i) := by
    rw [List.filter_eq_self]
    intro t ht
    exact decide_eq_true (le_start_of_mem_located ht)
  rw [hsplit, List.filter_append, hbefore, hbehind, List.nil_append]

/-- Begun anew behind the first `i` tokens, the lexer reads the tokens that are left. -/
theorem restart_byteAt (source : String) (i : Nat) : ∃ rest ts,
    Text.dropBytes? (byteAt (tokens source.toList) i) source.toList = some rest ∧
    Bytewise.Yields (bytes rest) 0 ts ∧ ts.map (·.shift (byteAt (tokens source.toList) i)) =
      (byteTokens source).filter (byteAt (tokens source.toList) i ≤ ·.start) := by
  refine ⟨join ((tokens source.toList).drop i), located 0 ((tokens source.toList).drop i), ?_,
    ((lexed_tokens source.toList).drop i).yields, ?_⟩
  · have hsplit := join_eq_textBetween (tokens source.toList) i
    rw [join_tokens] at hsplit
    conv => lhs; arg 2; rw [hsplit]
    exact Text.dropBytes?_byteLength _ _
  · rw [byteTokens, filter_located fun t ht => text_ne_nil_of_mem_tokens ht, ← located_shift,
      Nat.add_zero]

/-! ## Looking up a byte -/

variable {ranges : List (Nat × Nat)} {p : Nat}

theorem SplitsAt.le {k n : Nat} (hk : SplitsAt ranges p k) (hn : SplitsAt ranges p n) : k ≤ n := by
  refine Nat.le_of_not_lt fun hlt => ?_
  have hlen := Nat.lt_of_lt_of_le hlt hk.1
  have hin := (hk.2 n _ (List.getElem?_eq_getElem hlen)).2 hlt
  exact Nat.lt_irrefl n ((hn.2 n _ (List.getElem?_eq_getElem hlen)).1 hin)

theorem splitsAt_takeWhile (h : ranges.Pairwise fun a b => a.2 ≤ b.2) :
    SplitsAt ranges p (ranges.takeWhile (·.2 ≤ p)).length := by
  induction ranges with
  | nil => exact ⟨Nat.le_refl _, by simp⟩
  | cons a ranges ih =>
    obtain ⟨ha, hranges⟩ := List.pairwise_cons.1 h
    obtain ⟨hlen, hih⟩ := ih hranges
    by_cases hp : a.2 ≤ p
    · rw [List.takeWhile_cons_of_pos (by simpa using hp), List.length_cons]
      refine ⟨Nat.succ_le_succ hlen, fun i r hr => ?_⟩
      cases i with
      | zero =>
        cases hr
        simp [hp]
      | succ i => rw [hih i r hr, Nat.succ_lt_succ_iff]
    · rw [List.takeWhile_cons_of_neg (by simpa using hp)]
      refine ⟨Nat.zero_le _, fun i r hr => ?_⟩
      have hle : a.2 ≤ r.2 := by
        rcases List.mem_cons.1 (List.mem_of_getElem? hr) with rfl | hr
        · exact Nat.le_refl _
        · exact ha r hr
      simp only [List.length_nil, Nat.not_lt_zero, iff_false]
      omega

/-- What stands at the index decides. -/
theorem inRanges_eq (ranges : List (Nat × Nat)) (p : Nat) :
    inRanges ranges p = (ranges[(ranges.takeWhile (·.2 ≤ p)).length]?).any
      fun r => r.1 ≤ p && p < r.2 := by
  have hsplit := List.takeWhile_append_dropWhile (p := fun r : Nat × Nat => decide (r.2 ≤ p))
    (l := ranges)
  have hget : ranges[(ranges.takeWhile (·.2 ≤ p)).length]? =
      (ranges.dropWhile (·.2 ≤ p)).head? := by
    conv => lhs; arg 1; rw [← hsplit]
    rw [List.getElem?_append_right (Nat.le_refl _), Nat.sub_self, List.head?_eq_getElem?]
  rw [hget, inRanges]
  cases ranges.dropWhile (·.2 ≤ p) <;> rfl

theorem not_blank_of_isCovered {x : Token} (h : x.isCovered = true) : x.kind ≠ .blank := by
  intro hk
  simp [Token.isCovered, hk] at h

theorem coveredRanges_eq (offset : Nat) (ts : List Token) : coveredRanges offset ts =
    ((located offset ts).filter (·.isCovered)).map fun t => (t.start, t.stop) := by
  induction ts generalizing offset with
  | nil => rfl
  | cons x ts ih =>
    rw [coveredRanges, located, ih]
    by_cases hk : x.kind = .blank
    · rw [if_neg fun h => not_blank_of_isCovered h hk, if_pos hk]
    · rw [if_neg hk, List.filter_cons]
      show (if x.isCovered = true then _ else _) = List.map _ (if x.isCovered = true then _ else _)
      split <;> rfl

theorem covered_iff {p : Nat} : Covered p offset ts ↔
    ∃ t ∈ located offset ts, (t.kind = .literal ∨ t.kind = .comment) ∧ t.Holds p := by
  induction ts generalizing offset with
  | nil => simp [Covered, located]
  | cons x ts ih =>
    have hkind : x.isCovered = true ↔ x.kind = .literal ∨ x.kind = .comment := by
      simp [Token.isCovered]
    rw [Covered, ih, hkind]
    constructor
    · rintro (⟨hk, hp⟩ | ⟨t, ht, h⟩)
      · exact ⟨_, mem_located_cons.2 (.inl ⟨not_blank_of_isCovered (hkind.2 hk), rfl⟩), hk, hp⟩
      · exact ⟨t, mem_located_cons.2 (.inr ht), h⟩
    · rintro ⟨t, ht, h⟩
      rcases mem_located_cons.1 ht with ⟨-, rfl⟩ | ht
      · exact .inl h
      · exact .inr ⟨t, ht, h⟩

theorem covers_byteTokens (source : String) :
    Covers (byteTokens source) (coveredRanges 0 (tokens source.toList)) := by
  have hranges := coveredRanges_eq 0 (tokens source.toList)
  have hascend : (coveredRanges 0 (tokens source.toList)).Pairwise fun a b => a.2 ≤ b.2 := by
    have htiles := tiles_byteTokens source
    rw [hranges, List.pairwise_map]
    refine (htiles.apart.sublist List.filter_sublist).imp_of_mem fun _ hb hab => ?_
    exact Nat.le_trans hab (Nat.le_of_lt (htiles.within _ (List.mem_of_mem_filter hb)).1)
  refine ⟨hranges, fun p => ⟨_, fun n => ?_, inRanges_eq _ p⟩, fun p => ?_⟩
  · have hsplit := splitsAt_takeWhile (p := p) hascend
    refine ⟨fun hn => Nat.le_antisymm (hn.le hsplit) (hsplit.le hn), ?_⟩
    rintro rfl
    exact hsplit
  · rw [inRanges_coveredRanges, covered_iff]
    rfl

/-- **Tokens tile the text.** Byte by byte one list of tokens is read, those of the text, and then
the reading ends. They are not empty and in bounds, stand apart in ascending order, begin and end
between characters, and leave out white space only. Read from the beginning or the end of any of
them on, the rest of the text has the tokens that are left, shifted. The ranges of the literals
and comments tell exactly which bytes lie in one. -/
theorem tokens_tile (source : String) :
    (∀ ts, Bytewise.Yields (bytes source.toList) 0 ts ↔ ts = byteTokens source) ∧
    Tiles source (byteTokens source) ∧
    (∀ t ∈ byteTokens source, ∀ p ∈ [t.start, t.stop], ∃ rest ts,
      Text.dropBytes? p source.toList = some rest ∧ Bytewise.Yields (bytes rest) 0 ts ∧
      ts.map (·.shift p) = (byteTokens source).filter (p ≤ ·.start)) ∧
    Covers (byteTokens source) (coveredRanges 0 (tokens source.toList)) := by
  have hyields := yields_tokens source.toList
  refine ⟨fun ts => ⟨fun h => h.unique hyields, ?_⟩, tiles_byteTokens source, ?_,
    covers_byteTokens source⟩
  · rintro rfl
    exact hyields
  · intro t ht p hp
    obtain ⟨i, x, -, -, rfl⟩ := mem_located.1 ht
    simp only [Nat.zero_add, List.mem_cons, List.not_mem_nil, or_false] at hp
    rcases hp with rfl | rfl <;> exact restart_byteAt source _

end MinimumRelease.Recovery
