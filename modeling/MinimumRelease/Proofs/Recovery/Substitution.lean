import MinimumRelease.Recovery.Yield

/-! # Texts with keywords replaced

A candidate is a byte offset at which the text reads `yield`, and candidates
ascend. No two of these words overlap, and the word that replaces them is one
byte longer. So an offset moves by one for each keyword before it (`shift`),
and a range that takes in no keyword reads the same in the changed text
(`slice_replaceKeywords`). -/

namespace MinimumRelease.Recovery

open Text (byteLength slice)

/-! ## Bytes of a leading part -/

theorem byteLength_lt_of_append_eq {as bs xs ys : List Char} (h : as ++ xs = bs ++ ys)
    (hlen : as.length < bs.length) : byteLength as < byteLength bs := by
  obtain ⟨cs, rfl⟩ : as <+: bs :=
    List.prefix_of_prefix_length_le ⟨xs, h⟩ ⟨ys, rfl⟩ (Nat.le_of_lt hlen)
  cases cs with
  | nil => simp at hlen
  | cons c cs =>
    have := c.utf8Size_pos
    simp only [Text.byteLength_append, Text.byteLength_cons]
    omega

theorem dropBytes?_append {as : List Char} (bs : List Char) {n : Nat} (h : byteLength as ≤ n) :
    Text.dropBytes? n (as ++ bs) = Text.dropBytes? (n - byteLength as) bs := by
  induction as generalizing n with
  | nil => rfl
  | cons c as ih =>
    have hpos := c.utf8Size_pos
    simp only [Text.byteLength_cons] at h
    obtain ⟨k, rfl⟩ : ∃ k, n = k + 1 := ⟨n - 1, by omega⟩
    rw [List.cons_append, Text.dropBytes?, if_pos (by omega), ih (by omega), Text.byteLength_cons,
      Nat.sub_sub]

/-! ## Candidates -/

theorem proposalAt?_eq_some {offset : Nat} {cs : List Char} {p : Proposal}
    (h : proposalAt? offset cs = some p) : ∃ as gap,
      cs = as ++ yieldKeyword ++ gap ++ p.operand ∧ offset + byteLength as = p.offset := by
  unfold proposalAt? at h
  split at h
  · cases h
  · next gap hgap =>
    split at h
    · next b bs c rest hblank hrest =>
      split at h
      · cases h
      · cases h
        refine ⟨cs.takeWhile Text.isBlank, b :: bs, ?_, rfl⟩
        have hcs : cs.dropWhile Text.isBlank = yieldKeyword ++ gap :=
          Text.after?_eq_some_iff.1 hgap
        have hsplit : gap = (b :: bs) ++ (c :: rest) := by
          rw [← hblank, ← hrest, List.takeWhile_append_dropWhile]
        rw [List.append_assoc, List.append_assoc, ← hsplit, ← hcs,
          List.takeWhile_append_dropWhile]
    · cases h

theorem proposalHere?_eq_some {lineStart : Bool} {offset : Nat} {c : Char} {cs : List Char}
    {p : Proposal} (h : proposalHere? lineStart offset c cs = some p) : ∃ as gap,
      c :: cs = as ++ yieldKeyword ++ gap ++ p.operand ∧ offset + byteLength as = p.offset := by
  unfold proposalHere? at h
  split at h
  · next q hq =>
    cases h
    split at hq
    · exact proposalAt?_eq_some hq
    · cases hq
  · split at h
    · next hmark =>
      obtain ⟨as, gap, rfl, hoff⟩ := proposalAt?_eq_some h
      have hsize : c.utf8Size = 1 := by
        simp only [List.mem_cons, List.not_mem_nil, or_false] at hmark
        rcases hmark with rfl | rfl | rfl | rfl <;> rfl
      refine ⟨c :: as, gap, by simp, ?_⟩
      rw [Text.byteLength_cons, hsize]
      omega
    · cases h

/-- In a text that begins at byte `offset` the keyword stands at byte `p`, behind at least `skip`
characters. -/
def KeywordAt (offset skip p : Nat) (cs : List Char) : Prop :=
  ∃ as bs, cs = as ++ yieldKeyword ++ bs ∧ offset + byteLength as = p ∧ skip ≤ as.length

namespace KeywordAt

variable {offset skip p : Nat} {c : Char} {cs : List Char}

theorem cons (h : KeywordAt (offset + c.utf8Size) skip p cs) :
    KeywordAt offset (skip + 1) p (c :: cs) := by
  obtain ⟨as, bs, rfl, hp, hskip⟩ := h
  refine ⟨c :: as, bs, rfl, ?_, Nat.succ_le_succ hskip⟩
  rw [Text.byteLength_cons]
  omega

theorem le (h : KeywordAt offset skip p cs) : offset ≤ p := by
  obtain ⟨as, bs, -, hp, -⟩ := h
  omega

theorem of_skip {skip' : Nat} (h : KeywordAt offset skip p cs) (hle : skip' ≤ skip) :
    KeywordAt offset skip' p cs := by
  obtain ⟨as, bs, hcs, hp, hskip⟩ := h
  exact ⟨as, bs, hcs, hp, Nat.le_trans hle hskip⟩

theorem uncons (h : KeywordAt offset 0 p (c :: cs)) (hne : offset ≠ p) :
    KeywordAt (offset + c.utf8Size) 0 p cs := by
  obtain ⟨as, bs, hcs, rfl, -⟩ := h
  cases as with
  | nil => exact absurd rfl hne
  | cons a as =>
    obtain ⟨rfl, rfl⟩ := List.cons.inj hcs
    exact ⟨as, bs, rfl, by rw [Text.byteLength_cons, Nat.add_assoc], Nat.zero_le _⟩

theorem eq_append (h : KeywordAt p 0 p cs) : ∃ bs, cs = yieldKeyword ++ bs := by
  obtain ⟨as, bs, rfl, hp, -⟩ := h
  cases as with
  | nil => exact ⟨bs, rfl⟩
  | cons a as =>
    have := a.utf8Size_pos
    rw [Text.byteLength_cons] at hp
    omega

theorem uncons_of_ne (h : KeywordAt offset 0 p (c :: cs)) (hc : c ≠ 'y') :
    KeywordAt (offset + c.utf8Size) 0 p cs := by
  refine h.uncons ?_
  rintro rfl
  obtain ⟨bs, hbs⟩ := h.eq_append
  exact hc (List.cons.inj hbs).1

/-- Where a text begins with the keyword, the next one stands behind it. No other letter of the
word is a `y`. -/
theorem behind (h : KeywordAt offset 0 p (yieldKeyword ++ cs)) (hne : offset ≠ p) :
    KeywordAt (offset + 5) 0 p cs :=
  ((((h.uncons hne).uncons_of_ne (c := 'i') (by decide)).uncons_of_ne (c := 'e')
    (by decide)).uncons_of_ne (c := 'l') (by decide)).uncons_of_ne (c := 'd') (by decide)

end KeywordAt

theorem keywordAt_of_mem_proposals {lineStart : Bool} {offset skip : Nat} {cs : List Char}
    {p : Proposal} (h : p ∈ proposals lineStart offset skip cs) :
    KeywordAt offset skip p.offset cs := by
  fun_induction proposals lineStart offset skip cs with
  | case1 => cases h
  | case2 lineStart offset c cs skip ih => exact (ih h).cons
  | case3 lineStart offset c cs q hq ih =>
    rcases List.mem_cons.1 h with rfl | h
    · obtain ⟨as, gap, hcs, hp⟩ := proposalHere?_eq_some hq
      exact ⟨as, gap ++ p.operand, by rw [hcs, List.append_assoc], hp, Nat.zero_le _⟩
    · exact (ih h).cons.of_skip (Nat.zero_le _)
  | case4 lineStart offset c cs hnone ih => exact (ih h).cons.of_skip (Nat.zero_le _)

theorem proposals_ascending (lineStart : Bool) (offset skip : Nat) (cs : List Char) :
    (proposals lineStart offset skip cs).Pairwise (·.offset < ·.offset) := by
  fun_induction proposals lineStart offset skip cs with
  | case1 => exact .nil
  | case2 lineStart offset c cs skip ih => exact ih
  | case3 lineStart offset c cs q hq ih =>
    refine List.pairwise_cons.2 ⟨fun p hp => ?_, ih⟩
    -- the search goes on behind the keyword of `q`
    obtain ⟨as, gap, hcs, hq⟩ := proposalHere?_eq_some hq
    obtain ⟨bs, rest, hcs', hp, hskip⟩ := (keywordAt_of_mem_proposals hp).cons
    have hlen := congrArg List.length hcs
    simp only [List.length_cons, List.length_append] at hlen
    have hlt : byteLength as < byteLength bs := by
      rw [hcs] at hcs'
      simp only [List.append_assoc] at hcs'
      exact byteLength_lt_of_append_eq hcs' (by omega)
    omega
  | case4 lineStart offset c cs hnone ih => exact ih

theorem keywordAt_of_mem_yieldCandidates {source : String} {p : Nat}
    (h : p ∈ yieldCandidates source) : KeywordAt 0 0 p source.toList := by
  obtain ⟨q, hq, rfl⟩ := List.mem_map.1 h
  exact keywordAt_of_mem_proposals (List.mem_filter.1 hq).1

theorem yieldCandidates_ascending (source : String) :
    (yieldCandidates source).Pairwise (· < ·) :=
  List.pairwise_map.2 ((proposals_ascending true 0 0 source.toList).filter _)

/-! ## Offsets -/

/-- Where byte `o` of a text is after the replacement of the keywords at `places`. -/
def shift (places : List Nat) (o : Nat) : Nat := o + places.countP (· < o)

theorem shift_zero (places : List Nat) : shift places 0 = 0 := by
  simp [shift]

theorem shift_mono (places : List Nat) {a b : Nat} (hab : a ≤ b) :
    shift places a + (b - a) ≤ shift places b := by
  have hcount : places.countP (· < a) ≤ places.countP (· < b) := by
    apply List.countP_mono_left
    intro p _ hp
    exact decide_eq_true (Nat.lt_of_lt_of_le (of_decide_eq_true hp) hab)
  rw [shift, shift]
  omega

/-- Offsets keep their distance if no keyword begins between them. -/
theorem shift_of_free {places : List Nat} {a b : Nat} (hab : a ≤ b)
    (hfree : ∀ p ∈ places, b ≤ p ∨ p < a) : shift places b + a = shift places a + b := by
  have hcount : places.countP (· < b) = places.countP (· < a) := by
    apply List.countP_congr
    intro p hp
    have := hfree p hp
    simp only [decide_eq_true_eq]
    omega
  rw [shift, shift, hcount]
  omega

/-- Over a keyword they come one byte further apart. -/
theorem shift_of_mem {places : List Nat} {a b : Nat} (hasc : places.Pairwise (· < ·))
    (ha : a ∈ places) (hab : a < b) (hfree : ∀ p ∈ places, a < p → b ≤ p) :
    shift places b + a = shift places a + b + 1 := by
  obtain ⟨as, bs, rfl⟩ := List.append_of_mem ha
  obtain ⟨-, hbs, has⟩ := List.pairwise_append.1 hasc
  have hall : ∀ n, a ≤ n → as.countP (· < n) = as.length := fun n hn =>
    List.countP_eq_length.2 fun p hp =>
      decide_eq_true (Nat.lt_of_lt_of_le (has p hp a List.mem_cons_self) hn)
  have hnone : ∀ n, n ≤ b → bs.countP (· < n) = 0 := fun n hn =>
    List.countP_eq_zero.2 fun p hp => by
      have := hfree p (by simp [hp]) ((List.pairwise_cons.1 hbs).1 p hp)
      simp only [decide_eq_true_eq]
      omega
  simp only [shift, List.countP_append, List.countP_cons, hall a (Nat.le_refl a),
    hall b (Nat.le_of_lt hab), hnone a (Nat.le_of_lt hab), hnone b (Nat.le_refl b), hab,
    Nat.lt_irrefl, decide_true, decide_false, if_true, Bool.false_eq_true, if_false]
  omega

/-! ## The changed text -/

/-- A text that begins at byte `offset`, and what it is with the keywords at `places` replaced.
No place is inside a character or inside another keyword. -/
inductive Replaced (places : List Nat) : Nat → List Char → List Char → Prop
  | nil (offset : Nat) : Replaced places offset [] []
  | char {offset : Nat} {cs ds : List Char} (c : Char)
      (free : ∀ p ∈ places, offset + c.utf8Size ≤ p ∨ p < offset)
      (rest : Replaced places (offset + c.utf8Size) cs ds) :
      Replaced places offset (c :: cs) (c :: ds)
  | keyword {offset : Nat} {cs ds : List Char} (mem : offset ∈ places)
      (free : ∀ p ∈ places, offset < p → offset + 5 ≤ p)
      (rest : Replaced places (offset + 5) cs ds) :
      Replaced places offset (yieldKeyword ++ cs) (returnKeyword ++ ds)

theorem replaceKeywords_of_mem {places : List Nat} {offset : Nat} (h : offset ∈ places)
    (cs : List Char) : replaceKeywords places offset 0 (yieldKeyword ++ cs) =
      returnKeyword ++ replaceKeywords places (offset + 5) 0 cs := by
  show replaceKeywords places offset 0 ('y' :: 'i' :: 'e' :: 'l' :: 'd' :: cs) = _
  rw [replaceKeywords, if_pos (by simpa using h)]
  rfl

/-- Where each place is that of a keyword, the replacement hits the keywords and nothing else. -/
theorem replaced_replaceKeywords {places : List Nat} {offset : Nat} {cs : List Char}
    (h : ∀ p ∈ places, offset ≤ p → KeywordAt offset 0 p cs) :
    Replaced places offset cs (replaceKeywords places offset 0 cs) := by
  induction hlen : cs.length using Nat.strongRecOn generalizing offset cs with
  | ind k ih =>
    subst hlen
    by_cases hmem : offset ∈ places
    · obtain ⟨bs, rfl⟩ := (h offset hmem (Nat.le_refl _)).eq_append
      have hnext : ∀ p ∈ places, offset < p → KeywordAt (offset + 5) 0 p bs :=
        fun p hp hlt => (h p hp (Nat.le_of_lt hlt)).behind (Nat.ne_of_lt hlt)
      rw [replaceKeywords_of_mem hmem]
      refine .keyword hmem (fun p hp hlt => (hnext p hp hlt).le) ?_
      have hlen : (yieldKeyword ++ bs).length = 5 + bs.length := List.length_append
      exact ih bs.length (by omega) (fun p hp hle => hnext p hp (by omega)) rfl
    · cases cs with
      | nil => exact .nil offset
      | cons c cs =>
        have hnext : ∀ p ∈ places, offset ≤ p → KeywordAt (offset + c.utf8Size) 0 p cs :=
          fun p hp hle => (h p hp hle).uncons (fun he => hmem (he ▸ hp))
        rw [replaceKeywords, if_neg (by simpa using hmem)]
        refine .char c (fun p hp => ?_) ?_
        · rcases Nat.lt_or_ge p offset with hlt | hge
          · exact .inr hlt
          · exact .inl (hnext p hp hge).le
        · exact ih cs.length (Nat.lt_succ_self _) (fun p hp hle => hnext p hp (by omega)) rfl

namespace Replaced

variable {places : List Nat} {offset : Nat} {cs ds : List Char}

theorem dropBytes?_zero (h : Replaced places offset cs ds) {d : Nat}
    (hd : shift places (offset + 0) = shift places offset + d) :
    Option.Rel (Replaced places (offset + 0)) (Text.dropBytes? 0 cs) (Text.dropBytes? d ds) := by
  obtain rfl : d = 0 := by rw [Nat.add_zero] at hd; omega
  rw [Text.dropBytes?, Text.dropBytes?]
  exact .some h

/-- What follows an offset that is not inside a keyword follows the shifted offset in the changed
text. -/
theorem dropBytes? (h : Replaced places offset cs ds) (hasc : places.Pairwise (· < ·)) {n d : Nat}
    (hout : ∀ p ∈ places, offset + n ≤ p ∨ p + 5 ≤ offset + n)
    (hd : shift places (offset + n) = shift places offset + d) :
    Option.Rel (Replaced places (offset + n)) (Text.dropBytes? n cs) (Text.dropBytes? d ds) := by
  induction h generalizing n d with
  | nil offset =>
    cases n with
    | zero => exact dropBytes?_zero (.nil offset) hd
    | succ n =>
      have hmono := shift_mono places (Nat.le_add_right offset (n + 1))
      obtain ⟨e, rfl⟩ : ∃ e, d = e + 1 := ⟨d - 1, by omega⟩
      exact .none
  | @char offset cs ds c free rest ih =>
    have hstep := shift_of_free (Nat.le_add_right offset c.utf8Size) free
    cases n with
    | zero => exact dropBytes?_zero (.char c free rest) hd
    | succ n =>
      have hmono := shift_mono places (Nat.le_add_right offset (n + 1))
      obtain ⟨e, rfl⟩ : ∃ e, d = e + 1 := ⟨d - 1, by omega⟩
      by_cases hc : c.utf8Size ≤ n + 1
      · have hend : offset + c.utf8Size + (n + 1 - c.utf8Size) = offset + (n + 1) := by omega
        have hrel := ih (n := n + 1 - c.utf8Size) (d := e + 1 - c.utf8Size) (hend ▸ hout)
          (by rw [hend]; omega)
        rw [Text.dropBytes?, Text.dropBytes?, if_pos hc, if_pos (by omega), ← hend]
        exact hrel
      · have hsame := shift_of_free (Nat.le_add_right offset (n + 1))
          (fun p hp => by have := free p hp; omega)
        rw [Text.dropBytes?, Text.dropBytes?, if_neg hc, if_neg (by omega)]
        exact .none
  | @keyword offset cs ds mem free rest ih =>
    rcases Nat.eq_zero_or_pos n with rfl | hn
    · exact dropBytes?_zero (.keyword mem free rest) hd
    · -- the keyword is dropped as a whole, and so is what replaces it
      have hlong : 5 ≤ n := by have := hout offset mem; omega
      have hend : offset + 5 + (n - 5) = offset + n := by omega
      have hstep := shift_of_mem hasc mem (show offset < offset + 5 by omega) free
      have hmono := shift_mono places (Nat.le_add_right (offset + 5) (n - 5))
      rw [hend] at hmono
      have hrel := ih (n := n - 5) (d := d - 6) (hend ▸ hout) (by rw [hend]; omega)
      rw [dropBytes?_append _ (show 5 ≤ n from hlong), dropBytes?_append _ (show 6 ≤ d by omega),
        ← hend]
      exact hrel

theorem takeBytes? (h : Replaced places offset cs ds) {n : Nat}
    (hfree : ∀ p ∈ places, offset + n ≤ p ∨ p < offset) :
    Text.takeBytes? n ds = Text.takeBytes? n cs := by
  induction h generalizing n with
  | nil offset => rfl
  | char c free rest ih =>
    cases n with
    | zero => rfl
    | succ n =>
      rw [Text.takeBytes?, Text.takeBytes?]
      split
      · rw [ih (fun p hp => by have := hfree p hp; omega)]
      · rfl
  | keyword mem free rest ih =>
    have hn : n = 0 := by have := hfree _ mem; omega
    subst hn
    rfl

end Replaced

/-- **A range that takes in no keyword reads the same in the changed text.** -/
theorem slice_replaceKeywords {places : List Nat} {cs : List Char} {start stop : Nat}
    (hasc : places.Pairwise (· < ·)) (hplaces : ∀ p ∈ places, KeywordAt 0 0 p cs)
    (hle : start ≤ stop) (hout : ∀ p ∈ places, stop ≤ p ∨ p + 5 ≤ start) :
    slice (replaceKeywords places 0 0 cs) (shift places start) (shift places stop) =
      slice cs start stop := by
  have hreplaced : Replaced places 0 cs (replaceKeywords places 0 0 cs) :=
    replaced_replaceKeywords fun p hp _ => hplaces p hp
  have hdrop := hreplaced.dropBytes? hasc (n := start) (d := shift places start)
    (fun p hp => by have := hout p hp; omega) (by rw [shift_zero, Nat.zero_add, Nat.zero_add])
  have hdist : shift places stop - shift places start = stop - start := by
    have := shift_of_free hle (fun p hp => by have := hout p hp; omega)
    omega
  rw [slice, slice, hdist]
  generalize Text.dropBytes? start cs = before, Text.dropBytes? (shift places start) _ = after
    at hdrop ⊢
  cases hdrop with
  | none => rfl
  | some hrest =>
    rw [Option.bind_some, Option.bind_some, hrest.takeBytes?]
    intro p hp
    have := hout p hp
    omega

end MinimumRelease.Recovery
