import MinimumRelease.Proofs.Recovery.Places
import MinimumRelease.Proofs.Text.Patch

/-! # What a substitution rewrites

A substitution patches the source at the offsets that it reports, and nowhere
else: `return` is put in place of `yield` (`patched_substituteYield`). Each patch
makes the text one byte longer and adds no line feed. So the offset of the `k`-th
keyword in the new text is the old one and `k` more, and there the patches can be
taken back. -/

namespace MinimumRelease.Recovery

open Text (byteLength bytes slice lineAt lineFeed Patch Patched)

/-! ## Offsets that are reported -/

/-- Keywords do not overlap. -/
theorem KeywordAt.apart {p q : Nat} {cs : List Char} (hp : KeywordAt 0 0 p cs)
    (hq : KeywordAt 0 0 q cs) (hlt : p < q) : p + 5 ≤ q := by
  obtain ⟨as, bs, rfl, rfl, -⟩ := hp
  obtain ⟨as', bs', hcs, rfl, -⟩ := hq
  have hfive : byteLength yieldKeyword = 5 := rfl
  rcases Place.order (p := ⟨as, bs⟩) (q := ⟨as', bs'⟩) hcs with he | ⟨t, ht, -⟩ | ⟨t, ht, -⟩
  · cases he
    omega
  · rw [show as' = _ from ht]
    simp only [Text.byteLength_append, hfive]
    omega
  · rw [show as = _ from ht] at hlt
    simp only [Text.byteLength_append] at hlt
    omega

theorem KeywordAt.slice_eq {p : Nat} {cs : List Char} (h : KeywordAt 0 0 p cs) :
    slice cs p (p + 5) = yieldKeyword := by
  obtain ⟨as, bs, rfl, rfl, -⟩ := h
  rw [Nat.zero_add]
  exact Text.slice_append as yieldKeyword bs

theorem not_covered_of_mem_yieldCandidates {source : String} {o : Nat}
    (h : o ∈ yieldCandidates source) : ¬ Covered o 0 (tokens source.toList) := by
  obtain ⟨p, hp, rfl⟩ := List.mem_map.1 h
  have hfilter := (List.mem_filter.1 hp).2
  rw [Bool.and_eq_true, Bool.not_eq_true'] at hfilter
  rw [← inRanges_coveredRanges, hfilter.1]
  exact Bool.false_ne_true

section Offsets

variable (source : String) (keep : Nat → Bool)

theorem mem_offsets_iff (o : Nat) : o ∈ (substituteYield source keep).offsets ↔
    o ∈ yieldCandidates source ∧ keep o = true :=
  List.mem_filter

theorem keywordAt_of_mem_offsets {o : Nat} (h : o ∈ (substituteYield source keep).offsets) :
    KeywordAt 0 0 o source.toList :=
  keywordAt_of_mem_yieldCandidates ((mem_offsets_iff source keep o).1 h).1

theorem offsets_apart :
    (substituteYield source keep).offsets.Pairwise fun a b => a + 5 ≤ b := by
  have hasc : (substituteYield source keep).offsets.Pairwise (· < ·) :=
    (yieldCandidates_ascending source).filter _
  refine hasc.imp_of_mem fun ha hb hlt => ?_
  exact (keywordAt_of_mem_offsets source keep ha).apart (keywordAt_of_mem_offsets source keep hb)
    hlt

end Offsets

/-! ## Patches -/

/-- `return` in place of the `yield` at byte `o`. -/
def keywordPatch (o : Nat) : Patch := ⟨o, bytes yieldKeyword, bytes returnKeyword⟩

/-- `yield` in place of the `return` at byte `o`. -/
def keywordUndo (o : Nat) : Patch := ⟨o, bytes returnKeyword, bytes yieldKeyword⟩

/-- The replacement of keywords is a patch at each place that is still ahead. -/
theorem Replaced.patched {places : List Nat} {offset : Nat} {cs ds : List Char}
    (h : Replaced places offset cs ds) (hasc : places.Pairwise (· < ·))
    (hplaces : ∀ p ∈ places, offset ≤ p → KeywordAt offset 0 p cs) :
    Patched offset ((places.filter (offset ≤ ·)).map keywordPatch) (bytes cs) (bytes ds) := by
  induction h with
  | nil offset =>
    have hnone : places.filter (offset ≤ ·) = [] := by
      refine List.filter_eq_nil_iff.2 fun p hp hle => ?_
      obtain ⟨as, bs, hcs, -⟩ := hplaces p hp (of_decide_eq_true hle)
      simp [yieldKeyword] at hcs
    rw [hnone]
    exact .done _ _
  | @char offset cs ds c free rest ih =>
    have hsame : places.filter (offset ≤ ·) = places.filter (offset + c.utf8Size ≤ ·) := by
      refine List.filter_congr fun p hp => decide_eq_decide.2 ?_
      have := free p hp
      omega
    have hpos := c.utf8Size_pos
    rw [hsame]
    refine (ih fun p hp hle => ?_).prepend (by rw [String.length_utf8EncodeChar])
    exact (hplaces p hp (by omega)).uncons (by omega)
  | @keyword offset cs ds mem free rest ih =>
    have hfirst : places.filter (offset ≤ ·) = offset :: places.filter (offset + 5 ≤ ·) := by
      obtain ⟨as, bs, rfl⟩ := List.append_of_mem mem
      obtain ⟨-, hbs, has⟩ := List.pairwise_append.1 hasc
      have hbefore : ∀ k, offset ≤ k → as.filter (k ≤ ·) = [] := fun k hk =>
        List.filter_eq_nil_iff.2 fun p hp => by
          have := has p hp offset List.mem_cons_self
          simp only [decide_eq_true_eq]
          omega
      have hbehind : ∀ k, k ≤ offset + 5 → bs.filter (k ≤ ·) = bs := fun k hk =>
        List.filter_eq_self.2 fun p hp => by
          have := free p (by simp [hp]) ((List.pairwise_cons.1 hbs).1 p hp)
          simp only [decide_eq_true_eq]
          omega
      rw [List.filter_append, List.filter_append, hbefore offset (Nat.le_refl _),
        hbefore (offset + 5) (by omega), List.filter_cons_of_pos (by simp),
        List.filter_cons_of_neg (by simp), hbehind offset (by omega),
        hbehind (offset + 5) (Nat.le_refl _)]
      rfl
    rw [hfirst, Text.bytes_append, Text.bytes_append]
    refine .patch [] (keywordPatch offset) rfl (ih fun p hp hle => ?_)
    exact (hplaces p hp (by omega)).behind (by omega)

theorem replaced_substituteYield (source : String) (keep : Nat → Bool) :
    Replaced (substituteYield source keep).offsets 0 source.toList
      (substituteYield source keep).text.toList := by
  have hplaces : ∀ p ∈ (substituteYield source keep).offsets, 0 ≤ p →
      KeywordAt 0 0 p source.toList := fun p hp _ => keywordAt_of_mem_offsets source keep hp
  rw [substituteYield, String.toList_ofList]
  exact replaced_replaceKeywords hplaces

theorem patched_substituteYield (source : String) (keep : Nat → Bool) :
    Patched 0 ((substituteYield source keep).offsets.map keywordPatch) (bytes source.toList)
      (bytes (substituteYield source keep).text.toList) := by
  have hasc : (substituteYield source keep).offsets.Pairwise (· < ·) :=
    (offsets_apart source keep).imp fun h => by omega
  have hpatched := (replaced_substituteYield source keep).patched hasc
    fun p hp _ => keywordAt_of_mem_offsets source keep hp
  rwa [List.filter_eq_self.2 (by simp)] at hpatched

/-! ## Counts -/

theorem sum_map_keywordPatch (f : Patch → Nat) {n : Nat} (hf : ∀ o, f (keywordPatch o) = n)
    (places : List Nat) : ((places.map keywordPatch).map f).sum = n * places.length := by
  rw [List.map_map, show f ∘ keywordPatch = fun _ => n from funext hf]
  simp [Nat.mul_comm]

theorem before_map_keywordPatch (f : Patch → Nat) {n : Nat} (hf : ∀ o, f (keywordPatch o) = n)
    (places : List Nat) (o : Nat) : Patch.before f (places.map keywordPatch) o =
      n * places.countP (· + 5 ≤ o) := by
  rw [Patch.before, List.filter_map, sum_map_keywordPatch f hf, ← List.countP_eq_length_filter]
  rfl

/-- Each patch moves what stands behind it by one byte. -/
theorem landing_map_keywordPatch {places : List Nat} {o : Nat}
    (hout : ∀ p ∈ places, o < p ∨ p + 5 ≤ o) :
    Patch.landing (places.map keywordPatch) o = shift places o := by
  have hcount : places.countP (· < o) = places.countP (· + 5 ≤ o) := by
    refine List.countP_congr fun p hp => ?_
    have := hout p hp
    simp only [decide_eq_true_eq]
    omega
  rw [Patch.landing, before_map_keywordPatch (·.new.length) (n := 6) (fun _ => rfl),
    before_map_keywordPatch (·.old.length) (n := 5) (fun _ => rfl), shift, hcount]
  omega

/-- Taken back, the patches stand one byte further for each of them that stands before. -/
theorem undo_map_keywordPatch {places : List Nat} (hapart : places.Pairwise fun a b => a + 5 ≤ b)
    {a : Nat} (ha : ∀ p ∈ places, a ≤ p) (k : Nat) :
    Patch.undo a (a + k) (places.map keywordPatch) =
      (places.zipIdx k).map fun p => keywordUndo (p.1 + p.2) := by
  induction places generalizing a k with
  | nil => rfl
  | cons p places ih =>
    obtain ⟨hp, hrest⟩ := List.pairwise_cons.1 hapart
    have hle := ha p List.mem_cons_self
    have hstart : a + k + (p - a) = p + k := by omega
    have hnext : p + k + (bytes returnKeyword).length = p + 5 + (k + 1) := by
      show p + k + 6 = p + 5 + (k + 1)
      omega
    rw [List.map_cons, Patch.undo, List.zipIdx_cons, List.map_cons]
    show (⟨a + k + (p - a), bytes returnKeyword, bytes yieldKeyword⟩ : Patch) ::
      Patch.undo (p + 5) (a + k + (p - a) + (bytes returnKeyword).length) _ = _
    rw [hstart, hnext, ih hrest hp]
    rfl

/-! ## The whole substitution -/

/-- What a substitution in `source` reports is what it does. -/
structure Substitution.Rewrites (source : String) (keep : Nat → Bool) (s : Substitution) :
    Prop where
  /-- In ascending order, and no two keywords overlap. -/
  apart : s.offsets.Pairwise fun a b => a + 5 ≤ b
  /-- All candidates that `keep` accepts, and no others. -/
  accepted : ∀ o, o ∈ s.offsets ↔ o ∈ yieldCandidates source ∧ keep o = true
  inCode : ∀ o ∈ s.offsets, ¬ Covered o 0 (tokens source.toList)
  reads : ∀ o ∈ s.offsets, slice source.toList o (o + 5) = yieldKeyword
  rewritten : Patched 0 (s.offsets.map keywordPatch) (bytes source.toList) (bytes s.text.toList)
  size : byteLength s.text.toList = byteLength source.toList + s.count
  restored : Patched 0 (s.offsets.zipIdx.map fun p => keywordUndo (p.1 + p.2))
    (bytes s.text.toList) (bytes source.toList)
  /-- A byte outside the keywords is still there, on the same line. -/
  lines : ∀ o < byteLength source.toList, (∀ p ∈ s.offsets, o < p ∨ p + 5 ≤ o) →
    (bytes s.text.toList)[shift s.offsets o]? = (bytes source.toList)[o]? ∧
      lineAt (bytes s.text.toList) (shift s.offsets o) = lineAt (bytes source.toList) o

/-- **A substitution rewrites exactly what it reports, and can be undone.** -/
theorem substituteYield_rewrites (source : String) (keep : Nat → Bool) :
    (substituteYield source keep).Rewrites source keep := by
  have hapart := offsets_apart source keep
  have hpatched := patched_substituteYield source keep
  refine ⟨hapart, mem_offsets_iff source keep, ?_, ?_, hpatched, ?_, ?_, ?_⟩
  · exact fun o ho => not_covered_of_mem_yieldCandidates ((mem_offsets_iff source keep o).1 ho).1
  · exact fun o ho => (keywordAt_of_mem_offsets source keep ho).slice_eq
  · have hlength := hpatched.length
    rw [sum_map_keywordPatch (·.old.length) (n := 5) (fun _ => rfl),
      sum_map_keywordPatch (·.new.length) (n := 6) (fun _ => rfl), Text.length_bytes,
      Text.length_bytes] at hlength
    rw [Substitution.count]
    omega
  · have hundo : Patched 0 (Patch.undo 0 (0 + 0) _) _ _ := hpatched.undo 0
    rwa [undo_map_keywordPatch hapart (fun p _ => Nat.zero_le p)] at hundo
  · intro o ho hout
    have hspares : ∀ p ∈ (substituteYield source keep).offsets.map keywordPatch,
        p.Spares o := by
      intro p hp
      obtain ⟨q, hq, rfl⟩ := List.mem_map.1 hp
      exact hout q hq
    obtain ⟨hbyte, hline⟩ := hpatched.kept (by rwa [Text.length_bytes]) hspares
    rw [landing_map_keywordPatch hout] at hbyte hline
    rw [before_map_keywordPatch (·.old.count lineFeed) (n := 0) (fun _ => rfl),
      before_map_keywordPatch (·.new.count lineFeed) (n := 0) (fun _ => rfl)] at hline
    exact ⟨hbyte, by omega⟩

end MinimumRelease.Recovery
