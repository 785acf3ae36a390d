import MinimumRelease.Proofs.Recovery.CutPoints

/-! # Names of placeholders

Placeholders are numbered on from the stems that the text already has. In a text
that had none at first, these are the stems of earlier placeholders: a relocation
cuts none of them, moves those inside a declaration along with it, and adds one
for each declaration that it moves (`woven_relocate`). So however often a text is
relocated, the placeholders in it have the numbers from zero on, each once
(`relocateTimes_placeholders`). -/

namespace MinimumRelease.Recovery

open Token

/-! ## Pieces of a text -/

/-- No stem arises behind a character that no word has, or before one. -/
theorem not_straddles_stem {as bs : List Char}
    (h : (∀ x, as.getLast? = some x → isWordChar x = false) ∨
      ∀ y, bs.head? = some y → isWordChar y = false) :
    ¬ Straddles placeholderStem.toList as bs := by
  intro ⟨u, v, huv, hu, hv, hua, hvb⟩
  have hword : (u ++ v).all isWordChar = true := by
    rw [← huv]
    rfl
  rw [List.all_eq_true] at hword
  rcases h with h | h
  · have hx := List.getLast?_eq_some_getLast hu
    have hlast := h _ ((getLast?_of_suffix hu hua).symm.trans hx)
    rw [hword _ (List.mem_append_left _ (List.mem_of_getLast? hx))] at hlast
    cases hlast
  · have hy := List.head?_eq_some_head hv
    have hfirst := h _ ((head?_of_leading hv hvb).symm.trans hy)
    rw [hword _ (List.mem_append_right _ (List.mem_of_head? hy))] at hfirst
    cases hfirst

namespace Woven

variable {as bs : List Char} {ms ns : List Nat}

/-- Line feeds have no stem and no part of it. -/
theorem lineFeeds_append (cs : List Char) (h : Woven ns bs) :
    Woven ns (cs.filter (· = '\n') ++ bs) := by
  have hfeed : ∀ c ∈ cs.filter (· = '\n'), c = '\n' := by simp
  have hgap : Woven [] (cs.filter (· = '\n')) := by
    refine .gap fun hsub => ?_
    have hmem : '_' ∈ placeholderStem.toList := by decide
    exact absurd (hfeed _ (hsub.mem hmem)) (by decide)
  refine hgap.append h (not_straddles_stem (.inl fun x hx => ?_))
  rw [hfeed x (List.mem_of_getLast? hx)]
  rfl

/-- A line feed separates two texts. -/
theorem append_lineFeed (ha : Woven ms as) (hb : Woven ns bs) :
    Woven (ms ++ ns) (as ++ '\n' :: bs) :=
  ha.append (lineFeeds_append ['\n'] hb) (not_straddles_stem (.inr (by simp; rfl)))

end Woven

theorem Uncut.not_straddles {ts : List Token} {i start stop : Nat} (h : Uncut ts i)
    (hstart : start ≤ i) (hstop : i ≤ stop) (hlen : stop ≤ ts.length) (n : Nat) :
    ¬ Straddles (member n) (textBetween ts start i) (textBetween ts i stop) := by
  intro hs
  refine h n (hs.mono ?_ ?_)
  · exact ⟨textBetween ts 0 start, textBetween_append ts (Nat.zero_le _) hstart⟩
  · exact ⟨textBetween ts stop ts.length, textBetween_append ts hstop hlen⟩

/-- A text that is cut at a position between its ends. -/
theorem Woven.split_at {ts : List Token} {i start stop : Nat} {ns : List Nat} (h : Uncut ts i)
    (hstart : start ≤ i) (hstop : i ≤ stop) (hlen : stop ≤ ts.length)
    (hw : Woven ns (textBetween ts start stop)) : ∃ ms₁ ms₂, ns = ms₁ ++ ms₂ ∧
      Woven ms₁ (textBetween ts start i) ∧ Woven ms₂ (textBetween ts i stop) :=
  hw.split (textBetween_append ts hstart hstop).symm (h.not_straddles hstart hstop hlen)

/-! ## The parts of a relocated text -/

/-- What moves is followed by a line feed. -/
theorem getLast?_movedText {ts : List Token} {n : Nat} {ms : List Move} {x : Char}
    (h : (movedText ts n ms).getLast? = some x) : x = '\n' := by
  induction ms generalizing n with
  | nil => cases h
  | cons m ms ih =>
    rw [movedText, List.getLast?_append] at h
    rcases Option.or_eq_some_iff.1 h with h | ⟨-, h⟩
    · exact ih h
    · rw [placeholder_eq, ← List.cons_append, ← List.append_assoc, List.getLast?_concat] at h
      exact (Option.some.inj h).symm

section Parts

variable {ts : List Token} (hts : Lexed ts) (hne : ∀ t ∈ ts, t.text ≠ [])

include hts hne

/-- What is cut out takes its members along, and each declaration gets one more. -/
theorem woven_moves {ms : List Move} {start stop : Nat} (h : Spaced ts start ms stop)
    (hlen : stop ≤ ts.length) (hcuts : ∀ m ∈ ms, Uncut ts m.start ∧ Uncut ts m.stop)
    {ns : List Nat} (hw : Woven ns (textBetween ts start stop)) (n : Nat) :
    ∃ kept moved, Woven kept (textWithout ts start stop ms) ∧ Woven moved (movedText ts n ms) ∧
      ∀ i, kept.count i + moved.count i = ns.count i + (List.range' n ms.length).count i := by
  induction ms generalizing start ns n with
  | nil => exact ⟨ns, [], hw, .nil, by simp⟩
  | cons m ms ih =>
    obtain ⟨hle, hstart, hlt, -, hrest⟩ := h
    obtain ⟨hcut, hcuts⟩ := List.forall_mem_cons.1 hcuts
    have hstop := hrest.le
    obtain ⟨before, behind, rfl, hbefore, hbehind⟩ :=
      hw.split_at hcut.1 hle (by omega) hlen
    obtain ⟨inside, behind, rfl, hinside, hbehind⟩ :=
      hbehind.split_at hcut.2 (Nat.le_of_lt hlt) hstop hlen
    obtain ⟨kept, moved, hkept, hmoved, hcount⟩ := ih hrest hcuts hbehind (n + 1)
    refine ⟨before ++ kept, inside ++ n :: moved, ?_, ?_, ?_⟩
    · rw [textWithout, List.append_assoc]
      refine hbefore.append (hkept.lineFeeds_append _) (not_straddles_stem (.inl ?_))
      intro x hx
      exact hstart.not_word_before hts hne hx
    · have hmember := Woven.cons_member n (Woven.nil.append_lineFeed hmoved)
      have hwhole := Woven.nil.append_lineFeed (hinside.append_lineFeed hmember)
      simpa [movedText, placeholder_eq] using hwhole
    · intro i
      have := hcount i
      rw [List.length_cons, List.range'_succ]
      simp only [List.count_append, List.count_cons]
      omega

/-- A relocated text has the members of the text that it was made from, and one more for each
declaration that moved. -/
theorem woven_relocatedText {ds : List Destination} {start lo : Nat} (h : Ordered ts lo ds)
    (hle : start ≤ lo) (hds : ∀ d ∈ ds, d.moves ≠ [] → Filled ts d) {ns : List Nat}
    (hw : Woven ns (textBetween ts start ts.length)) (n : Nat) :
    ∃ ns', Woven ns' (relocatedText ts start n ds) ∧ ∀ i, ns'.count i =
      ns.count i + (List.range' n (ds.flatMap (·.moves)).length).count i := by
  induction ds generalizing start lo ns n with
  | nil => exact ⟨ns, hw, by simp⟩
  | cons d ds ih =>
    obtain ⟨brace, moves⟩ := d
    have hms : Spaced ts lo moves brace := h.1
    have hclose : ClosesAt ts brace := h.2.1
    have hrest : Ordered ts (brace + 1) ds := h.2.2
    have hlo := hms.le
    obtain ⟨hfilled, hlater⟩ := List.forall_mem_cons.1 hds
    cases moves with
    | nil =>
      -- such a brace may stand in a member
      rw [relocatedText_idle h hle]
      exact ih hrest (by omega) hlater hw n
    | cons m ms =>
      obtain ⟨hcut, hcuts⟩ := (hfilled (by simp)).uncut hts hne hms hclose
      have hbrace : brace ≤ ts.length := Nat.le_of_lt hclose.lt
      obtain ⟨before, behind, rfl, hbefore, hbehind⟩ :=
        hw.split_at hcut (Nat.le_trans hle hlo) hbrace (Nat.le_refl _)
      obtain ⟨kept, moved, hkept, hmoved, hcount⟩ :=
        woven_moves hts hne (hms.weaken hle) hbrace hcuts hbefore n
      obtain ⟨rest, hwoven, hcountRest⟩ :=
        ih hrest (Nat.le_succ brace) hlater hbehind (n + (m :: ms).length)
      refine ⟨kept ++ (moved ++ rest), ?_, ?_⟩
      · have hbehindMoved : ¬ Straddles placeholderStem.toList (movedText ts n (m :: ms))
            (relocatedText ts brace (n + (m :: ms).length) ds) := by
          refine not_straddles_stem (.inl fun x hx => ?_)
          rw [getLast?_movedText hx]
          rfl
        rw [relocatedText, List.append_assoc]
        refine hkept.append (hmoved.append hwoven hbehindMoved) (not_straddles_stem (.inr ?_))
        intro y hy
        rw [← Option.some.inj hy]
        rfl
      · intro i
        have := hcount i
        have := hcountRest i
        rw [List.flatMap_cons, List.length_append, ← List.range'_append_1]
        simp only [List.count_append]
        omega

end Parts

/-! ## Repeated relocation -/

/-- New placeholders are numbered on from those of the text. -/
theorem woven_relocate {source : String} {ns : List Nat} (hw : Woven ns source.toList) :
    ∃ ns', Woven ns' (relocate source).text.toList ∧
      ns'.Perm (ns ++ List.range' ns.length (relocate source).moved.length) := by
  have hds : ∀ d ∈ destinationsOf (tokens source.toList), d.moves ≠ [] →
      Filled (tokens source.toList) d := fun d hd => filled_of_mem_destinationsOf hd
  have hwhole : Woven ns
      (textBetween (tokens source.toList) 0 (tokens source.toList).length) := by
    rwa [textBetween_all]
  obtain ⟨ns', hns', hcount⟩ := woven_relocatedText (lexed_tokens _)
    (fun t ht => text_ne_nil_of_mem_tokens ht) (ordered_destinationsOf _) (Nat.le_refl 0) hds
    hwhole ns.length
  refine ⟨ns', ?_, List.perm_iff_count.2 fun i => ?_⟩
  · rw [relocate, hw.occurrences_stem, String.toList_ofList]
    exact hns'
  · have hmoved : (relocate source).moved.length =
        ((destinationsOf (tokens source.toList)).flatMap (·.moves)).length := by
      simp [relocate, List.length_flatMap]
    rw [hcount i, hmoved, List.count_append]

/-- The source after `k` relocations, each of the text before it, and all that they moved. -/
def relocateTimes (source : String) : Nat → Relocation
  | 0 => ⟨source, []⟩
  | k + 1 =>
    let before := relocateTimes source k
    let r := relocate before.text
    ⟨r.text, before.moved ++ r.moved⟩

/-- The placeholders in the text are those of the declarations that moved so far. -/
theorem woven_relocateTimes {source : String} (h : ¬ placeholderStem.toList <:+: source.toList)
    (k : Nat) : ∃ ns, Woven ns (relocateTimes source k).text.toList ∧
      ns.Perm (List.range (relocateTimes source k).moved.length) := by
  induction k with
  | zero => exact ⟨[], .gap h, .refl _⟩
  | succ k ih =>
    obtain ⟨ns, hns, hperm⟩ := ih
    obtain ⟨ns', hns', hperm'⟩ := woven_relocate hns
    refine ⟨ns', hns', hperm'.trans ?_⟩
    have hlen : ns.length = (relocateTimes source k).moved.length := by
      simpa using hperm.length_eq
    have htotal : (relocateTimes source (k + 1)).moved.length =
        ns.length + (relocate (relocateTimes source k).text).moved.length := by
      rw [relocateTimes, List.length_append, hlen]
    rw [htotal, List.range_add, ← List.range'_eq_map_range, hlen]
    exact hperm.append_right _

/-- **Placeholders never clash.** However often a text without the stem is relocated, the stem
occurs in it once for each declaration that moved, in the placeholder members with the numbers from
zero on, each of which occurs once. -/
theorem relocateTimes_placeholders {source : String}
    (h : ¬ placeholderStem.toList <:+: source.toList) (k : Nat) :
    ∃ ns, Woven ns (relocateTimes source k).text.toList ∧
      ns.Perm (List.range (relocateTimes source k).moved.length) ∧
      occurrences placeholderStem.toList (relocateTimes source k).text.toList =
        (relocateTimes source k).moved.length ∧
      ∀ i, occurrences (member i) (relocateTimes source k).text.toList =
        if i < (relocateTimes source k).moved.length then 1 else 0 := by
  obtain ⟨ns, hns, hperm⟩ := woven_relocateTimes h k
  refine ⟨ns, hns, hperm, ?_, fun i => ?_⟩
  · rw [hns.occurrences_stem, hperm.length_eq, List.length_range]
  · rw [hns.occurrences_member, hperm.count_eq, List.count_range]

/-- A record and an enum in a method, and an enum in a method of that enum. -/
def recordAndEnums : String :=
  "class A\x7bvoid f()\x7brecord P()\x7b\x7d enum E\x7b;void m()\x7benum F\x7bY\x7d\x7d\x7d\x7d\x7d"

/-- The inner enum moves only when the text is relocated again. -/
theorem relocateTimes_recordAndEnums : (relocateTimes recordAndEnums 1).moved.length = 2 ∧
    ∃ ns, Woven ns (relocateTimes recordAndEnums 2).text.toList ∧ ns.Perm (List.range 3) ∧
      occurrences placeholderStem.toList (relocateTimes recordAndEnums 2).text.toList = 3 ∧
      ∀ i, occurrences (member i) (relocateTimes recordAndEnums 2).text.toList =
        if i < 3 then 1 else 0 := by
  have hstem : ¬ placeholderStem.toList <:+: recordAndEnums.toList := by decide +kernel
  have hfirst : (relocateTimes recordAndEnums 1).moved.length = 2 := by decide +kernel
  have hsecond : (relocateTimes recordAndEnums 2).moved.length = 3 := by decide +kernel
  have hplaceholders := relocateTimes_placeholders hstem 2
  rw [hsecond] at hplaceholders
  exact ⟨hfirst, hplaceholders⟩

end MinimumRelease.Recovery
