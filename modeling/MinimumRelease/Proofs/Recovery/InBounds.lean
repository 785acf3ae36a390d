import MinimumRelease.Proofs.Recovery.Checked
import MinimumRelease.Proofs.Recovery.LineNumbers

/-! # Relocation stays in bounds

A declaration that moves is a range of bytes, and the brace that it moves to is a
byte. Relocation cuts the source at these bytes. Here it does so with slices that
fail when their ends are out of order, out of range or inside a character
(`Checked.slice`), and with the declarations grouped by equal brace.

The ranges are in order (`InOrder`), and so no slice fails and the text is the same
(`relocate_inBounds`). -/

namespace MinimumRelease.Recovery

open Token
open Text (byteLength)

/-! ## Slices -/

namespace Checked

/-- The text from byte `start` up to byte `stop`. -/
def slice (cs : List Char) (start stop : Nat) : Checked (List Char) :=
  if start ≤ stop then
    match (Text.dropBytes? start cs).bind (Text.takeBytes? (stop - start)) with
    | some s => .ok s
    | none => .error .slice
  else .error .slice

-- an end inside a character
example : slice "é".toList 0 1 = .error .slice := rfl

theorem slice_append (as bs cs : List Char) :
    slice (as ++ bs ++ cs) (byteLength as) (byteLength as + byteLength bs) = .ok bs := by
  rw [slice, if_pos (Nat.le_add_right _ _), Nat.add_sub_cancel_left, List.append_assoc,
    Text.dropBytes?_byteLength, Option.bind_some, Text.takeBytes?_byteLength]

end Checked

theorem join_eq_textBetween (ts : List Token) (i : Nat) :
    join ts = textBetween ts 0 i ++ join (ts.drop i) := by
  rw [textBetween, List.drop_zero, Nat.sub_zero, ← join_append, List.take_append_drop]

/-- Between tokens a slice never fails. -/
theorem slice_byteAt (ts : List Token) {a b : Nat} (hab : a ≤ b) :
    Checked.slice (join ts) (byteAt ts a) (byteAt ts b) = .ok (textBetween ts a b) := by
  rw [join_eq_textBetween ts b, ← textBetween_append ts (Nat.zero_le a) hab, ← byteAt_add ts hab]
  exact Checked.slice_append _ _ _

/-! ## Offsets -/

theorem byteAt_le (ts : List Token) {a b : Nat} (hab : a ≤ b) : byteAt ts a ≤ byteAt ts b := by
  rw [← byteAt_add ts hab]
  exact Nat.le_add_right _ _

theorem textBetween_succ {ts : List Token} {i : Nat} {t : Token} (h : ts[i]? = some t) :
    textBetween ts i (i + 1) = t.text := by
  show join (tokensBetween ts i (i + 1)) = _
  rw [tokensBetween_eq_cons h (Nat.lt_succ_self i), tokensBetween, Nat.sub_self, List.take_zero,
    join_cons, join_nil, List.append_nil]

/-- No token is empty, so a later token has a later byte. -/
theorem byteAt_lt {ts : List Token} (hne : ∀ t ∈ ts, t.text ≠ []) {a b : Nat} (hab : a < b)
    (hb : b ≤ ts.length) : byteAt ts a < byteAt ts b := by
  obtain ⟨x, hx⟩ : ∃ x, ts[a]? = some x := ⟨_, List.getElem?_eq_getElem (by omega)⟩
  have htext := hne x (List.mem_of_getElem? hx)
  have hpos : 0 < byteLength x.text := by
    cases hcs : x.text with
    | nil => exact absurd hcs htext
    | cons c cs =>
      have := c.utf8Size_pos
      rw [Text.byteLength_cons]
      omega
  have hnext := byteAt_add ts (Nat.le_succ a)
  have hrest := byteAt_le ts (Nat.succ_le_of_lt hab)
  rw [textBetween_succ hx] at hnext
  omega

theorem utf8ByteSize_ofList (cs : List Char) : (String.ofList cs).utf8ByteSize = byteLength cs := by
  induction cs with
  | nil => rfl
  | cons c cs ih =>
    rw [String.ofList_cons, String.utf8ByteSize_append, String.utf8ByteSize_singleton, ih,
      Text.byteLength_cons]

/-- A token begins between two characters. -/
theorem isValid_byteAt (source : String) (i : Nat) :
    (⟨byteAt (tokens source.toList) i⟩ : String.Pos.Raw).IsValid source := by
  have hsplit := join_eq_textBetween (tokens source.toList) i
  rw [join_tokens] at hsplit
  refine String.Pos.Raw.isValid_iff_exists_append.2
    ⟨.ofList (textBetween (tokens source.toList) 0 i),
      .ofList (join ((tokens source.toList).drop i)), ?_, ?_⟩
  · rw [← String.ofList_append, ← hsplit, String.ofList_toList]
  · rw [byteAt, ← utf8ByteSize_ofList]
    rfl

theorem byteAt_length (source : String) :
    byteAt (tokens source.toList) (tokens source.toList).length = source.utf8ByteSize := by
  rw [byteAt, textBetween_all, ← utf8ByteSize_ofList, String.ofList_toList]

/-! ## Declarations in bytes -/

/-- A declaration that moves, the bytes `start` up to `stop`, and the byte that it moves to. -/
structure ByteSpan where
  start : Nat
  stop : Nat
  target : Nat
  kind : LocalKind
  name : List Char

def Span.inBytes (ts : List Token) (s : Span) : ByteSpan :=
  ⟨byteAt ts s.move.start, byteAt ts s.move.stop, byteAt ts s.target, s.move.kind, s.move.name⟩

/-- The declarations of a source that move. -/
def byteSpans (source : String) : List ByteSpan :=
  (spansOf (tokens source.toList)).map (·.inBytes (tokens source.toList))

/-- The declarations can be cut out of the source from left to right. -/
structure InOrder (source : String) (spans : List ByteSpan) : Prop where
  within : ∀ s ∈ spans, s.start < s.stop ∧ s.stop ≤ s.target ∧ s.target < source.utf8ByteSize
  spaced : spans.Pairwise fun a b => a.stop ≤ b.start
  /-- What moves to a later brace begins behind the earlier one. -/
  apart : ∀ a ∈ spans, ∀ b ∈ spans, a.target < b.target → a.target < b.start
  /-- What moves to the same brace is listed together. -/
  grouped : ∀ before a mid c behind, spans = before ++ a :: (mid ++ c :: behind) →
    a.target = c.target → ∀ b ∈ mid, b.target = a.target
  boundaries : ∀ s ∈ spans, ∀ o ∈ [s.start, s.stop, s.target],
    (⟨o⟩ : String.Pos.Raw).IsValid source

theorem ClosesAt.lt {ts : List Token} {i : Nat} (h : ClosesAt ts i) : i < ts.length := by
  obtain ⟨t, ht, -⟩ := h
  exact (List.getElem?_eq_some_iff.1 ht).1

/-- What moves to a later brace begins behind the earlier one. -/
theorem Ordered.apart {ts : List Token} {ds : List Destination} {lo : Nat} (h : Ordered ts lo ds)
    {a b : Span} (ha : a ∈ ds.flatMap Destination.spans) (hb : b ∈ ds.flatMap Destination.spans)
    (hlt : a.target < b.target) : a.target < b.move.start := by
  induction ds generalizing lo with
  | nil => cases ha
  | cons d ds ih =>
    obtain ⟨-, -, hrest⟩ := h
    have hhere : ∀ {s : Span}, s ∈ d.spans → s.target = d.brace := by
      intro s hs
      obtain ⟨m, -, rfl⟩ := List.mem_map.1 hs
      rfl
    rcases List.mem_append.1 ha with ha | ha <;> rcases List.mem_append.1 hb with hb | hb
    · rw [hhere ha, hhere hb] at hlt
      exact absurd hlt (Nat.lt_irrefl _)
    · rw [hhere ha]
      exact (hrest.mem hb).1
    · obtain ⟨h1, h2, h3, -⟩ := hrest.mem ha
      rw [hhere hb] at hlt
      omega
    · exact ih hrest ha hb

theorem inOrder_byteSpans (source : String) : InOrder source (byteSpans source) := by
  have hord := ordered_destinationsOf (tokens source.toList)
  have hlt : ∀ {a b}, a < b → b ≤ (tokens source.toList).length →
      byteAt (tokens source.toList) a < byteAt (tokens source.toList) b :=
    byteAt_lt fun t ht => text_ne_nil_of_mem_tokens ht
  have hpairs := hord.pairwise
  constructor
  · intro s hs
    obtain ⟨x, hx, rfl⟩ := List.mem_map.1 hs
    obtain ⟨-, h1, h2, h3⟩ := hord.mem hx
    have hlen := h3.lt
    refine ⟨hlt h1 (by omega), byteAt_le _ h2, ?_⟩
    rw [← byteAt_length]
    exact hlt hlen (Nat.le_refl _)
  · rw [byteSpans, List.pairwise_map]
    exact hpairs.imp fun hab => byteAt_le _ hab.1
  · intro a ha b hb hab
    obtain ⟨x, hx, rfl⟩ := List.mem_map.1 ha
    obtain ⟨y, hy, rfl⟩ := List.mem_map.1 hb
    obtain ⟨-, h1, h2, h3⟩ := hord.mem hy
    have hlen := h3.lt
    have htargets : x.target < y.target := by
      refine Nat.lt_of_not_le fun hle => ?_
      exact absurd hab (Nat.not_lt_of_le (byteAt_le _ hle))
    exact hlt (hord.apart hx hy htargets) (by omega)
  · -- targets never fall along the list
    intro before a mid c behind hsplit hac b hb
    have hmono : (byteSpans source).Pairwise fun a b => a.target ≤ b.target := by
      rw [byteSpans, List.pairwise_map]
      exact hpairs.imp fun hab => byteAt_le _ hab.2
    rw [hsplit, List.pairwise_append, List.pairwise_cons, List.pairwise_append] at hmono
    obtain ⟨-, ⟨ha, -, -, hmid⟩, -⟩ := hmono
    have hab := ha b (List.mem_append_left _ hb)
    have hbc := hmid b hb c List.mem_cons_self
    omega
  · intro s hs o ho
    obtain ⟨x, -, rfl⟩ := List.mem_map.1 hs
    simp only [List.mem_cons, List.not_mem_nil, or_false] at ho
    rcases ho with rfl | rfl | rfl <;> exact isValid_byteAt source _

/-! ## The text put together from slices -/

namespace Checked

/-- The text from byte `cursor` up to byte `target` with the declarations cut out. -/
def cut (cs : List Char) (cursor target : Nat) : List ByteSpan → Checked (List Char)
  | [] => slice cs cursor target
  | s :: spans => do
    let before ← slice cs cursor s.start
    let inside ← slice cs s.start s.stop
    let rest ← cut cs s.stop target spans
    .ok (before ++ inside.filter (· = '\n') ++ rest)

/-- The declarations, each followed by its placeholder, and what is reported about them. -/
def paste (cs : List Char) (n : Nat) : List ByteSpan → Checked (List Char × List Relocated)
  | [] => .ok ([], [])
  | s :: spans => do
    let inside ← slice cs s.start s.stop
    let before ← slice cs 0 s.start
    let (text, reports) ← paste cs (n + 1) spans
    .ok ('\n' :: inside ++ '\n' :: placeholder n ++ text,
      ⟨s.kind, String.ofList s.name, before.count '\n' + 1⟩ :: reports)

/-- The text from byte `cursor` on with all declarations moved, one group with a common target
after the other. -/
def assemble (cs : List Char) (cursor n : Nat) :
    List ByteSpan → Checked (List Char × List Relocated)
  | [] => do
    let rest ← slice cs cursor (byteLength cs)
    .ok (rest, [])
  | s :: spans => do
    let group := s :: spans.takeWhile (·.target = s.target)
    let kept ← cut cs cursor s.target group
    let (moved, reports) ← paste cs n group
    let (rest, later) ← assemble cs s.target (n + group.length)
      (spans.dropWhile (·.target = s.target))
    .ok (kept ++ moved ++ rest, reports ++ later)
termination_by spans => spans.length
decreasing_by exact Nat.lt_succ_of_le (List.dropWhile_suffix _).length_le

/-- Relocation with every counter, every index and every slice checked. -/
def relocate (source : String) : Checked Relocation := do
  let ts := tokens source.toList
  let spans ← checkedSpans ts
  if spans.isEmpty then .ok ⟨source, []⟩
  else do
    let (text, moved) ← assemble source.toList 0
      (occurrences placeholderStem.toList source.toList) (spans.map (·.inBytes ts))
    .ok ⟨String.ofList text, moved⟩

theorem cut_eq {ts : List Token} {ms : List Move} {start stop : Nat}
    (h : Spaced ts start ms stop) : cut (join ts) (byteAt ts start) (byteAt ts stop)
      ((Destination.spans ⟨stop, ms⟩).map (·.inBytes ts)) = .ok (textWithout ts start stop ms) := by
  induction ms generalizing start with
  | nil => exact slice_byteAt ts h
  | cons m ms ih =>
    obtain ⟨hle, -, hlt, -, hrest⟩ := h
    show (slice _ _ (byteAt ts m.start) >>= _) = _
    rw [slice_byteAt ts hle]
    show (slice _ (byteAt ts m.start) (byteAt ts m.stop) >>= _) = _
    rw [slice_byteAt ts (Nat.le_of_lt hlt)]
    show (cut _ (byteAt ts m.stop) _ _ >>= _) = _
    have hih := ih hrest
    rw [Destination.spans] at hih
    rw [hih]
    rfl

theorem paste_eq {ts : List Token} {ms : List Move} {lo hi : Nat} (h : Spaced ts lo ms hi)
    (brace n : Nat) : paste (join ts) n ((Destination.spans ⟨brace, ms⟩).map (·.inBytes ts)) =
      .ok (movedText ts n ms, ms.map (·.report ts)) := by
  induction ms generalizing lo n with
  | nil => rfl
  | cons m ms ih =>
    obtain ⟨-, -, hlt, -, hrest⟩ := h
    show (slice _ (byteAt ts m.start) (byteAt ts m.stop) >>= _) = _
    rw [slice_byteAt ts (Nat.le_of_lt hlt)]
    show (slice _ (byteAt ts 0) (byteAt ts m.start) >>= _) = _
    rw [slice_byteAt ts (Nat.zero_le _)]
    show (paste _ (n + 1) _ >>= _) = _
    have hih := ih hrest (n + 1)
    rw [Destination.spans] at hih
    rw [hih]
    rfl

end Checked

/-! ## Braces that nothing moves to -/

theorem textBetween_append_textWithout {ts : List Token} {ms : List Move} {a b stop : Nat}
    (hab : a ≤ b) (h : Spaced ts b ms stop) :
    textBetween ts a b ++ textWithout ts b stop ms = textWithout ts a stop ms := by
  cases ms with
  | nil => exact textBetween_append ts hab h
  | cons m ms =>
    obtain ⟨hle, -⟩ := h
    rw [textWithout, textWithout, ← textBetween_append ts hab hle]
    simp only [List.append_assoc]

/-- Where the text is cut without need does not matter. -/
theorem textBetween_append_relocatedText {ts : List Token} {ds : List Destination} {a b lo : Nat}
    (h : Ordered ts lo ds) (hab : a ≤ b) (hb : b ≤ lo) (hlen : b ≤ ts.length) (n : Nat) :
    textBetween ts a b ++ relocatedText ts b n ds = relocatedText ts a n ds := by
  cases ds with
  | nil => exact textBetween_append ts hab hlen
  | cons d ds =>
    obtain ⟨hms, -⟩ := h
    rw [relocatedText, relocatedText, ← textBetween_append_textWithout hab (hms.weaken hb)]
    simp only [List.append_assoc]

/-- A brace that nothing moves to is a place like any other. -/
theorem relocatedText_idle {ts : List Token} {ds : List Destination} {start lo brace : Nat}
    (h : Ordered ts lo (⟨brace, []⟩ :: ds)) (hle : start ≤ lo) (n : Nat) :
    relocatedText ts start n (⟨brace, []⟩ :: ds) = relocatedText ts start n ds := by
  obtain ⟨hlo, hclose, hrest⟩ := h
  rw [← textBetween_append_relocatedText hrest (Nat.le_trans hle hlo) (Nat.le_succ brace)
    (Nat.le_of_lt hclose.lt), relocatedText]
  simp [textWithout, movedText]

/-! ## No slice fails -/

/-- A list falls apart where a property ends. -/
theorem takeWhile_dropWhile_append {α : Type} {p : α → Bool} {as bs : List α}
    (ha : ∀ a ∈ as, p a = true) (hb : ∀ b ∈ bs, p b = false) :
    (as ++ bs).takeWhile p = as ∧ (as ++ bs).dropWhile p = bs := by
  rw [List.takeWhile_append_of_pos ha, List.dropWhile_append_of_pos ha]
  cases bs with
  | nil => simp
  | cons b bs => simp [hb b List.mem_cons_self]

namespace Checked

/-- Grouping by target finds the destinations, except those that nothing moves to. -/
theorem assemble_eq {ts : List Token} (hne : ∀ t ∈ ts, t.text ≠ []) {ds : List Destination}
    {start lo : Nat} (h : Ordered ts lo ds) (hle : start ≤ lo) (hlen : start ≤ ts.length)
    (n : Nat) : assemble (join ts) (byteAt ts start) n
      ((ds.flatMap Destination.spans).map (·.inBytes ts)) =
        .ok (relocatedText ts start n ds, ds.flatMap fun d => d.moves.map (·.report ts)) := by
  induction ds generalizing start lo n with
  | nil =>
    have hall : byteLength (join ts) = byteAt ts ts.length := by
      rw [byteAt, textBetween, List.drop_zero, Nat.sub_zero, List.take_length]
    rw [List.flatMap_nil, List.map_nil, assemble, hall, slice_byteAt ts hlen]
    rfl
  | cons d ds ih =>
    obtain ⟨brace, moves⟩ := d
    have hrest : Ordered ts (brace + 1) ds := h.2.2
    have hbrace : brace < ts.length := h.2.1.lt
    have hms : Spaced ts lo moves brace := h.1
    have hlo := hms.le
    cases moves with
    | nil =>
      rw [relocatedText_idle h hle]
      exact ih hrest (by omega) hlen n
    | cons m ms =>
      let first := Span.inBytes ts ⟨m, brace⟩
      let group := (Destination.spans ⟨brace, ms⟩).map (·.inBytes ts)
      let later := (ds.flatMap Destination.spans).map (·.inBytes ts)
      -- the first group is what moves to this brace
      have hgroup : ∀ s ∈ group, decide (s.target = first.target) = true := by
        intro s hs
        obtain ⟨x, hx, rfl⟩ := List.mem_map.1 hs
        obtain ⟨k, -, rfl⟩ := List.mem_map.1 hx
        exact decide_eq_true rfl
      have hlater : ∀ s ∈ later, decide (s.target = first.target) = false := by
        intro s hs
        obtain ⟨x, hx, rfl⟩ := List.mem_map.1 hs
        obtain ⟨h1, h2, h3, h4⟩ := hrest.mem hx
        have hlast := h4.lt
        have hbehind : byteAt ts brace < byteAt ts x.target :=
          byteAt_lt hne (by omega) (Nat.le_of_lt hlast)
        exact decide_eq_false (Nat.ne_of_gt hbehind)
      obtain ⟨htake, hdrop⟩ := takeWhile_dropWhile_append hgroup hlater
      have hsplit : ((⟨brace, m :: ms⟩ :: ds).flatMap Destination.spans).map (·.inBytes ts) =
          first :: (group ++ later) := by
        simp [first, group, later, Destination.spans]
      have hlength : (first :: group).length = (m :: ms).length := by
        simp [group, Destination.spans]
      have hcut : cut (join ts) (byteAt ts start) first.target (first :: group) = _ :=
        cut_eq (hms.weaken hle)
      have hpaste : paste (join ts) n (first :: group) = _ := paste_eq hms brace n
      have hih : assemble (join ts) first.target (n + (m :: ms).length) later = _ :=
        ih hrest (Nat.le_succ brace) (Nat.le_of_lt hbrace) (n + (m :: ms).length)
      rw [hsplit, assemble]
      simp only [htake, hdrop, hcut, hpaste, hlength, hih]
      rfl

/-- No slice that relocation takes fails. -/
theorem relocate_eq (source : String) : relocate source = .ok (Recovery.relocate source) := by
  have hord := ordered_destinationsOf (tokens source.toList)
  have hassemble := assemble_eq (fun t ht => text_ne_nil_of_mem_tokens ht) hord (Nat.le_refl 0)
    (Nat.zero_le _) (occurrences placeholderStem.toList source.toList)
  have hzero : byteAt (tokens source.toList) 0 = 0 := rfl
  rw [join_tokens, hzero] at hassemble
  rw [relocate, checkedSpans_eq]
  show (if (spansOf _).isEmpty then _ else _) = _
  split
  · next hnone =>
    have hall : slice source.toList 0 (byteLength source.toList) = .ok source.toList := by
      simpa using slice_append [] source.toList []
    have hspans : (destinationsOf (tokens source.toList)).flatMap Destination.spans = [] :=
      List.isEmpty_iff.1 hnone
    rw [hspans, List.map_nil, assemble, hall] at hassemble
    obtain ⟨htext, hmoved⟩ := Prod.mk.inj (Except.ok.inj hassemble)
    show Except.ok _ = Except.ok (Relocation.mk (String.ofList (relocatedText _ _ _ _)) _)
    rw [← htext, ← hmoved, String.ofList_toList]
  · show (assemble _ _ _ ((spansOf _).map _) >>= _) = _
    rw [spansOf, hassemble]
    rfl

end Checked

/-- **Relocation cannot fail.** Looking ahead, no counter goes below zero, and the machine that
checks its indices too runs into no fault and finds the spans of the scanner. In bytes these begin
and end between two characters, one behind the other and each before its brace, and what moves to
the same brace stands together. Every token is the slice between its bytes, and with all slices
checked the result of a relocation is the same. -/
theorem relocate_inBounds (source : String) :
    (∀ kind rest, Checked.recognise kind rest = .ok (recognise? kind rest)) ∧
    (∀ rest, Checked.annotationRest rest = .ok (annotationRest? rest)) ∧
    checkedSpans (tokens source.toList) = .ok (spansOf (tokens source.toList)) ∧
    InOrder source (byteSpans source) ∧
    (∀ i t, (tokens source.toList)[i]? = some t → Checked.slice source.toList
      (byteAt (tokens source.toList) i) (byteAt (tokens source.toList) (i + 1)) = .ok t.text) ∧
    Checked.relocate source = .ok (relocate source) := by
  refine ⟨Checked.recognise_eq, Checked.annotationRest_eq, checkedSpans_eq _,
    inOrder_byteSpans source, ?_, Checked.relocate_eq source⟩
  intro i t ht
  have hslice := slice_byteAt (tokens source.toList) (Nat.le_succ i)
  rwa [join_tokens, textBetween_succ ht] at hslice

end MinimumRelease.Recovery
