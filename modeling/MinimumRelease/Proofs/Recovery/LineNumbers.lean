import MinimumRelease.Proofs.Recovery.WholeDeclaration
import MinimumRelease.Proofs.Text.Patch

/-! # Lines of a relocated text

Relocation patches the source. In place of a declaration that moves it leaves the
line feeds of the declaration, and before the brace that the declaration moves to
it puts three more of them than that, two around the declaration and one behind
its placeholder (`patched_relocate`). So a byte that does not move keeps its line up
to the first such brace, and behind it each declaration that has arrived counts with
its line feeds and three (`relocate_keepsLines`). -/

namespace MinimumRelease.Recovery

open Token
open Text (byteLength bytes lineAt lineFeed Patch Patched)

/-! ## Bytes of tokens -/

/-- The byte at which the token at position `i` begins. -/
def byteAt (ts : List Token) (i : Nat) : Nat := byteLength (textBetween ts 0 i)

theorem byteAt_add (ts : List Token) {a b : Nat} (hab : a ≤ b) :
    byteAt ts a + byteLength (textBetween ts a b) = byteAt ts b := by
  rw [byteAt, byteAt, ← textBetween_append ts (Nat.zero_le a) hab, Text.byteLength_append]

theorem textBetween_all (cs : List Char) :
    textBetween (tokens cs) 0 (tokens cs).length = cs := by
  rw [textBetween, List.drop_zero, Nat.sub_zero, List.take_length, join_tokens]

/-- Line feeds before a token, counted in tokens and in bytes. -/
theorem lineAt_byteAt (cs : List Char) (i : Nat) :
    lineAt (bytes cs) (byteAt (tokens cs) i) = (textBetween (tokens cs) 0 i).count '\n' + 1 := by
  have hsplit : cs = textBetween (tokens cs) 0 i ++ join ((tokens cs).drop i) := by
    rw [textBetween, List.drop_zero, Nat.sub_zero, ← join_append, List.take_append_drop,
      join_tokens]
  have hbytes : bytes cs = bytes (textBetween (tokens cs) 0 i) ++
      bytes (join ((tokens cs).drop i)) := by
    rw [← Text.bytes_append, ← hsplit]
  rw [lineAt, byteAt, hbytes, ← Text.length_bytes, List.take_left, Text.count_bytes]

/-! ## Patches of a relocation -/

/-- A declaration is cut out, and leaves its line feeds. -/
def cutPatch (ts : List Token) (m : Move) : Patch :=
  ⟨byteAt ts m.start, bytes (textBetween ts m.start m.stop),
    bytes ((textBetween ts m.start m.stop).filter (· = '\n'))⟩

/-- What is put before a brace for a declaration and its placeholder with the number `n`. -/
def pasted (ts : List Token) (n : Nat) (m : Move) : List Char :=
  '\n' :: textBetween ts m.start m.stop ++ '\n' :: placeholder n

/-- A declaration is put before the brace at position `brace`. -/
def pastePatch (ts : List Token) (brace n : Nat) (m : Move) : Patch :=
  ⟨byteAt ts brace, [], bytes (pasted ts n m)⟩

/-- The patches that make the moves. Placeholders are numbered from `n`. -/
def relocationPatches (ts : List Token) (n : Nat) : List Destination → List Patch
  | [] => []
  | d :: ds => d.moves.map (cutPatch ts) ++
      (d.moves.zipIdx n).map (fun m => pastePatch ts d.brace m.2 m.1) ++
      relocationPatches ts (n + d.moves.length) ds

theorem cutPatch_stop {ts : List Token} {m : Move} (h : m.start ≤ m.stop) :
    (cutPatch ts m).stop = byteAt ts m.stop := by
  rw [← byteAt_add ts h, ← Text.length_bytes]
  rfl

theorem patched_textWithout {ts : List Token} {ms : List Move} {start stop : Nat}
    (h : Spaced ts start ms stop) : Patched (byteAt ts start) (ms.map (cutPatch ts))
      (bytes (textBetween ts start stop)) (bytes (textWithout ts start stop ms)) := by
  induction ms generalizing start with
  | nil => exact .done _ _
  | cons m ms ih =>
    obtain ⟨hle, -, hlt, -, hrest⟩ := h
    have hstop := hrest.le
    have hbehind : Patched (cutPatch ts m).stop (ms.map (cutPatch ts))
        (bytes (textBetween ts m.stop stop)) (bytes (textWithout ts m.stop stop ms)) := by
      rw [cutPatch_stop (Nat.le_of_lt hlt)]
      exact ih hrest
    have hstart : byteAt ts start + (bytes (textBetween ts start m.start)).length =
        (cutPatch ts m).start := by
      rw [Text.length_bytes, byteAt_add ts hle]
      rfl
    rw [← textBetween_append ts (Nat.le_trans hle (Nat.le_of_lt hlt)) hstop,
      ← textBetween_append ts hle (Nat.le_of_lt hlt), textWithout]
    simp only [Text.bytes_append]
    exact .patch _ (cutPatch ts m) hstart hbehind

theorem patched_movedText (ts : List Token) (brace n : Nat) (ms : List Move) :
    Patched (byteAt ts brace) ((ms.zipIdx n).map fun m => pastePatch ts brace m.2 m.1) []
      (bytes (movedText ts n ms)) := by
  induction ms generalizing n with
  | nil => exact .done _ _
  | cons m ms ih =>
    have hmoved : movedText ts n (m :: ms) = pasted ts n m ++ movedText ts (n + 1) ms := rfl
    rw [hmoved, Text.bytes_append]
    exact .patch [] (pastePatch ts brace n m) rfl (ih (n + 1))

theorem patched_relocatedText {ts : List Token} {ds : List Destination} {start lo : Nat}
    (h : Ordered ts lo ds) (hle : start ≤ lo) (n : Nat) :
    Patched (byteAt ts start) (relocationPatches ts n ds) (bytes (textBetween ts start ts.length))
      (bytes (relocatedText ts start n ds)) := by
  induction ds generalizing start lo n with
  | nil => exact .done _ _
  | cons d ds ih =>
    obtain ⟨hms, ⟨x, hx, -⟩, hrest⟩ := h
    have hbrace : d.brace < ts.length := (List.getElem?_eq_some_iff.1 hx).1
    have hbefore : start ≤ d.brace := (hms.weaken hle).le
    have hcuts := patched_textWithout (hms.weaken hle)
    have hpastes := patched_movedText ts d.brace n d.moves
    have hbehind := ih hrest (Nat.le_succ d.brace) (n + d.moves.length)
    have hat : byteAt ts start + (bytes (textBetween ts start d.brace)).length =
        byteAt ts d.brace := by
      rw [Text.length_bytes, byteAt_add ts hbefore]
    rw [relocatedText, relocationPatches,
      ← textBetween_append ts hbefore (Nat.le_of_lt hbrace)]
    simp only [Text.bytes_append, List.append_assoc]
    exact hcuts.append (hpastes.append hbehind rfl) hat

/-- The patches that relocation makes in a source. -/
def patchesOf (source : String) : List Patch :=
  relocationPatches (tokens source.toList) (firstNumber source)
    (destinationsOf (tokens source.toList))

/-- **Relocation makes these patches and no others.** -/
theorem patched_relocate (source : String) : Patched 0 (patchesOf source) (bytes source.toList)
    (bytes (relocate source).text.toList) := by
  have h := patched_relocatedText (ordered_destinationsOf (tokens source.toList)) (Nat.le_refl 0)
    (firstNumber source)
  rw [textBetween_all] at h
  rw [relocate, String.toList_ofList]
  exact h

/-! ## Line feeds of patches -/

/-- Line feeds in a declaration that moves. -/
def Span.lineFeeds (ts : List Token) (s : Span) : Nat :=
  (textBetween ts s.move.start s.move.stop).count '\n'

theorem count_cutPatch (ts : List Token) (m : Move) :
    (cutPatch ts m).new.count lineFeed = (cutPatch ts m).old.count lineFeed := by
  show (bytes _).count lineFeed = (bytes _).count lineFeed
  rw [Text.count_bytes, Text.count_bytes, List.count_filter]
  rfl

theorem count_placeholder (n : Nat) : (placeholder n).count '\n' = 1 := by
  have hnumber : (Nat.repr n).toList.count '\n' = 0 := by
    refine List.count_eq_zero.2 fun hmem => ?_
    exact absurd (isWordChar_of_mem_repr hmem) (by decide)
  have hvoid : "void ".toList.count '\n' = 0 := by decide
  have hstem : placeholderStem.toList.count '\n' = 0 := by decide
  have hend : "__() \x7b\x7d\n".toList.count '\n' = 1 := by decide
  rw [placeholder]
  simp only [String.toList_append, List.count_append, hvoid, hstem, hnumber, hend]

theorem count_pastePatch (ts : List Token) (brace n : Nat) (m : Move) :
    (pastePatch ts brace n m).new.count lineFeed =
      (textBetween ts m.start m.stop).count '\n' + 3 := by
  show (bytes (pasted ts n m)).count lineFeed = _
  rw [Text.count_bytes, pasted, List.count_append, List.count_cons_self, List.count_cons_self,
    count_placeholder]

theorem before_append (f : Patch → Nat) (ps qs : List Patch) (o : Nat) :
    Patch.before f (ps ++ qs) o = Patch.before f ps o + Patch.before f qs o := by
  rw [Patch.before, List.filter_append, List.map_append, List.sum_append_nat]
  rfl

theorem sum_filter_if {α : Type} (xs : List α) (f : α → Nat) (c : Prop) [Decidable c] :
    ((xs.filter fun _ => c).map f).sum = if c then (xs.map f).sum else 0 := by
  split
  · next hc => rw [List.filter_eq_self.2 fun _ _ => decide_eq_true hc]
  · next hc =>
    rw [List.filter_eq_nil_iff.2 fun _ _ => by simpa using hc]
    rfl

/-- What is put before one brace counts as a whole, from the brace on. -/
theorem before_pastePatch (f : Patch → Nat) (ts : List Token) (brace n : Nat) (ms : List Move)
    (o : Nat) : Patch.before f ((ms.zipIdx n).map fun m => pastePatch ts brace m.2 m.1) o =
      if byteAt ts brace ≤ o then
        ((ms.zipIdx n).map fun m => f (pastePatch ts brace m.2 m.1)).sum else 0 := by
  rw [Patch.before, List.filter_map, List.map_map]
  exact sum_filter_if _ _ (byteAt ts brace ≤ o)

theorem sum_arrivals (ts : List Token) (d : Destination) (o : Nat) :
    ((d.spans.filter (byteAt ts ·.target ≤ o)).map (·.lineFeeds ts + 3)).sum =
      if byteAt ts d.brace ≤ o then (d.spans.map (·.lineFeeds ts + 3)).sum else 0 := by
  rw [Destination.spans, List.filter_map, List.map_map, List.map_map]
  exact sum_filter_if _ _ (byteAt ts d.brace ≤ o)

theorem sum_count_pastePatch (ts : List Token) (n : Nat) (d : Destination) :
    ((d.moves.zipIdx n).map fun m => (pastePatch ts d.brace m.2 m.1).new.count lineFeed).sum =
      (d.spans.map (·.lineFeeds ts + 3)).sum := by
  have hfst := congrArg (List.map fun m : Move => (textBetween ts m.start m.stop).count '\n' + 3)
    (List.zipIdx_map_fst n d.moves)
  rw [List.map_map] at hfst
  simp only [count_pastePatch]
  rw [Destination.spans, List.map_map]
  exact congrArg List.sum hfst

/-- What the patches before byte `o` add to its line. -/
theorem before_relocationPatches (ts : List Token) (n : Nat) (ds : List Destination) (o : Nat) :
    Patch.before (·.new.count lineFeed) (relocationPatches ts n ds) o =
      Patch.before (·.old.count lineFeed) (relocationPatches ts n ds) o +
        (((ds.flatMap Destination.spans).filter (byteAt ts ·.target ≤ o)).map
          (·.lineFeeds ts + 3)).sum := by
  induction ds generalizing n with
  | nil => rfl
  | cons d ds ih =>
    have hcuts : Patch.before (·.new.count lineFeed) (d.moves.map (cutPatch ts)) o =
        Patch.before (·.old.count lineFeed) (d.moves.map (cutPatch ts)) o := by
      rw [Patch.before, Patch.before, List.filter_map, List.map_map, List.map_map]
      exact congrArg (fun f => (List.map f _).sum) (funext fun m => count_cutPatch ts m)
    have hold : ((d.moves.zipIdx n).map fun m =>
        (pastePatch ts d.brace m.2 m.1).old.count lineFeed).sum = 0 := by
      show ((d.moves.zipIdx n).map fun _ => 0).sum = 0
      rw [List.map_const', List.sum_replicate_nat, Nat.mul_zero]
    have hnew := sum_count_pastePatch ts n d
    rw [relocationPatches, List.flatMap_cons, List.filter_append, List.map_append,
      List.sum_append_nat, sum_arrivals]
    simp only [before_append, before_pastePatch, hcuts, hold, hnew, ih]
    split <;> omega

/-! ## Where a declaration begins -/

/-- A statement begins at position `i`: there is code, and the code before it ends with a brace or
a semicolon. -/
def OpensAt (ts : List Token) (i : Nat) : Prop :=
  ∃ done t rest, codeTokens ts = done ++ (t, i) :: rest ∧
    ∀ p, done.getLast? = some p → p.1.stops = true

/-- The scanner has read `held` since the last brace or semicolon, and `rest` is before it. -/
structure Opened (ts : List Token) (held : List Placed) (h : Header) (rest : List Placed) :
    Prop where
  read : ∃ done, codeTokens ts = done ++ (held ++ rest) ∧
    ∀ p, done.getLast? = some p → p.1.stops = true
  first : h.first = held.head?.map Prod.snd

namespace Opened

variable {ts : List Token} {held rest : List Placed} {h h' : Header} {t : Token} {i : Nat}

theorem reset (mid : List Placed) (k : Opened ts held h (mid ++ (t, i) :: rest)) (ht : t.stops = true) :
    Opened ts [] {} rest := by
  obtain ⟨done, hread, -⟩ := k.read
  refine ⟨⟨done ++ (held ++ mid ++ [(t, i)]), by simp [hread], fun p hp => ?_⟩, rfl⟩
  rw [← List.append_assoc, List.getLast?_append, List.getLast?_singleton, Option.some_or,
    Option.some.injEq] at hp
  rw [← hp]
  exact ht

theorem advance (mid : List Placed) (k : Opened ts held h ((t, i) :: mid ++ rest))
    (hf : h'.first = some (h.first.getD i)) : Opened ts (held ++ (t, i) :: mid) h' rest := by
  obtain ⟨done, hread, hstops⟩ := k.read
  refine ⟨⟨done, by simp [hread], hstops⟩, ?_⟩
  rw [hf, k.first]
  cases held <;> rfl

theorem opensAt (k : Opened ts held h ((t, i) :: rest)) : OpensAt ts (h.first.getD i) := by
  obtain ⟨done, hread, hstops⟩ := k.read
  cases held with
  | nil =>
    rw [k.first]
    exact ⟨done, t, rest, hread, hstops⟩
  | cons x held =>
    rw [k.first]
    exact ⟨done, x.1, held ++ (t, i) :: rest, hread, hstops⟩

end Opened

/-- All that moves begins where a statement does. -/
theorem Scan.opensAt {ts b h p rest ds} (s : Scan b h p rest ds) : ∀ {held},
    Opened ts held h rest → (∀ m ∈ p, OpensAt ts m.start) →
      ∀ x ∈ ds.flatMap Destination.spans, OpensAt ts x.move.start := by
  induction s with
  | nil =>
    intro held _ _ x hx
    cases hx
  | opening ht _ ih =>
    intro held k hp
    exact ih (k.reset [] (stops_of_mark ht (by simp))) hp
  | stray ht _ ih =>
    intro held k hp
    exact ih (k.reset [] (stops_of_mark ht (by simp))) hp
  | outermost ht _ ih =>
    intro held k hp x hx
    rcases List.mem_append.1 hx with hx | hx
    · obtain ⟨m, hm, rfl⟩ := List.mem_map.1 hx
      exact hp m hm
    · exact ih (k.reset [] (stops_of_mark ht (by simp))) (by simp) x hx
  | inner ht _ ih =>
    intro held k hp
    exact ih (k.reset [] (stops_of_mark ht (by simp))) hp
  | semicolon ht _ ih =>
    intro held k hp
    exact ih (k.reset [] (stops_of_mark ht (by simp))) hp
  | advance ha _ ih =>
    intro held k hp
    obtain ⟨t, i, mid, rfl, hf⟩ := ha.split
    exact ih (k.advance mid hf) hp
  | @found b h p t i rest kind r ds hf _ ih =>
    intro held k hp
    obtain ⟨-, -, -, hr⟩ := localDeclaration?_eq_some hf
    obtain ⟨w, j, mid, o, l, inner, e, n, hrest, -, -, -, he, -⟩ := recognise?_eq_some hr
    have hstart := k.opensAt
    rw [hrest, ← List.cons_append, ← List.cons_append] at k
    refine ih (k.reset _ (stops_of_mark he (by simp))) fun m hm => ?_
    rcases List.mem_append.1 hm with hm | hm
    · exact hp m hm
    · rw [List.mem_singleton.1 hm]
      exact hstart

theorem opensAt_of_mem_spansOf {ts : List Token} {s : Span} (hs : s ∈ spansOf ts) :
    OpensAt ts s.move.start := by
  have hstart : Opened ts [] {} (codeTokens ts) := ⟨⟨[], rfl, by simp⟩, rfl⟩
  exact (scan_destinations [] {} [] (codeTokens ts)).opensAt hstart (by simp) s hs

/-! ## Lines before and after -/

/-- Byte `o` of a text is not in the declaration. -/
def Span.Spares (ts : List Token) (o : Nat) (s : Span) : Prop :=
  o < byteAt ts s.move.start ∨ byteAt ts s.move.stop ≤ o

theorem spares_of_mem_relocationPatches {ts : List Token} {ds : List Destination} {lo : Nat}
    (h : Ordered ts lo ds) {o : Nat} (ho : ∀ s ∈ ds.flatMap Destination.spans, s.Spares ts o)
    {n : Nat} {p : Patch} (hp : p ∈ relocationPatches ts n ds) : p.Spares o := by
  induction ds generalizing lo n with
  | nil => cases hp
  | cons d ds ih =>
    obtain ⟨hms, -, hrest⟩ := h
    rw [List.flatMap_cons] at ho
    obtain ⟨hmoves, hlater⟩ := List.forall_mem_append.1 ho
    rcases List.mem_append.1 hp with hp | hp
    · rcases List.mem_append.1 hp with hp | hp
      · obtain ⟨m, hm, rfl⟩ := List.mem_map.1 hp
        have hspares := hmoves ⟨m, d.brace⟩ (List.mem_map_of_mem hm)
        rw [Patch.Spares, cutPatch_stop (Nat.le_of_lt (hms.mem hm).2.1)]
        exact hspares
      · -- nothing is taken away before a brace
        obtain ⟨m, -, rfl⟩ := List.mem_map.1 hp
        exact Nat.lt_or_ge _ _
    · exact ih hrest hlater hp

/-- Byte `o` of a source does not move. -/
structure Stays (source : String) (o : Nat) : Prop where
  inside : o < byteLength source.toList
  spared : ∀ s ∈ spansOf (tokens source.toList), s.Spares (tokens source.toList) o

/-- Where a byte of a source is after relocation, if it does not move. -/
def landingOf (source : String) (o : Nat) : Nat := Patch.landing (patchesOf source) o

/-- The lines that arrive up to byte `o` of a source: for each declaration that moves to a brace
there, as many as it has line feeds, and three. -/
def linesArrived (source : String) (o : Nat) : Nat :=
  (((spansOf (tokens source.toList)).filter (byteAt (tokens source.toList) ·.target ≤ o)).map
    (·.lineFeeds (tokens source.toList) + 3)).sum

/-- What relocation makes of the lines of a source. -/
structure KeepsLines (source : String) : Prop where
  /-- A byte that does not move is still there, and stands further down by what has arrived. -/
  kept : ∀ o, Stays source o →
    (bytes (relocate source).text.toList)[landingOf source o]? = (bytes source.toList)[o]? ∧
      lineAt (bytes (relocate source).text.toList) (landingOf source o) =
        lineAt (bytes source.toList) o + linesArrived source o
  /-- The bytes that do not move keep their order. -/
  ordered : ∀ o o', o < o' → Stays source o → Stays source o' →
    landingOf source o < landingOf source o'
  /-- Nothing arrives before the first of the braces that declarations move to. -/
  unshifted : ∀ o, (∀ s ∈ spansOf (tokens source.toList),
    o < byteAt (tokens source.toList) s.target) → linesArrived source o = 0
  targets : ∀ s ∈ spansOf (tokens source.toList), ClosesAt (tokens source.toList) s.target
  /-- The lines that are reported are those on which the declarations begin. -/
  reported : (relocate source).moved.map (·.line) = (spansOf (tokens source.toList)).map fun s =>
    lineAt (bytes source.toList) (byteAt (tokens source.toList) s.move.start)
  /-- A declaration begins with the first of its modifiers and annotations. -/
  begins : ∀ s ∈ spansOf (tokens source.toList), OpensAt (tokens source.toList) s.move.start ∧
    Declares (s.move.code (tokens source.toList))

theorem moved_eq_report (source : String) : (relocate source).moved =
    (spansOf (tokens source.toList)).map (·.move.report (tokens source.toList)) := by
  have hspans : ∀ d : Destination, d.moves.map (·.report (tokens source.toList)) =
      d.spans.map (·.move.report (tokens source.toList)) := by
    intro d
    rw [Destination.spans, List.map_map]
    rfl
  rw [spansOf, List.map_flatMap]
  exact congrArg ((destinationsOf _).flatMap ·) (funext hspans)

/-- **Relocation keeps line numbers.** -/
theorem relocate_keepsLines (source : String) : KeepsLines source := by
  have hord := ordered_destinationsOf (tokens source.toList)
  have hpatched := patched_relocate source
  have hlength := Text.length_bytes source.toList
  have hspares : ∀ {o}, Stays source o → ∀ p ∈ patchesOf source, p.Spares o :=
    fun ho p hp => spares_of_mem_relocationPatches hord ho.spared hp
  refine ⟨?_, ?_, ?_, fun s hs => (hord.mem hs).2.2.2, ?_, ?_⟩
  · intro o ho
    obtain ⟨hbyte, hline⟩ := hpatched.kept (hlength ▸ ho.inside) (hspares ho)
    have hadded : _ = _ + linesArrived source o := before_relocationPatches
      (tokens source.toList) (firstNumber source) (destinationsOf (tokens source.toList)) o
    rw [← patchesOf] at hadded
    refine ⟨hbyte, ?_⟩
    rw [landingOf]
    omega
  · intro o o' hlt ho ho'
    exact hpatched.landing_lt hlt (hlength ▸ ho'.inside) (hspares ho) (hspares ho')
  · intro o hbefore
    have hnone : (spansOf (tokens source.toList)).filter
        (byteAt (tokens source.toList) ·.target ≤ o) = [] := by
      refine List.filter_eq_nil_iff.2 fun s hs => ?_
      have := hbefore s hs
      simp only [decide_eq_true_eq]
      omega
    rw [linesArrived, hnone]
    rfl
  · rw [moved_eq_report, List.map_map]
    exact List.map_congr_left fun s _ => (lineAt_byteAt source.toList s.move.start).symm
  · exact fun s hs => ⟨opensAt_of_mem_spansOf hs, declares_of_mem_spansOf hs⟩

end MinimumRelease.Recovery
