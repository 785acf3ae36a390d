import MinimumRelease.Proofs.Recovery.Rescan

/-! # Relocating twice

A second relocation changes nothing if nothing is left to move in the text
that the first one wrote. The first run passes over a declaration that it
moves, and with it over the code inside. So the second run finds what stands
there: it is idle exactly if no moved declaration, as a member of a type, has
something to move itself (`relocate_again`). -/

namespace MinimumRelease.Recovery

open Token

/-! ## Runs that move nothing -/

theorem moved_eq_nil_iff (text : String) : (relocate text).moved = [] ↔
    ∀ d ∈ destinationsOf (tokens text.toList), d.moves = [] := by
  simp [relocate, List.flatMap_eq_nil_iff]

theorem spansOf_eq_nil_iff (ts : List Token) :
    spansOf ts = [] ↔ ∀ d ∈ destinationsOf ts, d.moves = [] := by
  simp [spansOf, Destination.spans, List.flatMap_eq_nil_iff]

theorem textBetween_append (ts : List Token) {a b c : Nat} (hab : a ≤ b) (hbc : b ≤ c) :
    textBetween ts a b ++ textBetween ts b c = textBetween ts a c := by
  show join (tokensBetween ts a b) ++ join (tokensBetween ts b c) = join (tokensBetween ts a c)
  rw [← join_append, tokensBetween_append ts hab hbc]

theorem Ordered.relocatedText_of_no_moves {ts : List Token} {ds : List Destination}
    {start lo : Nat} (h : Ordered ts lo ds) (hle : start ≤ lo) (hm : ∀ d ∈ ds, d.moves = [])
    (n : Nat) : relocatedText ts start n ds = textBetween ts start ts.length := by
  induction ds generalizing start lo n with
  | nil => rfl
  | cons d ds ih =>
    obtain ⟨hms, ⟨x, hx, -⟩, hrest⟩ := h
    have hnone := hm d List.mem_cons_self
    have hbrace : d.brace < ts.length := (List.getElem?_eq_some_iff.1 hx).1
    have hlater : ∀ d' ∈ ds, d'.moves = [] := fun d' hd => hm d' (List.mem_cons_of_mem _ hd)
    rw [relocatedText, hnone, ih hrest (Nat.le_succ _) hlater]
    rw [hnone] at hms
    show textBetween ts start d.brace ++ [] ++ _ = _
    rw [List.append_nil, textBetween_append ts (Nat.le_trans hle hms) (Nat.le_of_lt hbrace)]

/-- Relocation moves nothing in the text, and gives it back as it is. -/
def Stable (text : String) : Prop := (relocate text).moved = [] ∧ (relocate text).text = text

instance (text : String) : Decidable (Stable text) := inferInstanceAs (Decidable (_ ∧ _))

theorem stable_iff (text : String) : Stable text ↔ (relocate text).moved = [] := by
  constructor
  · exact fun h => h.1
  · intro hm
    refine ⟨hm, ?_⟩
    have hall : textBetween (tokens text.toList) 0 (tokens text.toList).length = text.toList := by
      rw [textBetween, List.drop_zero, Nat.sub_zero, List.take_length, join_tokens]
    have htext := (ordered_destinationsOf (tokens text.toList)).relocatedText_of_no_moves
      (Nat.le_refl 0) ((moved_eq_nil_iff text).1 hm)
      (occurrences placeholderStem.toList text.toList)
    simp only [relocate, htext, hall, String.ofList_toList]

/-- Whether something moves depends on the code alone. -/
theorem no_moves_congr {xs ys : List Placed} (h : xs.map Prod.fst = ys.map Prod.fst) :
    (∀ d ∈ destinations [] {} [] xs, d.moves = []) ↔
      ∀ d ∈ destinations [] {} [] ys, d.moves = [] := by
  have hzero : ∀ zs : List Placed, (∀ d ∈ destinations [] {} [] zs, d.moves = []) ↔
      ∀ k ∈ (destinations [] {} [] zs).map (·.moves.length), k = 0 := by
    intro zs
    rw [List.forall_mem_map]
    simp only [List.length_eq_zero_iff]
  rw [hzero, hzero, length_moves_congr h]

theorem filter_solid (ts : List Token) :
    (solid ts).filter (!·.isTrivia) = ts.filter (!·.isTrivia) := by
  rw [solid, List.filter_filter]
  apply List.filter_congr
  intro t _
  cases hk : t.kind <;> simp [isTrivia, hk]

/-- A text with the lexemes of `us` is scanned like the code of `us`, wherever that stands. -/
theorem moved_eq_nil_iff_of_lexemes {text : String} {us : List Token} {ys : List Placed}
    (h : lexemes text.toList = solid us) (hy : ys.map Prod.fst = us.filter (!·.isTrivia)) :
    (relocate text).moved = [] ↔ ∀ d ∈ destinations [] {} [] ys, d.moves = [] := by
  have hcode : (codeTokens (tokens text.toList)).map Prod.fst = ys.map Prod.fst := by
    rw [map_fst_codeTokens, ← filter_solid]
    show (lexemes text.toList).filter _ = _
    rw [h, filter_solid, hy]
  rw [moved_eq_nil_iff]
  exact no_moves_congr hcode

/-! ## Moved declarations on their own -/

/-- A class with the span as its only member. -/
def Span.asMember (ts : List Token) (s : Span) : String :=
  "class C \x7b" ++ String.ofList (textBetween ts s.move.start s.move.stop) ++ "\x7d"

/-- The tokens before the member, the one behind it is a closing brace. -/
def classHead : List Placed :=
  [(⟨.word, "class".toList⟩, 0), (⟨.word, "C".toList⟩, 0), (⟨.mark, ['{']⟩, 0)]

def closingBrace : Placed := (⟨.mark, ['}']⟩, 0)

theorem lexemes_asMember {ts : List Token} (hts : Lexed ts) {s : Span}
    (hlt : s.move.start < s.move.stop) (hc : ClosesAt ts (s.move.stop - 1)) :
    lexemes (s.asMember ts).toList =
      solid (classHead.map Prod.fst ++ (s.block ts ++ [closingBrace.1])) := by
  have hsplit : (s.asMember ts).toList = "class".toList ++ ' ' :: ("C".toList ++
      ' ' :: '{' :: (textBetween ts s.move.start s.move.stop ++ ['}'])) := by
    simp [Span.asMember]
  have hclass : (⟨.word, "class".toList⟩ : Token).Reads (' ' :: ("C".toList ++
      ' ' :: '{' :: (textBetween ts s.move.start s.move.stop ++ ['}']))) :=
    reads_word (by decide) rfl rfl _
  have hname : (⟨.word, "C".toList⟩ : Token).Reads
      (' ' :: '{' :: (textBetween ts s.move.start s.move.stop ++ ['}'])) :=
    reads_word (by decide) rfl rfl _
  have hbrace : lexemes ['}'] = [closingBrace.1] := by
    rw [lexemes_mark rfl]
    simp [lexemes, tokens, closingBrace]
  rw [hsplit, lexemes_of_reads hclass, lexemes_space_cons (by decide), lexemes_of_reads hname,
    lexemes_space_cons (by decide), lexemes_mark rfl, hts.lexemes_block hlt hc, hbrace,
    solid_append, solid_append]
  rfl

theorem quiet_classHead (ys : List Placed) :
    Quiet [] {} (classHead ++ ys) ↔ Quiet [.typeBody] {} ys := by
  unfold classHead
  simp only [List.cons_append, List.nil_append]
  rw [quiet_advance (.word rfl (localDeclaration?_of_not_inCode rfl)),
    quiet_advance (.word rfl (localDeclaration?_of_not_inCode rfl)), quiet_opening rfl]
  exact Iff.rfl

/-- A nested declaration is quiet as a member if it is so in a class of its own. -/
theorem moved_asMember_eq_nil_iff {ts : List Token} (hts : Lexed ts) {s : Span}
    (hlt : s.move.start < s.move.stop) (hc : ClosesAt ts (s.move.stop - 1))
    (hn : Nested (s.block ts)) : (relocate (s.asMember ts)).moved = [] ↔
      Quiet [.typeBody] {} (s.move.code ts ++ [closingBrace]) := by
  have hlen : s.move.stop ≤ ts.length := by
    obtain ⟨x, hx, -⟩ := hc
    have := (List.getElem?_eq_some_iff.1 hx).1
    omega
  have hcode := map_fst_code (Nat.le_of_lt hlt) hlen
  have hplaced : (classHead ++ (s.move.code ts ++ [closingBrace])).map Prod.fst =
      (classHead.map Prod.fst ++ (s.block ts ++ [closingBrace.1])).filter (!·.isTrivia) := by
    rw [List.map_append, List.map_append, hcode, List.filter_append, List.filter_append]
    rfl
  have hnested : Nested ((classHead ++ (s.move.code ts ++ [closingBrace])).map Prod.fst) := by
    have hhead : openAfter [] (classHead.map Prod.fst) = some ['{'] := rfl
    rw [Nested, hplaced, openAfter_filter, openAfter_append, hhead, Option.bind_some,
      openAfter_append, hn.openAfter_eq]
    rfl
  rw [moved_eq_nil_iff_of_lexemes (lexemes_asMember hts hlt hc) hplaced,
    ← quiet_iff_no_moves hnested, quiet_classHead]

theorem bounds_of_mem_spansOf {ts : List Token} {s : Span} (hs : s ∈ spansOf ts) :
    s.move.start < s.move.stop ∧ s.move.stop ≤ ts.length := by
  obtain ⟨-, hlt, hle, x, hx, -⟩ := (ordered_destinationsOf ts).mem hs
  have := (List.getElem?_eq_some_iff.1 hx).1
  exact ⟨hlt, by omega⟩

/-! ## The second run -/

/-- The brackets of the source are nested, and those of each declaration that moves, and no
declaration is put behind a token that waits for the next one. -/
structure Regular (ts : List Token) : Prop where
  nested : Nested ts
  blocks : ∀ s ∈ spansOf ts, Nested (s.block ts)
  settled : ∀ s ∈ spansOf ts, Settled ts s.target

theorem quiet_image_iff {ts : List Token} (h : Regular ts) (n : Nat) :
    Quiet [] {} ((codeTokens ts).flatMap (placedImage ts n (spansOf ts))) ↔
      ∀ s ∈ spansOf ts, Quiet [.typeBody] {} (s.move.code ts ++ [closingBrace]) := by
  have hnested : openAfter [] ((codeTokens ts).map Prod.fst) = some [] := by
    rw [map_fst_codeTokens, openAfter_filter]
    exact h.nested
  have hblocks : ∀ s ∈ spansOf ts, Nested ((s.move.code ts).map Prod.fst) := by
    intro s hs
    obtain ⟨hlt, hle⟩ := bounds_of_mem_spansOf hs
    rw [Nested, map_fst_code (Nat.le_of_lt hlt) hle, openAfter_filter]
    exact h.blocks s hs
  have hstart : Tracks ts [] [] [] {} [] (codeTokens ts) :=
    ⟨⟨[], rfl⟩, rfl, .refl, by simp, by simp, by simp⟩
  have hlevel : Level [] [] (codeTokens ts) := ⟨hnested, rfl⟩
  exact (scan_destinations [] {} [] (codeTokens ts)).quiet_image (.of_openAfter hnested) hblocks
    h.settled rfl hstart hlevel rfl

theorem moved_again_iff {source : String} (h : Regular (tokens source.toList)) :
    (relocate (relocate source).text).moved = [] ↔ ∀ s ∈ spansOf (tokens source.toList),
      (relocate (s.asMember (tokens source.toList))).moved = [] := by
  have hord := ordered_destinationsOf (tokens source.toList)
  have himage := @map_fst_image (tokens source.toList) (spansOf (tokens source.toList))
    (fun s hs => ⟨Nat.le_of_lt (bounds_of_mem_spansOf hs).1, (bounds_of_mem_spansOf hs).2⟩)
    (fun s hs => (hord.mem hs).2.2.2) (firstNumber source)
  -- the rearranged tokens are nested, as the source and all that moves are
  have hnested : Nested (((codeTokens (tokens source.toList)).flatMap (placedImage
      (tokens source.toList) (firstNumber source) (spansOf (tokens source.toList)))).map
        Prod.fst) := by
    rw [Nested, himage, openAfter_filter, rearranged_eq,
      openAfter_relocatedTokens hord (Nat.le_refl 0) h.blocks, List.drop_zero]
    exact h.nested
  rw [moved_eq_nil_iff_of_lexemes (lexemes_text source) himage, ← quiet_iff_no_moves hnested,
    quiet_image_iff h]
  refine forall₂_congr fun s hs => Iff.symm ?_
  exact moved_asMember_eq_nil_iff (lexed_tokens _) (bounds_of_mem_spansOf hs).1 (hord.ends hs)
    (h.blocks s hs)

/-- **When a second relocation changes nothing.** For every source it does so exactly if there is
nothing to move among the rearranged tokens. If the brackets are nested, that is so exactly if no
declaration that was moved has itself something to move, as the only member of a class. -/
theorem relocate_again (source : String) :
    (Stable (relocate source).text ↔ spansOf (rearranged (tokens source.toList)
      (firstNumber source) (spansOf (tokens source.toList))) = []) ∧
    (Regular (tokens source.toList) → (Stable (relocate source).text ↔
      ∀ s ∈ spansOf (tokens source.toList), Stable (s.asMember (tokens source.toList)))) := by
  constructor
  · rw [stable_iff, spansOf_eq_nil_iff]
    exact moved_eq_nil_iff_of_lexemes (lexemes_text source) (map_fst_codeTokens _)
  · intro h
    simp only [stable_iff]
    exact moved_again_iff h

/-- A local enum with a method, and no other local declaration. -/
def enumAlone : String :=
  "class A \x7b void f() \x7b enum E \x7b X; void m() \x7b \x7d \x7d \x7d \x7d"

theorem stable_enumAlone : spansOf (tokens enumAlone.toList) ≠ [] ∧
    Regular (tokens enumAlone.toList) ∧ Stable (relocate enumAlone).text := by
  have hregular : Regular (tokens enumAlone.toList) :=
    ⟨by decide +kernel, by decide +kernel, by decide +kernel⟩
  refine ⟨?_, hregular, ((relocate_again enumAlone).2 hregular).2 (by decide +kernel)⟩
  rw [ne_eq, spansOf_eq_nil_iff, ← moved_eq_nil_iff]
  decide +kernel

/-- The same enum with another one in its method. -/
def enumInEnum : String :=
  "class A \x7b void f() \x7b enum E \x7b X; void m() \x7b enum F \x7b Y \x7d \x7d \x7d \x7d \x7d"

/-- The first run moves the outer enum with what is in it, the second run moves the inner one. -/
theorem not_stable_enumInEnum : (relocate enumInEnum).moved = [⟨.enum, "E", 1⟩] ∧
    (relocate (relocate enumInEnum).text).moved = [⟨.enum, "F", 2⟩] ∧
    ¬ Stable (relocate enumInEnum).text := by
  decide +kernel

end MinimumRelease.Recovery
