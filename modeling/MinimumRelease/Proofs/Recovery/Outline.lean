import Mathlib.Algebra.GroupWithZero.Nat
import MinimumRelease.Proofs.Recovery.Scan

/-! # What relocation reads of a token

The scanner tells some words apart, modifiers and the keywords of declarations.
All others are alike to it: with their letters masked it finds the same
declarations at the same positions, and only their names are masked as well
(`destinations_masked`). Of blanks and comments it reads nothing. What is reported
takes the line feeds of the text too. So two texts whose tokens have the same
outline, one by one, have the same kinds moved from the same lines
(`moved_congr`). -/

namespace MinimumRelease.Recovery

open Token

/-! ## Masked words -/

/-- The words that the scanner tells apart. -/
def scannedWords : List (List Char) :=
  localModifiers ++
    ["class", "interface", "enum", "record", "new", "extends", "implements"].map String.toList

/-- The word, or nothing if the scanner does not tell it apart. -/
def maskWord (w : List Char) : List Char := if w ∈ scannedWords then w else []

theorem maskWord_eq_iff {w k : List Char} (hk : k ∈ scannedWords) : maskWord w = k ↔ w = k := by
  unfold maskWord
  split
  · rfl
  · next hw =>
    constructor
    · rintro rfl
      exact absurd hk (by decide)
    · rintro rfl
      exact absurd hk hw

theorem ofKeyword?_maskWord (w : List Char) :
    LocalKind.ofKeyword? (maskWord w) = LocalKind.ofKeyword? w := by
  simp only [LocalKind.ofKeyword?, maskWord_eq_iff (k := "enum".toList) (by decide),
    maskWord_eq_iff (k := "interface".toList) (by decide),
    maskWord_eq_iff (k := "record".toList) (by decide)]

theorem contains_maskWord (w : List Char) :
    localModifiers.contains (maskWord w) = localModifiers.contains w := by
  rw [Bool.eq_iff_iff, List.contains_iff_mem, List.contains_iff_mem]
  constructor
  · intro h
    rwa [← (maskWord_eq_iff (List.mem_append_left _ h)).1 rfl] at h
  · intro h
    rwa [(maskWord_eq_iff (List.mem_append_left _ h)).2 rfl]

theorem addWord_maskWord (h : Header) (i : Nat) (w : List Char) (beforeWord : Bool) :
    h.addWord i (maskWord w) beforeWord = h.addWord i w beforeWord := by
  simp only [Header.addWord, contains_maskWord, maskWord_eq_iff (k := "class".toList) (by decide),
    maskWord_eq_iff (k := "interface".toList) (by decide),
    maskWord_eq_iff (k := "enum".toList) (by decide),
    maskWord_eq_iff (k := "record".toList) (by decide),
    maskWord_eq_iff (k := "new".toList) (by decide)]

/-- The token with its word masked. -/
def Token.masked (t : Token) : Token :=
  if t.kind = .word then ⟨.word, maskWord t.text⟩ else t

@[simp] theorem kind_masked (t : Token) : t.masked.kind = t.kind := by
  unfold Token.masked
  split
  · next h => exact h.symm
  · rfl

@[simp] theorem isTrivia_masked (t : Token) : t.masked.isTrivia = t.isTrivia := by
  rw [isTrivia, isTrivia, kind_masked]

@[simp] theorem mark?_masked (t : Token) : t.masked.mark? = t.mark? := by
  unfold Token.masked
  split
  · next h => simp [mark?, h]
  · rfl

@[simp] theorem word?_masked (t : Token) : t.masked.word? = t.word?.map maskWord := by
  unfold Token.masked
  split
  · next h => simp [word?, h]
  · next h => simp [word?, h]

theorem stops_masked (t : Token) : t.masked.stops = t.stops := by
  simp only [Token.stops, mark?_masked]

/-- The tokens with their words masked. -/
def masked (xs : List Placed) : List Placed := xs.map fun p => (p.1.masked, p.2)

@[simp] theorem masked_nil : masked [] = [] := rfl

@[simp] theorem masked_cons (t : Token) (i : Nat) (xs : List Placed) :
    masked ((t, i) :: xs) = (t.masked, i) :: masked xs := rfl

@[simp] theorem markOf?_masked (xs : List Placed) : markOf? (masked xs) = markOf? xs := by
  cases xs with
  | nil => rfl
  | cons p xs => exact mark?_masked p.1

@[simp] theorem wordOf?_masked (xs : List Placed) :
    wordOf? (masked xs) = (wordOf? xs).map maskWord := by
  cases xs with
  | nil => rfl
  | cons p xs => exact word?_masked p.1

theorem map_maskWord_eq_iff {o : Option (List Char)} {k : List Char} (hk : k ∈ scannedWords) :
    o.map maskWord = some k ↔ o = some k := by
  cases o with
  | none => simp
  | some w => simpa using maskWord_eq_iff hk

/-! ## Lookahead -/

theorem closing?_masked (o c : Char) (d : Nat) (xs : List Placed) :
    closing? o c d (masked xs) = (closing? o c d xs).map fun r => (r.1, masked r.2) := by
  fun_induction closing? o c d xs with
  | case1 => rfl
  | case2 d t i xs ho ih => rw [masked_cons, closing?, mark?_masked, if_pos ho, ih]
  | case3 d t i xs ho hc hd =>
    rw [masked_cons, closing?, mark?_masked, if_neg ho, if_pos hc, if_pos hd]
    rfl
  | case4 d t i xs ho hc hd ih =>
    rw [masked_cons, closing?, mark?_masked, if_neg ho, if_pos hc, if_neg hd, ih]
  | case5 d t i xs ho hc ih =>
    rw [masked_cons, closing?, mark?_masked, if_neg ho, if_neg hc, ih]

theorem body?_masked (xs : List Placed) : body? (masked xs) = (body? xs).map masked := by
  fun_induction body? xs with
  | case1 => rfl
  | case2 t i xs ht =>
    rw [masked_cons, body?, mark?_masked, if_pos ht]
    rfl
  | case3 t i xs ht hs =>
    rw [masked_cons, body?, mark?_masked, if_neg ht, if_pos hs]
    rfl
  | case4 t i xs ht hs ih => rw [masked_cons, body?, mark?_masked, if_neg ht, if_neg hs, ih]

theorem qualifiedRest?_masked (xs : List Placed) :
    qualifiedRest? (masked xs) = (qualifiedRest? xs).map masked := by
  fun_induction qualifiedRest? xs with
  | case1 => rfl
  | case2 t i ht =>
    rw [masked_cons, masked_nil, qualifiedRest?.eq_def]
    simp only [mark?_masked, if_pos ht]
    rfl
  | case3 t i ht w j xs hw ih =>
    rw [masked_cons, masked_cons, qualifiedRest?.eq_def]
    simp only [mark?_masked, if_pos ht, word?_masked, Option.isSome_map, hw, if_true]
    exact ih
  | case4 t i ht w j xs hw =>
    rw [masked_cons, masked_cons, qualifiedRest?.eq_def]
    simp only [mark?_masked, if_pos ht, word?_masked, Option.isSome_map, hw]
    rfl
  | case5 t i xs ht => exact qualifiedRest?_of_ne (by simpa using ht)

theorem annotationRest?_masked (xs : List Placed) :
    annotationRest? (masked xs) = (annotationRest? xs).map masked := by
  cases xs with
  | nil => rfl
  | cons p xs =>
    obtain ⟨t, i⟩ := p
    cases hw : t.word? with
    | none => simp [annotationRest?, hw]
    | some w =>
      have hw' : t.masked.word? = some (maskWord w) := by rw [word?_masked, hw, Option.map_some]
      have hinterface := maskWord_eq_iff (w := w) (k := "interface".toList) (by decide)
      by_cases hi : w = "interface".toList
      · rw [masked_cons, annotationRest?, annotationRest?, hw, hw']
        simp only [if_pos hi, if_pos (hinterface.2 hi)]
        rfl
      · rw [masked_cons, annotationRest?_cons _ hw' (mt hinterface.1 hi),
          annotationRest?_cons _ hw hi, qualifiedRest?_masked]
        cases qualifiedRest? xs with
        | none => rfl
        | some rest =>
          simp only [Option.map_some, Option.bind_some, markOf?_masked]
          split
          · rw [closing?_masked, Option.map_map, Option.map_map]
            rfl
          · rfl

theorem fits_masked (kind : LocalKind) (xs : List Placed) :
    kind.fits (masked xs) = kind.fits xs := by
  cases kind <;> simp only [LocalKind.fits, markOf?_masked, wordOf?_masked,
    map_maskWord_eq_iff (k := "implements".toList) (by decide),
    map_maskWord_eq_iff (k := "extends".toList) (by decide)]

def Recognised.masked (r : Recognised) : Recognised :=
  ⟨maskWord r.name, r.stop, Recovery.masked r.rest⟩

theorem recognise?_masked (kind : LocalKind) (xs : List Placed) :
    recognise? kind (masked xs) = (recognise? kind xs).map Recognised.masked := by
  cases xs with
  | nil => rfl
  | cons p xs =>
    obtain ⟨t, i⟩ := p
    cases hw : t.word? with
    | none => simp [recognise?, hw]
    | some w =>
      have hw' : t.masked.word? = some (maskWord w) := by rw [word?_masked, hw, Option.map_some]
      rw [masked_cons, recognise?_cons kind _ hw', recognise?_cons kind _ hw, fits_masked,
        body?_masked]
      split
      · cases body? xs with
        | none => rfl
        | some body =>
          simp only [Option.map_some, Option.bind_some, closing?_masked, Option.map_map]
          rfl
      · rfl

theorem localDeclaration?_masked (b : List Brace) (h : Header) (t : Token) (xs : List Placed) :
    localDeclaration? b h t.masked (masked xs) =
      (localDeclaration? b h t xs).map fun r => (r.1, r.2.masked) := by
  have hkind : t.masked.word?.bind LocalKind.ofKeyword? = t.word?.bind LocalKind.ofKeyword? := by
    rw [word?_masked, Option.bind_map]
    exact congrArg t.word?.bind (funext ofKeyword?_maskWord)
  unfold localDeclaration?
  rw [hkind]
  split
  · cases t.word?.bind LocalKind.ofKeyword? with
    | none => rfl
    | some kind =>
      simp only [recognise?_masked, Option.map_map]
      rfl
  · rfl

/-! ## A whole run -/

theorem Advance.masked {b h xs h' ys} (ha : Advance b h xs h' ys) :
    Advance b h (masked xs) h' (masked ys) := by
  cases ha with
  | @markup t i rest _ ht hr =>
    have hr' : annotationRest? (Recovery.masked rest) = some (Recovery.masked ys) := by
      rw [annotationRest?_masked, hr, Option.map_some]
    exact .markup (by simpa using ht) hr'
  | loneAt ht hr =>
    have hr' : annotationRest? (Recovery.masked ys) = none := by
      rw [annotationRest?_masked, hr, Option.map_none]
    exact .loneAt (by simpa using ht) hr'
  | mark ht hs hc => exact .mark (by simpa using ht) (by rwa [stops_masked]) hc
  | @word t i rest w hw hf =>
    have hw' : t.masked.word? = some (maskWord w) := by rw [word?_masked, hw, Option.map_some]
    have hf' : localDeclaration? b h t.masked (Recovery.masked ys) = none := by
      rw [localDeclaration?_masked, hf, Option.map_none]
    have hword := Advance.word (i := i) hw' hf'
    rwa [addWord_maskWord, wordOf?_masked, Option.isSome_map] at hword
  | literal hm hw => exact .literal (by simpa using hm) (by simpa using hw)

def Move.masked (m : Move) : Move := { m with name := maskWord m.name }

def Destination.masked (d : Destination) : Destination := ⟨d.brace, d.moves.map Move.masked⟩

theorem Scan.masked {b h p xs ds} (s : Scan b h p xs ds) :
    Scan b h (p.map Move.masked) (masked xs) (ds.map Destination.masked) := by
  induction s with
  | nil => exact .nil
  | opening ht _ ih => exact .opening (by simpa using ht) ih
  | stray ht _ ih => exact .stray (by simpa using ht) ih
  | outermost ht _ ih => exact .outermost (by simpa using ht) ih
  | inner ht _ ih => exact .inner (by simpa using ht) ih
  | semicolon ht _ ih => exact .semicolon (by simpa using ht) ih
  | advance ha _ ih => exact .advance ha.masked ih
  | @found b h p t i rest kind r ds hf _ ih =>
    have hf' : localDeclaration? b h t.masked (Recovery.masked rest) = some (kind, r.masked) := by
      rw [localDeclaration?_masked, hf, Option.map_some]
    rw [List.map_append] at ih
    exact .found hf' ih

/-- **Masked words change nothing but names.** -/
theorem destinations_masked (ts : List Token) :
    destinationsOf (ts.map Token.masked) = (destinationsOf ts).map Destination.masked := by
  have hcode : codeTokens (ts.map Token.masked) = masked (codeTokens ts) := by
    rw [codeTokens, List.zipIdx_map, List.filter_map, masked, codeTokens]
    simp only [Function.comp_def, Prod.map, isTrivia_masked]
    rfl
  rw [destinationsOf, hcode]
  exact (scan_destinations [] {} [] (codeTokens ts)).masked.eq_destinations

/-! ## Outlines -/

/-- What relocation reads of a token: the token with its word masked, and its line feeds. -/
def Token.outline (t : Token) : Token × Nat := (t.masked, t.text.count '\n')

theorem count_join (ts : List Token) :
    (join ts).count '\n' = (ts.map (·.text.count '\n')).sum := by
  induction ts with
  | nil => rfl
  | cons t ts ih => rw [join_cons, List.count_append, ih, List.map_cons, List.sum_cons]

theorem count_textBetween_congr {ts us : List Token}
    (h : ts.map (·.text.count '\n') = us.map (·.text.count '\n')) (start stop : Nat) :
    (textBetween ts start stop).count '\n' = (textBetween us start stop).count '\n' := by
  rw [textBetween, textBetween, count_join, count_join, List.map_take, List.map_drop, h,
    ← List.map_drop, ← List.map_take]

/-- The kind of a declaration that was moved, and the line on which it began. -/
def Relocated.site (r : Relocated) : LocalKind × Nat := (r.kind, r.line)

/-- **What is reported depends on outlines alone**, up to the names. -/
theorem moved_congr {a b : String}
    (h : (tokens a.toList).map Token.outline = (tokens b.toList).map Token.outline) :
    (relocate a).moved.map Relocated.site = (relocate b).moved.map Relocated.site := by
  have hmasked := congrArg (List.map Prod.fst) h
  have hcount := congrArg (List.map Prod.snd) h
  rw [List.map_map, List.map_map] at hmasked hcount
  have hds : (destinationsOf (tokens a.toList)).map Destination.masked =
      (destinationsOf (tokens b.toList)).map Destination.masked := by
    rw [← destinations_masked, ← destinations_masked]
    exact congrArg destinationsOf hmasked
  -- kinds and positions can be read off the masked declarations
  have hsites : ∀ s : String, (relocate s).moved.map Relocated.site =
      ((destinationsOf (tokens s.toList)).map Destination.masked).flatMap fun d =>
        d.moves.map fun m => (m.kind, (textBetween (tokens s.toList) 0 m.start).count '\n' + 1) := by
    intro s
    rw [List.flatMap_map, relocate, List.map_flatMap]
    congr 1
    funext d
    rw [Destination.masked, List.map_map, List.map_map]
    rfl
  rw [hsites, hsites, hds]
  simp only [count_textBetween_congr hcount]

end MinimumRelease.Recovery
