import MinimumRelease.Proofs.Recovery.Lookahead

/-! # The steps of the scanner

One token after another the scanner either goes on with the header of a
statement (`Advance`), or meets a brace or a semicolon, or recognises a
declaration that moves. `Scan` lists these steps with what each of them does,
and every run of the scanner consists of them (`scan_destinations`). A run
that recognises no declaration is `Quiet`. What a run does depends on the
tokens and not on their positions (`length_moves_congr`). -/

namespace MinimumRelease.Recovery

open Token

/-- The scanner reads on in a header. -/
inductive Advance (b : List Brace) (h : Header) : List Placed → Header → List Placed → Prop
  | markup {t i rest after} : t.mark? = some '@' → annotationRest? rest = some after →
      Advance b h ((t, i) :: rest) (h.addMarkup i) after
  | loneAt {t i rest} : t.mark? = some '@' → annotationRest? rest = none →
      Advance b h ((t, i) :: rest) (h.addOther i (some '@')) rest
  | mark {t i rest c} : t.mark? = some c → t.stops = false → c ≠ '@' →
      Advance b h ((t, i) :: rest) (h.addOther i (some c)) rest
  | word {t i rest w} : t.word? = some w → localDeclaration? b h t rest = none →
      Advance b h ((t, i) :: rest) (h.addWord i w (wordOf? rest).isSome) rest
  | literal {t i rest} : t.mark? = none → t.word? = none →
      Advance b h ((t, i) :: rest) (h.addOther i none) rest

/-- A run of the scanner and the destinations that it lists. -/
inductive Scan : List Brace → Header → List Move → List Placed → List Destination → Prop
  | nil {b h p} : Scan b h p [] []
  | opening {b h p t i rest ds} : t.mark? = some '{' → Scan (h.opens :: b) {} p rest ds →
      Scan b h p ((t, i) :: rest) ds
  | stray {h p t i rest ds} : t.mark? = some '}' → Scan [] {} p rest ds →
      Scan [] h p ((t, i) :: rest) ds
  | outermost {a h p t i rest ds} : t.mark? = some '}' → Scan [] {} [] rest ds →
      Scan [a] h p ((t, i) :: rest) (⟨i, p⟩ :: ds)
  | inner {a a' b h p t i rest ds} : t.mark? = some '}' → Scan (a' :: b) {} p rest ds →
      Scan (a :: a' :: b) h p ((t, i) :: rest) ds
  | semicolon {b h p t i rest ds} : t.mark? = some ';' → Scan b {} p rest ds →
      Scan b h p ((t, i) :: rest) ds
  | advance {b h p xs h' ys ds} : Advance b h xs h' ys → Scan b h' p ys ds → Scan b h p xs ds
  | found {b h p t i rest kind r ds} : localDeclaration? b h t rest = some (kind, r) →
      Scan b {} (p ++ [⟨h.first.getD i, r.stop, kind, r.name⟩]) r.rest ds →
      Scan b h p ((t, i) :: rest) ds

theorem mark?_eq_none_of_word {t : Token} {w : List Char} (h : t.word? = some w) :
    t.mark? = none := by
  obtain ⟨hk, -⟩ := word?_eq_some.1 h
  simp [mark?, hk]

theorem exists_word_of_found {b h t rest kind r}
    (hf : localDeclaration? b h t rest = some (kind, r)) : ∃ w, t.word? = some w := by
  obtain ⟨-, -, hk, -⟩ := localDeclaration?_eq_some hf
  obtain ⟨w, hw, -⟩ := Option.bind_eq_some_iff.1 hk
  exact ⟨w, hw⟩

theorem scan_destinations (b : List Brace) (h : Header) (p : List Move) (xs : List Placed) :
    Scan b h p xs (destinations b h p xs) := by
  fun_induction destinations b h p xs with
  | case1 => exact .nil
  | case2 braces header pending t i rest ht ih => exact .opening ht ih
  | case3 header pending t i rest ht ih => exact .stray ht ih
  | case4 header pending t i rest ht brace ih => exact .outermost ht ih
  | case5 header pending t i rest ht brace braces hne ih =>
    cases braces with
    | nil => exact (hne rfl).elim
    | cons a braces => exact .inner ht ih
  | case6 braces header pending t i rest ht ih => exact .semicolon ht ih
  | case7 braces header pending t i rest ht after ha ih => exact .advance (.markup ht ha) ih
  | case8 braces header pending t i rest ht ha ih => exact .advance (.loneAt ht ha) ih
  | case9 braces header pending t i rest c h1 h2 h3 h4 ht ih =>
    refine .advance (.mark ht ?_ h4) ih
    simp only [Token.stops, ht, Option.some.injEq, Bool.or_eq_false_iff, decide_eq_false_iff_not]
    exact ⟨⟨h3, h1⟩, h2⟩
  | case10 braces header pending t i rest ht kind found hf move =>
    rename_i ih
    exact .found hf ih
  | case11 braces header pending t i rest ht hf word hw ih => exact .advance (.word hw hf) ih
  | case12 braces header pending t i rest ht hf hw ih => exact .advance (.literal ht hw) ih

theorem Scan.eq_destinations {b h p xs ds} (s : Scan b h p xs ds) :
    destinations b h p xs = ds := by
  induction s with
  | nil => rw [destinations.eq_def]
  | opening ht _ ih =>
    rw [destinations.eq_def]
    simp only [ht]
    exact ih
  | stray ht _ ih =>
    rw [destinations.eq_def]
    simp only [ht]
    exact ih
  | outermost ht _ ih =>
    rw [destinations.eq_def]
    simp only [ht]
    rw [ih]
  | inner ht _ ih =>
    rw [destinations.eq_def]
    simp only [ht]
    exact ih
  | semicolon ht _ ih =>
    rw [destinations.eq_def]
    simp only [ht]
    exact ih
  | found hf _ ih =>
    obtain ⟨w, hw⟩ := exists_word_of_found hf
    rw [destinations.eq_def]
    simp only [mark?_eq_none_of_word hw]
    split
    · next heq =>
      rw [hf] at heq
      cases heq
      exact ih
    · next heq =>
      rw [hf] at heq
      cases heq
  | advance ha _ ih =>
    cases ha with
    | markup ht hr =>
      rw [destinations.eq_def]
      simp only [ht]
      split
      · next heq =>
        rw [hr] at heq
        cases heq
        exact ih
      · next heq =>
        rw [hr] at heq
        cases heq
    | loneAt ht hr =>
      rw [destinations.eq_def]
      simp only [ht]
      split
      · next heq =>
        rw [hr] at heq
        cases heq
      · exact ih
    | mark ht hs hc =>
      simp only [Token.stops, ht, Option.some.injEq, Bool.or_eq_false_iff,
        decide_eq_false_iff_not] at hs
      rw [destinations.eq_def]
      simp only [ht]
      split
      · next heq => exact absurd (Option.some.inj heq) hs.1.2
      · next heq => exact absurd (Option.some.inj heq) hs.2
      · next heq => exact absurd (Option.some.inj heq) hs.1.1
      · next heq => exact absurd (Option.some.inj heq) hc
      · next heq =>
        cases heq
        exact ih
      · next heq => cases heq
    | word hw hf =>
      rw [destinations.eq_def]
      simp only [mark?_eq_none_of_word hw]
      split
      · next heq =>
        rw [hf] at heq
        cases heq
      · simp only [hw]
        exact ih
    | literal hm hw =>
      rw [destinations.eq_def]
      simp only [hm]
      split
      · next heq =>
        obtain ⟨w, hw'⟩ := exists_word_of_found heq
        rw [hw] at hw'
        cases hw'
      · simp only [hw]
        exact ih

/-! ## Quiet runs -/

/-- A run that recognises no declaration. -/
inductive Quiet : List Brace → Header → List Placed → Prop
  | nil {b h} : Quiet b h []
  | opening {b h t i rest} : t.mark? = some '{' → Quiet (h.opens :: b) {} rest →
      Quiet b h ((t, i) :: rest)
  | closing {b h t i rest} : t.mark? = some '}' → Quiet b.tail {} rest → Quiet b h ((t, i) :: rest)
  | semicolon {b h t i rest} : t.mark? = some ';' → Quiet b {} rest → Quiet b h ((t, i) :: rest)
  | advance {b h xs h' ys} : Advance b h xs h' ys → Quiet b h' ys → Quiet b h xs

theorem Advance.not_stops {b h t i rest h' ys} (ha : Advance b h ((t, i) :: rest) h' ys) :
    t.stops = false := by
  cases ha with
  | markup ht => simp [Token.stops, ht]
  | loneAt ht => simp [Token.stops, ht]
  | mark _ hs => exact hs
  | word hw => simp [Token.stops, mark?_eq_none_of_word hw]
  | literal hm => simp [Token.stops, hm]

/-- Reading on passes over a token, and over what belongs to it. -/
theorem Advance.split {b h xs h' ys} (ha : Advance b h xs h' ys) :
    ∃ t i mid, xs = (t, i) :: mid ++ ys ∧ h'.first = some (h.first.getD i) := by
  cases ha with
  | @markup t i rest _ ht hr =>
    obtain ⟨mid, rfl, -⟩ := annotationRest?_eq_some hr
    exact ⟨t, i, mid, rfl, rfl⟩
  | @loneAt t i => exact ⟨t, i, [], rfl, rfl⟩
  | @mark t i => exact ⟨t, i, [], rfl, rfl⟩
  | @word t i => exact ⟨t, i, [], rfl, rfl⟩
  | @literal t i => exact ⟨t, i, [], rfl, rfl⟩

/-- There is one way to read on. -/
theorem Advance.unique {b h xs h₁ ys₁ h₂ ys₂} (ha : Advance b h xs h₁ ys₁)
    (hb : Advance b h xs h₂ ys₂) : h₁ = h₂ ∧ ys₁ = ys₂ := by
  cases ha with
  | markup ht hr =>
    cases hb with
    | markup _ hr' => exact ⟨rfl, Option.some.inj (hr.symm.trans hr')⟩
    | loneAt _ hr' => rw [hr] at hr'; cases hr'
    | mark ht' _ hc => rw [ht] at ht'; exact absurd (Option.some.inj ht').symm hc
    | word hw => rw [mark?_eq_none_of_word hw] at ht; cases ht
    | literal hm => rw [hm] at ht; cases ht
  | loneAt ht hr =>
    cases hb with
    | markup _ hr' => rw [hr] at hr'; cases hr'
    | loneAt => exact ⟨rfl, rfl⟩
    | mark ht' _ hc => rw [ht] at ht'; exact absurd (Option.some.inj ht').symm hc
    | word hw => rw [mark?_eq_none_of_word hw] at ht; cases ht
    | literal hm => rw [hm] at ht; cases ht
  | mark ht _ hc =>
    cases hb with
    | markup ht' => rw [ht] at ht'; exact absurd (Option.some.inj ht') hc
    | loneAt ht' => rw [ht] at ht'; exact absurd (Option.some.inj ht') hc
    | mark ht' => rw [ht] at ht'; cases ht'; exact ⟨rfl, rfl⟩
    | word hw => rw [mark?_eq_none_of_word hw] at ht; cases ht
    | literal hm => rw [hm] at ht; cases ht
  | word hw =>
    cases hb with
    | markup ht => rw [mark?_eq_none_of_word hw] at ht; cases ht
    | loneAt ht => rw [mark?_eq_none_of_word hw] at ht; cases ht
    | mark ht => rw [mark?_eq_none_of_word hw] at ht; cases ht
    | word hw' => rw [hw] at hw'; cases hw'; exact ⟨rfl, rfl⟩
    | literal _ hw' => rw [hw] at hw'; cases hw'
  | literal hm hw =>
    cases hb with
    | markup ht => rw [hm] at ht; cases ht
    | loneAt ht => rw [hm] at ht; cases ht
    | mark ht => rw [hm] at ht; cases ht
    | word hw' => rw [hw] at hw'; cases hw'
    | literal => exact ⟨rfl, rfl⟩

theorem stops_of_mark {t : Token} {c : Char} (h : t.mark? = some c)
    (hc : c = ';' ∨ c = '{' ∨ c = '}') : t.stops = true := by
  rcases hc with rfl | rfl | rfl <;> simp [Token.stops, h]

theorem Advance.absurd_mark {b h t i rest h' ys} {c : Char} {P : Prop}
    (ha : Advance b h ((t, i) :: rest) h' ys) (h : t.mark? = some c)
    (hc : c = ';' ∨ c = '{' ∨ c = '}') : P := by
  have := ha.not_stops
  rw [stops_of_mark h hc] at this
  cases this

theorem quiet_opening {b h t i rest} (ht : t.mark? = some '{') :
    Quiet b h ((t, i) :: rest) ↔ Quiet (h.opens :: b) {} rest := by
  constructor
  · intro hq
    cases hq with
    | opening _ hq => exact hq
    | closing ht' => rw [ht] at ht'; cases ht'
    | semicolon ht' => rw [ht] at ht'; cases ht'
    | advance ha => exact ha.absurd_mark ht (by simp)
  · exact .opening ht

theorem quiet_closing {b h t i rest} (ht : t.mark? = some '}') :
    Quiet b h ((t, i) :: rest) ↔ Quiet b.tail {} rest := by
  constructor
  · intro hq
    cases hq with
    | opening ht' => rw [ht] at ht'; cases ht'
    | closing _ hq => exact hq
    | semicolon ht' => rw [ht] at ht'; cases ht'
    | advance ha => exact ha.absurd_mark ht (by simp)
  · exact .closing ht

theorem quiet_semicolon {b h t i rest} (ht : t.mark? = some ';') :
    Quiet b h ((t, i) :: rest) ↔ Quiet b {} rest := by
  constructor
  · intro hq
    cases hq with
    | opening ht' => rw [ht] at ht'; cases ht'
    | closing ht' => rw [ht] at ht'; cases ht'
    | semicolon _ hq => exact hq
    | advance ha => exact ha.absurd_mark ht (by simp)
  · exact .semicolon ht

theorem quiet_advance {b h xs h' ys} (ha : Advance b h xs h' ys) :
    Quiet b h xs ↔ Quiet b h' ys := by
  constructor
  · intro hq
    cases hq with
    | nil => cases ha
    | opening ht => exact ha.absurd_mark ht (by simp)
    | closing ht => exact ha.absurd_mark ht (by simp)
    | semicolon ht => exact ha.absurd_mark ht (by simp)
    | advance hb hq =>
      obtain ⟨rfl, rfl⟩ := ha.unique hb
      exact hq
  · exact .advance ha

theorem not_quiet_found {b h t i rest kind r}
    (hf : localDeclaration? b h t rest = some (kind, r)) : ¬ Quiet b h ((t, i) :: rest) := by
  intro hq
  obtain ⟨w, hw⟩ := exists_word_of_found hf
  have hm := mark?_eq_none_of_word hw
  cases hq with
  | opening ht => rw [hm] at ht; cases ht
  | closing ht => rw [hm] at ht; cases ht
  | semicolon ht => rw [hm] at ht; cases ht
  | advance ha =>
    cases ha with
    | markup ht => rw [hm] at ht; cases ht
    | loneAt ht => rw [hm] at ht; cases ht
    | mark ht => rw [hm] at ht; cases ht
    | word _ hf' => rw [hf] at hf'; cases hf'
    | literal _ hw' => rw [hw] at hw'; cases hw'

/-- Nothing moves in a quiet run. -/
theorem Scan.moves_of_quiet {b h p xs ds} (s : Scan b h p xs ds) (hp : p = [])
    (hq : Quiet b h xs) : ∀ d ∈ ds, d.moves = [] := by
  induction s with
  | nil =>
    intro d hd
    cases hd
  | opening ht _ ih => exact ih hp ((quiet_opening ht).1 hq)
  | stray ht _ ih => exact ih hp ((quiet_closing ht).1 hq)
  | outermost ht _ ih =>
    intro d hd
    rcases List.mem_cons.1 hd with rfl | hd
    · exact hp
    · exact ih rfl ((quiet_closing ht).1 hq) d hd
  | inner ht _ ih => exact ih hp ((quiet_closing ht).1 hq)
  | semicolon ht _ ih => exact ih hp ((quiet_semicolon ht).1 hq)
  | advance ha _ ih => exact ih hp ((quiet_advance ha).1 hq)
  | found hf => exact absurd hq (not_quiet_found hf)

/-! ## Positions do not matter -/

/-- The tokens without their positions. -/
def bare (xs : List Placed) : List Placed := xs.map fun p => (p.1, 0)

@[simp] theorem bare_nil : bare [] = [] := rfl

@[simp] theorem bare_cons (t : Token) (i : Nat) (xs : List Placed) :
    bare ((t, i) :: xs) = (t, 0) :: bare xs := rfl

@[simp] theorem markOf?_bare (xs : List Placed) : markOf? (bare xs) = markOf? xs := by
  cases xs <;> rfl

@[simp] theorem wordOf?_bare (xs : List Placed) : wordOf? (bare xs) = wordOf? xs := by
  cases xs <;> rfl

theorem closing?_bare (o c : Char) (d : Nat) (xs : List Placed) :
    closing? o c d (bare xs) = (closing? o c d xs).map fun r => (1, bare r.2) := by
  fun_induction closing? o c d xs with
  | case1 => rfl
  | case2 d t i xs ho ih => rw [bare_cons, closing?, if_pos ho, ih]
  | case3 d t i xs ho hc hd =>
    rw [bare_cons, closing?, if_neg ho, if_pos hc, if_pos hd]
    rfl
  | case4 d t i xs ho hc hd ih =>
    rw [bare_cons, closing?, if_neg ho, if_pos hc, if_neg hd, ih]
  | case5 d t i xs ho hc ih => rw [bare_cons, closing?, if_neg ho, if_neg hc, ih]

theorem body?_bare (xs : List Placed) : body? (bare xs) = (body? xs).map bare := by
  fun_induction body? xs with
  | case1 => rfl
  | case2 t i xs ht =>
    rw [bare_cons, body?, if_pos ht]
    rfl
  | case3 t i xs ht hs =>
    rw [bare_cons, body?, if_neg ht, if_pos hs]
    rfl
  | case4 t i xs ht hs ih => rw [bare_cons, body?, if_neg ht, if_neg hs, ih]

theorem qualifiedRest?_bare (xs : List Placed) :
    qualifiedRest? (bare xs) = (qualifiedRest? xs).map bare := by
  fun_induction qualifiedRest? xs with
  | case1 => rfl
  | case2 t i ht =>
    rw [bare_cons, bare_nil, qualifiedRest?.eq_def]
    simp only [if_pos ht]
    rfl
  | case3 t i ht w j xs hw ih =>
    rw [bare_cons, bare_cons, qualifiedRest?.eq_def]
    simp only [if_pos ht, hw, if_true]
    exact ih
  | case4 t i ht w j xs hw =>
    rw [bare_cons, bare_cons, qualifiedRest?.eq_def]
    simp only [if_pos ht, hw]
    rfl
  | case5 t i xs ht => exact qualifiedRest?_of_ne ht

theorem annotationRest?_bare (xs : List Placed) :
    annotationRest? (bare xs) = (annotationRest? xs).map bare := by
  cases xs with
  | nil => rfl
  | cons p xs =>
    obtain ⟨t, i⟩ := p
    cases hw : t.word? with
    | none => simp [annotationRest?, hw]
    | some w =>
      by_cases hi : w = "interface".toList
      · rw [bare_cons, annotationRest?, annotationRest?, hw]
        simp only [if_pos hi]
        rfl
      · rw [bare_cons, annotationRest?_cons _ hw hi, annotationRest?_cons _ hw hi,
          qualifiedRest?_bare]
        cases qualifiedRest? xs with
        | none => rfl
        | some rest =>
          simp only [Option.map_some, Option.bind_some, markOf?_bare]
          split
          · rw [closing?_bare, Option.map_map, Option.map_map]
            rfl
          · rfl

theorem fits_bare (kind : LocalKind) (xs : List Placed) : kind.fits (bare xs) = kind.fits xs :=
  fits_congr (markOf?_bare xs) (wordOf?_bare xs)

theorem recognise?_bare (kind : LocalKind) (xs : List Placed) : recognise? kind (bare xs) =
    (recognise? kind xs).map fun r => ⟨r.name, 1, bare r.rest⟩ := by
  cases xs with
  | nil => rfl
  | cons p xs =>
    obtain ⟨t, i⟩ := p
    cases hw : t.word? with
    | none => simp [recognise?, hw]
    | some w =>
      rw [bare_cons, recognise?_cons kind _ hw, recognise?_cons kind _ hw, fits_bare, body?_bare]
      split
      · cases body? xs with
        | none => rfl
        | some body =>
          simp only [Option.map_some, Option.bind_some, closing?_bare, Option.map_map]
          rfl
      · rfl

/-- Two headers that differ at most in where they begin. -/
structure Header.Alike (h h' : Header) : Prop where
  onlyModifiers : h.onlyModifiers = h'.onlyModifiers
  declaresType : h.declaresType = h'.declaresType
  creates : h.creates = h'.creates
  last : h.last = h'.last

theorem Header.Alike.opens {h h' : Header} (hh : h.Alike h') : h.opens = h'.opens := by
  simp only [Header.opens, hh.declaresType, hh.creates, hh.last]

theorem localDeclaration?_bare {h h' : Header} (hh : h.Alike h') (b : List Brace) (t : Token)
    (xs : List Placed) : localDeclaration? b h' t (bare xs) =
      (localDeclaration? b h t xs).map fun r => (r.1, ⟨r.2.name, 1, bare r.2.rest⟩) := by
  unfold localDeclaration?
  rw [hh.onlyModifiers]
  split
  · cases t.word?.bind LocalKind.ofKeyword? with
    | none => rfl
    | some kind =>
      simp only [recognise?_bare, Option.map_map]
      rfl
  · rfl

theorem Advance.to_bare {b h h' xs h₁ ys} (ha : Advance b h xs h₁ ys) (hh : h.Alike h') :
    ∃ h₁', Advance b h' (bare xs) h₁' (bare ys) ∧ h₁.Alike h₁' := by
  cases ha with
  | @markup t i rest _ ht hr =>
    have hr' : annotationRest? (bare rest) = some (bare ys) := by
      rw [annotationRest?_bare, hr, Option.map_some]
    exact ⟨_, .markup ht hr', ⟨hh.onlyModifiers, hh.declaresType, hh.creates, rfl⟩⟩
  | loneAt ht hr =>
    have hr' : annotationRest? (bare ys) = none := by
      rw [annotationRest?_bare, hr, Option.map_none]
    exact ⟨_, .loneAt ht hr', ⟨rfl, hh.declaresType, hh.creates, rfl⟩⟩
  | mark ht hs hc => exact ⟨_, .mark ht hs hc, ⟨rfl, hh.declaresType, hh.creates, rfl⟩⟩
  | @word t i _ w hw hf =>
    have hf' : localDeclaration? b h' t (bare ys) = none := by
      rw [localDeclaration?_bare hh, hf, Option.map_none]
    refine ⟨h'.addWord 0 w (wordOf? (bare ys)).isSome, .word hw hf', ?_⟩
    rw [wordOf?_bare]
    constructor
    · simp only [Header.addWord, hh.onlyModifiers]
    · simp only [Header.addWord, hh.declaresType, hh.last]
    · simp only [Header.addWord, hh.creates]
    · rfl
  | literal hm hw => exact ⟨_, .literal hm hw, ⟨rfl, hh.declaresType, hh.creates, rfl⟩⟩

theorem Scan.to_bare {b h p xs ds} (s : Scan b h p xs ds) : ∀ {h' p'}, h.Alike h' →
    p.length = p'.length → ∃ ds', Scan b h' p' (bare xs) ds' ∧
      ds'.map (·.moves.length) = ds.map (·.moves.length) := by
  have hnew : ({} : Header).Alike {} := ⟨rfl, rfl, rfl, rfl⟩
  induction s with
  | nil =>
    intro h' p' _ _
    exact ⟨[], .nil, rfl⟩
  | opening ht _ ih =>
    intro h' p' hh hp
    obtain ⟨ds', s', he⟩ := ih hnew hp
    rw [hh.opens] at s'
    exact ⟨ds', .opening ht s', he⟩
  | stray ht _ ih =>
    intro h' p' hh hp
    obtain ⟨ds', s', he⟩ := ih hnew hp
    exact ⟨ds', .stray ht s', he⟩
  | outermost ht _ ih =>
    intro h' p' hh hp
    obtain ⟨ds', s', he⟩ := ih hnew rfl
    exact ⟨⟨0, p'⟩ :: ds', .outermost ht s', by simp [he, hp]⟩
  | inner ht _ ih =>
    intro h' p' hh hp
    obtain ⟨ds', s', he⟩ := ih hnew hp
    exact ⟨ds', .inner ht s', he⟩
  | semicolon ht _ ih =>
    intro h' p' hh hp
    obtain ⟨ds', s', he⟩ := ih hnew hp
    exact ⟨ds', .semicolon ht s', he⟩
  | advance ha _ ih =>
    intro h' p' hh hp
    obtain ⟨h₁', ha', hh'⟩ := ha.to_bare hh
    obtain ⟨ds', s', he⟩ := ih hh' hp
    exact ⟨ds', .advance ha' s', he⟩
  | @found b h p t i rest kind r ds hf _ ih =>
    intro h' p' hh hp
    have hf' : localDeclaration? b h' t (bare rest) =
        some (kind, ⟨r.name, 1, bare r.rest⟩) := by
      rw [localDeclaration?_bare hh, hf, Option.map_some]
    have hlen : (p ++ [(⟨h.first.getD i, r.stop, kind, r.name⟩ : Move)]).length =
        (p' ++ [(⟨h'.first.getD 0, 1, kind, r.name⟩ : Move)]).length := by
      simp [hp]
    obtain ⟨ds', s', he⟩ := ih hnew hlen
    exact ⟨ds', .found hf' s', he⟩

/-- **How much moves where depends on the tokens alone**, not on their positions. -/
theorem length_moves_congr {xs ys : List Placed} (h : xs.map Prod.fst = ys.map Prod.fst) :
    (destinations [] {} [] xs).map (·.moves.length) =
      (destinations [] {} [] ys).map (·.moves.length) := by
  have hbare : bare xs = bare ys := by
    have hmap := congrArg (List.map fun t : Token => (t, 0)) h
    rwa [List.map_map, List.map_map] at hmap
  obtain ⟨dx, sx, hx⟩ := (scan_destinations [] {} [] xs).to_bare ⟨rfl, rfl, rfl, rfl⟩ rfl
  obtain ⟨dy, sy, hy⟩ := (scan_destinations [] {} [] ys).to_bare ⟨rfl, rfl, rfl, rfl⟩ rfl
  rw [← hx, ← hy, ← sx.eq_destinations, ← sy.eq_destinations, hbare]

end MinimumRelease.Recovery
