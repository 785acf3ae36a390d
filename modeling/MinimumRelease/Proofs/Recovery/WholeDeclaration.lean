import MinimumRelease.Proofs.Recovery.SecondRun

/-! # How much of a declaration moves

A declaration that moves ends where the first brace behind its name is closed.
If the brackets of the source are nested, then so are the modifiers and the
body of what moves, and a bracket can be left open only in the head between
the two (`Parts.openAfter_code`). It is, where that first brace is not the one
of the body but stands in the arguments of an annotation: then the move ends in
the middle of the head, and the rest of the declaration stays behind. -/

namespace MinimumRelease.Recovery

open Token

/-! ## What the scanner moves -/

/-- **All that moves has the form of a declaration.** The scanner keeps this up for the moves that
are pending, from token to token. -/
theorem Scan.declares {ts b h p rest ds} (s : Scan b h p rest ds) : ∀ {held},
    Tracks ts [] held b h p rest →
      ∀ x ∈ ds.flatMap Destination.spans, Declares (x.move.code ts) := by
  induction s with
  | nil =>
    intro held _ x hx
    cases hx
  | @opening b h p t i rest ds ht _ ih =>
    intro held k
    refine ih (k.stop fun hp => ?_)
    have hlast := k.outer hp
    cases b with
    | nil => cases hlast
    | cons a b => exact hlast
  | stray ht _ ih =>
    intro held k
    exact ih (k.stop k.outer)
  | outermost ht _ ih =>
    intro held k x hx
    rcases List.mem_append.1 hx with hx | hx
    · obtain ⟨m, hm, rfl⟩ := List.mem_map.1 hx
      exact (k.pending m hm).1
    · exact ih (k.reset [] (by simp) (by simp)) x hx
  | inner ht _ ih =>
    intro held k
    exact ih (k.stop k.outer)
  | semicolon ht _ ih =>
    intro held k
    exact ih (k.stop k.outer)
  | advance ha _ ih =>
    intro held k
    obtain ⟨t, i, mid, rfl, hf⟩ := ha.split
    exact ih (k.advance ha hf)
  | found hf _ ih =>
    intro held k
    obtain ⟨-, -, -, k'⟩ := k.found hf
    exact ih k'

theorem declares_of_mem_spansOf {ts : List Token} {s : Span} (hs : s ∈ spansOf ts) :
    Declares (s.move.code ts) := by
  have hstart : Tracks ts [] [] [] {} [] (codeTokens ts) :=
    ⟨⟨[], rfl⟩, rfl, .refl, by simp, by simp, by simp⟩
  exact (scan_destinations [] {} [] (codeTokens ts)).declares hstart s hs

/-! ## Nested stretches -/

namespace Nested

theorem append {as bs : List Token} (ha : Nested as) (hb : Nested bs) : Nested (as ++ bs) := by
  rw [Nested, openAfter_append, ha, Option.bind_some]
  exact hb

/-- A token that is no bracket. -/
theorem cons {t : Token} {ts : List Token} (h : Nested ts)
    (ht : ∀ c, t.mark? = some c → bracket [] c = some []) : Nested (t :: ts) := by
  cases hm : t.mark? with
  | none => rwa [Nested, openAfter_none hm]
  | some c => rwa [Nested, openAfter_mark hm, ht c hm, Option.bind_some]

theorem cons_word {t : Token} {w : List Char} {ts : List Token} (h : Nested ts)
    (hw : t.word? = some w) : Nested (t :: ts) := by
  rwa [Nested, openAfter_none (mark?_eq_none_of_word hw)]

/-- A pair of brackets around nested tokens. -/
theorem enclose {o c : Char} (hp : Pair o c) {t u : Token} (ht : t.mark? = some o)
    (hu : u.mark? = some c) {mid : List Token} (h : Nested mid) : Nested (t :: (mid ++ [u])) := by
  have hpop : bracket [o] c = some [] := by
    rw [bracket, hp.not_opening, hp.closing]
    exact if_pos rfl
  rw [Nested, openAfter_mark ht, bracket, if_pos hp.opening, Option.bind_some, openAfter_append,
    h.openAfter_eq, Option.bind_some, openAfter_mark hu, hpop]
  rfl

end Nested

/-- A bracket at the front whose counterpart was found. -/
theorem nested_of_closing? {o c : Char} (hp : Pair o c) {t : Token} {i n : Nat}
    {xs rest : List Placed} {stack : List Char} (ht : t.mark? = some o)
    (ho : openAfter stack (t :: xs.map Prod.fst) = some [])
    (hc : closing? o c 0 ((t, i) :: xs) = some (n, rest)) :
    ∃ mid u j, xs = mid ++ (u, j) :: rest ∧ u.mark? = some c ∧ Nested (mid.map Prod.fst) := by
  obtain ⟨mid, u, j, rest', rfl, hc', hmid, -⟩ := closing?_of_nested (i := i) hp ht ho
  rw [hc] at hc'
  cases hc'
  obtain ⟨mid', u', j', hsplit, hu, -⟩ := closing?_eq_some hc
  rw [← List.cons_append] at hsplit
  obtain ⟨-, hlast⟩ := List.append_inj' hsplit rfl
  cases hlast
  exact ⟨mid, u, j, rfl, hu, hmid⟩

/-! ## Modifiers among nested tokens -/

theorem qualifiedRest?_nested {xs ys : List Placed} (h : qualifiedRest? xs = some ys) :
    ∃ mid, xs = mid ++ ys ∧ Nested (mid.map Prod.fst) := by
  fun_induction qualifiedRest? xs with
  | case1 =>
    cases h
    exact ⟨[], rfl, rfl⟩
  | case2 => cases h
  | case3 t i ht w j xs hw ih =>
    obtain ⟨word, hword⟩ := Option.isSome_iff_exists.1 hw
    obtain ⟨mid, rfl, hmid⟩ := ih h
    refine ⟨(t, i) :: (w, j) :: mid, rfl, (hmid.cons_word hword).cons fun c hc => ?_⟩
    rw [ht] at hc
    cases hc
    rfl
  | case4 => cases h
  | case5 =>
    cases h
    exact ⟨[], rfl, rfl⟩

theorem annotationRest?_nested {xs ys : List Placed} (h : annotationRest? xs = some ys)
    {stack : List Char} (ho : openAfter stack (xs.map Prod.fst) = some []) :
    ∃ args, xs = args ++ ys ∧ Nested (args.map Prod.fst) := by
  cases xs with
  | nil => cases h
  | cons p xs =>
    obtain ⟨t, i⟩ := p
    cases hw : t.word? with
    | none => simp [annotationRest?, hw] at h
    | some word =>
      rw [List.map_cons, openAfter_none (mark?_eq_none_of_word hw)] at ho
      by_cases hi : word = "interface".toList
      · rw [annotationRest?, hw] at h
        simp only [if_pos hi] at h
        cases h
      · rw [annotationRest?_cons _ hw hi] at h
        obtain ⟨rest, hq, hargs⟩ := Option.bind_eq_some_iff.1 h
        rw [qualifiedRest?_openAfter hq] at ho
        obtain ⟨mid, rfl, hmid⟩ := qualifiedRest?_nested hq
        split at hargs
        · next hp =>
          obtain ⟨u, k, rest, rfl, hu⟩ := exists_cons_of_markOf? hp
          obtain ⟨⟨j, rest'⟩, hc, rfl⟩ := Option.map_eq_some_iff.1 hargs
          obtain ⟨inner, v, l, rfl, hv, hinner⟩ := nested_of_closing? pair_parens hu ho hc
          refine ⟨(t, i) :: (mid ++ (u, k) :: (inner ++ [(v, l)])), by simp, ?_⟩
          have hparens := hinner.enclose pair_parens hu hv
          simpa using (hmid.append hparens).cons_word hw
        · cases hargs
          exact ⟨(t, i) :: mid, rfl, hmid.cons_word hw⟩

theorem Modifiers.nested {ms ys : List Placed} (hm : Modifiers ms) (h1 : markOf? ys ≠ some '.')
    (h2 : markOf? ys ≠ some '(') {stack : List Char}
    (ho : openAfter stack ((ms ++ ys).map Prod.fst) = some []) : Nested (ms.map Prod.fst) := by
  induction hm with
  | nil => rfl
  | word hw _ ih =>
    rw [List.cons_append, List.map_cons, openAfter_none (mark?_eq_none_of_word hw)] at ho
    exact (ih ho).cons_word hw
  | @markup t i args ms ht hargs hms ih =>
    have hat : bracket stack '@' = some stack := rfl
    rw [List.cons_append, List.cons_append, List.map_cons, openAfter_mark ht, hat,
      Option.bind_some, List.append_assoc] at ho
    have hr := hargs (ms ++ ys) (hms.head_ne (by decide) h1) (hms.head_ne (by decide) h2)
    obtain ⟨args', hsplit, hnested⟩ := annotationRest?_nested hr ho
    obtain rfl := List.append_cancel_right hsplit
    rw [List.cons_append, List.map_cons, List.map_append]
    refine (hnested.append (ih (annotationRest?_openAfter hr ho))).cons fun c hc => ?_
    rw [ht] at hc
    cases hc
    rfl

/-! ## The parts of a declaration -/

/-- A declaration taken apart. -/
structure Parts where
  /-- Modifiers and annotations. -/
  modifiers : List Token
  keyword : Token
  /-- The name, and what follows it up to the body. -/
  head : List Token
  opening : Token
  /-- What stands between the braces. -/
  body : List Token
  closing : Token

namespace Parts

/-- The parts put together. -/
def code (p : Parts) : List Token :=
  p.modifiers ++ p.keyword :: (p.head ++ p.opening :: (p.body ++ [p.closing]))

/-- Each part is what it should be, and the brackets of modifiers and body are nested. -/
structure Sound (p : Parts) : Prop where
  modifiers : Nested p.modifiers
  keyword : (p.keyword.word?.bind LocalKind.ofKeyword?).isSome = true
  head : ∀ t ∈ p.head, t.stops = false
  opening : p.opening.mark? = some '{'
  body : Nested p.body
  closing : p.closing.mark? = some '}'

/-- Only the head changes what is open. -/
theorem Sound.openAfter_code {p : Parts} (h : p.Sound) (stack : List Char) :
    openAfter stack p.code = openAfter stack p.head := by
  obtain ⟨w, hw, -⟩ := Option.bind_eq_some_iff.1 (Option.isSome_iff_exists.1 h.keyword).choose_spec
  have hbody := h.body.enclose pair_braces h.opening h.closing
  rw [code, openAfter_append, h.modifiers.openAfter_eq, Option.bind_some,
    openAfter_none (mark?_eq_none_of_word hw), openAfter_append]
  cases openAfter stack p.head with
  | none => rfl
  | some stack' => exact hbody.openAfter_eq stack'

end Parts

theorem Declares.parts {block : List Placed} (hd : Declares block) {stack : List Char}
    {rest : List Token} (ho : openAfter stack (block.map Prod.fst ++ rest) = some []) :
    ∃ p : Parts, block.map Prod.fst = p.code ∧ p.Sound := by
  cases hd with
  | @intro pre kw i kind mid o j inner e k hpre hkind hname hmid hop he hclose =>
    obtain ⟨w, hw, -⟩ := Option.bind_eq_some_iff.1 hkind
    -- what follows the declaration is given positions, which do not matter
    obtain ⟨ys, rfl⟩ : ∃ ys : List Placed, rest = ys.map Prod.fst :=
      ⟨rest.map (·, 0), by simp [Function.comp_def]⟩
    have hlist : pre ++ (kw, i) :: (mid ++ (o, j) :: (inner ++ [(e, k)])) ++ ys =
        pre ++ (kw, i) :: (mid ++ (o, j) :: (inner ++ (e, k) :: ys)) := by
      simp
    rw [← List.map_append, hlist] at ho
    have hmark : ∀ c, markOf? ((kw, i) :: (mid ++ (o, j) :: (inner ++ (e, k) :: ys))) ≠ some c := by
      intro c
      simp [mark?_eq_none_of_word hw]
    have hmods := hpre.nested (hmark '.') (hmark '(') ho
    have hbehind := hpre.open_behind (hmark '.') (hmark '(') ho
    rw [List.map_cons, openAfter_none (mark?_eq_none_of_word hw), List.map_append, List.map_cons,
      openAfter_append] at hbehind
    obtain ⟨stack', -, hbody⟩ := Option.bind_eq_some_iff.1 hbehind
    -- the brace behind the head is closed by the last one
    have hclose' : closing? '{' '}' 0 ((o, j) :: (inner ++ (e, k) :: ys)) = some (k + 1, ys) := by
      obtain ⟨front, u, l, hsplit, -, -, hany⟩ := closing?_eq_some hclose
      rw [← List.cons_append] at hsplit
      obtain ⟨rfl, hlast⟩ := List.append_inj' hsplit rfl
      cases hlast
      exact hany ys
    obtain ⟨inner', u, l, hsplit, -, hinner⟩ := nested_of_closing? pair_braces hop hbody hclose'
    obtain ⟨rfl, -⟩ := List.append_inj' hsplit rfl
    refine ⟨⟨pre.map Prod.fst, kw, mid.map Prod.fst, o, inner.map Prod.fst, e⟩, ?_, ?_⟩
    · simp [Parts.code]
    · refine ⟨hmods, by simp [hkind], ?_, hop, hinner, he⟩
      intro t ht
      obtain ⟨q, hq, rfl⟩ := List.mem_map.1 ht
      exact hmid q hq

/-- What moves out of a text with nested brackets, part by part. -/
theorem parts_of_mem_spansOf {ts : List Token} (h : Nested ts) {s : Span} (hs : s ∈ spansOf ts) :
    ∃ p : Parts, (s.block ts).filter (!·.isTrivia) = p.code ∧ p.Sound := by
  obtain ⟨hlt, hlen⟩ := bounds_of_mem_spansOf hs
  have hcode := map_fst_code (Nat.le_of_lt hlt) hlen
  have hsplit : ts = ts.take s.move.start ++ (s.block ts ++ ts.drop s.move.stop) := by
    rw [Span.block, ← drop_eq_tokensBetween_append ts (Nat.le_of_lt hlt), List.take_append_drop]
  rw [Nested, hsplit, openAfter_append] at h
  obtain ⟨stack, -, ho⟩ := Option.bind_eq_some_iff.1 h
  rw [openAfter_append, ← openAfter_filter stack (s.block ts), ← openAfter_append] at ho
  have hblock : (s.move.code ts).map Prod.fst = (s.block ts).filter (!·.isTrivia) := hcode
  rw [← hblock] at ho ⊢
  exact (declares_of_mem_spansOf hs).parts ho

/-! ## The relocated text -/

theorem nested_text {source : String} (h : Nested (tokens source.toList))
    (hs : ∀ s ∈ spansOf (tokens source.toList), Nested (s.block (tokens source.toList))) :
    Nested (tokens (relocate source).text.toList) := by
  have hsolid : ∀ us : List Token, openAfter [] (solid us) = openAfter [] us := by
    intro us
    rw [← openAfter_filter, filter_solid, openAfter_filter]
  have hlex : openAfter [] (lexemes (relocate source).text.toList) = some [] := by
    rw [lexemes_text, hsolid, rearranged_eq, openAfter_relocatedTokens
      (ordered_destinationsOf _) (Nat.le_refl 0) hs, List.drop_zero]
    exact h
  rwa [lexemes, hsolid] at hlex

/-- **What is nested in a relocated text.** In a source with nested brackets each declaration that
moves consists of nested modifiers, its keyword, a head without braces or semicolons, and a nested
body between braces. So it is nested exactly if its head is, and if all heads are, then the
relocated text is nested too. -/
theorem nested_relocate {source : String} (h : Nested (tokens source.toList)) :
    (∀ s ∈ spansOf (tokens source.toList), ∃ p : Parts,
      (s.block (tokens source.toList)).filter (!·.isTrivia) = p.code ∧ p.Sound ∧
        (Nested (s.block (tokens source.toList)) ↔ Nested p.head)) ∧
    ((∀ s ∈ spansOf (tokens source.toList), Nested (s.block (tokens source.toList))) →
      Nested (tokens (relocate source).text.toList)) := by
  refine ⟨fun s hs => ?_, nested_text h⟩
  obtain ⟨p, hcode, hp⟩ := parts_of_mem_spansOf h hs
  refine ⟨p, hcode, hp, ?_⟩
  rw [Nested, Nested, ← openAfter_filter, hcode, hp.openAfter_code]

/-- A record with brackets before and in its head. -/
def plainRecord : String :=
  "class A \x7b void f() \x7b @T(\x7b1\x7d) final record P(int[] x) \x7b \x7d \x7d \x7d"

theorem nested_plainRecord : (relocate plainRecord).moved = [⟨.record, "P", 1⟩] ∧
    Nested (tokens plainRecord.toList) ∧
    (∀ s ∈ spansOf (tokens plainRecord.toList), ∃ p : Parts,
      (s.block (tokens plainRecord.toList)).filter (!·.isTrivia) = p.code ∧ Nested p.head) ∧
    Nested (tokens (relocate plainRecord).text.toList) := by
  have hnested : Nested (tokens plainRecord.toList) := by decide +kernel
  have hblocks : ∀ s ∈ spansOf (tokens plainRecord.toList),
      Nested (s.block (tokens plainRecord.toList)) := by decide +kernel
  obtain ⟨hparts, htext⟩ := nested_relocate hnested
  refine ⟨by decide +kernel, hnested, fun s hs => ?_, htext hblocks⟩
  obtain ⟨p, hcode, -, hiff⟩ := hparts s hs
  exact ⟨p, hcode, hiff.1 (hblocks s hs)⟩

/-- A record with an annotation in its head, which has braces in its arguments. -/
def annotatedRecord : String :=
  "class A \x7b void f() \x7b record P(@T(\x7b1\x7d) int x) \x7b \x7d \x7d \x7d"

/-- The move ends with the brace of the annotation, inside two pairs of parentheses. -/
theorem not_nested_annotatedRecord : Nested (tokens annotatedRecord.toList) ∧
    (relocate annotatedRecord).moved = [⟨.record, "P", 1⟩] ∧
    (∀ s ∈ spansOf (tokens annotatedRecord.toList),
      Token.join (s.block (tokens annotatedRecord.toList)) = "record P(@T(\x7b1\x7d".toList ∧
        ¬ Nested (s.block (tokens annotatedRecord.toList))) ∧
    ¬ Nested (tokens (relocate annotatedRecord).text.toList) := by
  decide +kernel

end MinimumRelease.Recovery
