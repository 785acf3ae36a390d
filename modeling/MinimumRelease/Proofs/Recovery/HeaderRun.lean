import MinimumRelease.Proofs.Recovery.Nesting

/-! # Headers among nested tokens

Reading a header looks ahead, past its own end: from an annotation for its
arguments, from a keyword for a body, from `record` for a name. Where every
bracket is closed, what stands behind the header matters only by its first
token (`Passes.behind`). A run over nested tokens closes all braces that it
opens, so every declaration that it recognises moves (`Scan.reaches`). -/

namespace MinimumRelease.Recovery

open Token

/-- From the header `h` before `xs` the scanner reads on to the header `h'` before `ys`. -/
inductive Passes (b : List Brace) : Header → List Placed → Header → List Placed → Prop
  | refl {h xs} : Passes b h xs h xs
  | step {h xs h₁ xs₁ h' ys} : Advance b h xs h₁ xs₁ → Passes b h₁ xs₁ h' ys → Passes b h xs h' ys

theorem Passes.trans {b h xs h₁ ys h' zs} (hp : Passes b h xs h₁ ys) (hq : Passes b h₁ ys h' zs) :
    Passes b h xs h' zs := by
  induction hp with
  | refl => exact hq
  | step ha _ ih => exact .step ha (ih hq)

theorem Passes.quiet_iff {b h xs h' ys} (hp : Passes b h xs h' ys) :
    Quiet b h xs ↔ Quiet b h' ys := by
  induction hp with
  | refl => exact Iff.rfl
  | step ha _ ih => exact (quiet_advance ha).trans ih

theorem Passes.split {b h xs h' ys} (hp : Passes b h xs h' ys) : ∃ held, xs = held ++ ys := by
  induction hp with
  | refl => exact ⟨[], rfl⟩
  | step ha _ ih =>
    obtain ⟨t, i, mid, rfl, -⟩ := ha.split
    obtain ⟨held, rfl⟩ := ih
    exact ⟨(t, i) :: mid ++ held, by simp⟩

/-! ## Closed brackets -/

/-- Every parenthesis and every brace that opens is closed. -/
def Closes (xs : List Placed) : Prop :=
  ∀ as t i bs o c, xs = as ++ (t, i) :: bs → Pair o c → t.mark? = some o →
    (closing? o c 0 ((t, i) :: bs)).isSome = true

theorem Closes.suffix {as bs : List Placed} (h : Closes (as ++ bs)) : Closes bs := by
  intro cs t i ds o c hs
  exact h (as ++ cs) t i ds o c (by rw [hs, List.append_assoc])

theorem Closes.of_openAfter {stack : List Char} {xs : List Placed}
    (h : openAfter stack (xs.map Prod.fst) = some []) : Closes xs := by
  intro as t i bs o c hs hp ht
  rw [hs, List.map_append, List.map_cons, openAfter_append] at h
  obtain ⟨stack', -, h⟩ := Option.bind_eq_some_iff.1 h
  obtain ⟨-, -, j, rest, -, hc, -, -⟩ := closing?_of_nested (i := i) hp ht h
  rw [hc]
  rfl

theorem recognise?_of_closes {kind w i name xs body} (hw : w.word? = some name)
    (hfit : LocalKind.fits kind xs = true) (hbody : body? xs = some body) (hc : Closes xs) :
    ∃ r, recognise? kind ((w, i) :: xs) = some r := by
  obtain ⟨hm, mid, -, rfl⟩ := body?_eq_some_iff.1 hbody
  obtain ⟨t, k, body, rfl, ht⟩ := exists_cons_of_markOf? hm
  have hsome := hc mid t k body '{' '}' rfl pair_braces ht
  obtain ⟨⟨stop, rest⟩, hclose⟩ := Option.isSome_iff_exists.1 hsome
  rw [recognise?_cons kind _ hw, if_pos hfit, hbody, Option.bind_some, hclose]
  exact ⟨_, rfl⟩

/-- `ys'` begins with the brace or the semicolon that `ys` begins with, or with a closing brace
where `ys` is at its end. Either way the same declarations have a body before it. -/
def SameStop (ys ys' : List Placed) : Prop :=
  ∃ x zs', ys' = x :: zs' ∧ x.1.stops = true ∧
    ((∃ zs, ys = x :: zs) ∨ ys = [] ∧ x.1.mark? = some '}')

theorem word?_of_stops {t : Token} (h : t.stops = true) : t.word? = none := by
  cases hw : t.word? with
  | none => rfl
  | some w => simp [Token.stops, mark?_eq_none_of_word hw] at h

theorem body?_before {held ys ys' body} (hs : SameStop ys ys')
    (hb : body? (held ++ ys') = some body) :
    ∃ body', body? (held ++ ys) = some body' ∧ markOf? (held ++ ys) = markOf? (held ++ ys') ∧
      wordOf? (held ++ ys) = wordOf? (held ++ ys') := by
  obtain ⟨x, zs', rfl, hx, hsame⟩ := hs
  obtain ⟨hm, mid, hmid, hsplit⟩ := body?_eq_some_iff.1 hb
  -- the body begins before the stop, or at it
  obtain ⟨more, rfl, rfl⟩ : ∃ more, held = mid ++ more ∧ body = more ++ x :: zs' := by
    rcases List.append_eq_append_iff.1 hsplit with ⟨more, h1, h2⟩ | ⟨more, h1, h2⟩
    · cases more with
      | nil => exact ⟨[], by simpa using h1.symm, h2.symm⟩
      | cons y more =>
        have hxy : x = y := (List.cons.inj h2).1
        have hy := hmid y (by rw [h1]; simp)
        rw [← hxy, hx] at hy
        cases hy
    · exact ⟨more, h1, h2⟩
  rcases hsame with ⟨zs, rfl⟩ | ⟨rfl, hclose⟩
  · refine ⟨more ++ x :: zs, body?_eq_some_iff.2 ⟨?_, mid, hmid, by simp⟩, ?_⟩
    · rw [← hm]
      cases more <;> rfl
    · cases mid ++ more <;> exact ⟨rfl, rfl⟩
  · cases more with
    | nil =>
      have hopen : x.1.mark? = some '{' := hm
      rw [hclose] at hopen
      cases hopen
    | cons y more =>
      refine ⟨y :: more, body?_eq_some_iff.2 ⟨hm, mid, hmid, by simp⟩, ?_⟩
      cases mid <;> exact ⟨rfl, rfl⟩

theorem recognise?_before {kind held ys ys' r} (hs : SameStop ys ys') (hc : Closes (held ++ ys))
    (h : recognise? kind (held ++ ys') = some r) :
    ∃ r', recognise? kind (held ++ ys) = some r' := by
  cases held with
  | nil =>
    obtain ⟨x, zs', rfl, hx, -⟩ := hs
    simp [recognise?, wordOf?, word?_of_stops hx] at h
  | cons p held =>
    obtain ⟨w, i⟩ := p
    cases hw : w.word? with
    | none => simp [recognise?, hw] at h
    | some name =>
      rw [List.cons_append, recognise?_cons kind _ hw] at h
      split at h
      · next hfit =>
        obtain ⟨r', hr, -⟩ := Option.map_eq_some_iff.1 h
        obtain ⟨body, hbody, -⟩ := Option.bind_eq_some_iff.1 hr
        obtain ⟨body', hbody', hmark, hword⟩ := body?_before hs hbody
        have hfit' : kind.fits (held ++ ys) = true := by
          rw [fits_congr hmark hword, hfit]
        exact recognise?_of_closes hw hfit' hbody' (@Closes.suffix [(w, i)] _ hc)
      · cases h

theorem localDeclaration?_before {b h t held ys ys'} (hs : SameStop ys ys')
    (hc : Closes (held ++ ys)) (hn : localDeclaration? b h t (held ++ ys) = none) :
    localDeclaration? b h t (held ++ ys') = none := by
  unfold localDeclaration? at hn ⊢
  split
  · next hcode =>
    rw [if_pos hcode] at hn
    cases hk : t.word?.bind LocalKind.ofKeyword? with
    | none => rfl
    | some kind =>
      simp only [hk, Option.map_eq_none_iff] at hn ⊢
      cases hr : recognise? kind (held ++ ys') with
      | none => rfl
      | some r =>
        obtain ⟨r', hr'⟩ := recognise?_before hs hc hr
        rw [hn] at hr'
        cases hr'
  · rfl

/-! ## What stands behind a header -/

theorem getLast?_of_cons {p : Placed} {held : List Placed} {q : Placed}
    (h : held.getLast? = some q) : (p :: held).getLast? = some q := by
  rw [List.getLast?_cons, h, Option.getD_some]

/-- `.Name` any number of times before something else, with or without a word at its front. -/
theorem qualifiedRest?_before {ys ys' : List Placed} (hy : markOf? ys ≠ some '.')
    (hy' : markOf? ys' ≠ some '.') : ∀ {held q'},
      (wordOf? ys' = none ∨ ∀ p, held.getLast? = some p → p.1.mark? ≠ some '.') →
      qualifiedRest? (held ++ ys') = some q' → ∃ q, qualifiedRest? (held ++ ys) = some q
  | [], _, _, _ => ⟨ys, qualifiedRest?_of_ne hy⟩
  | [(t, i)], q', hl, h => by
    by_cases ht : t.mark? = some '.'
    · -- a dot that nothing follows in the header
      rcases hl with hw | hl
      · cases ys' with
        | nil =>
          rw [List.append_nil, qualifiedRest?.eq_def] at h
          simp [ht] at h
        | cons p ys' =>
          obtain ⟨w, j⟩ := p
          rw [wordOf?_cons] at hw
          rw [List.singleton_append, qualifiedRest?.eq_def] at h
          simp [ht, hw] at h
      · exact absurd ht (hl (t, i) rfl)
    · exact ⟨_, qualifiedRest?_of_ne ht⟩
  | (t, i) :: (w, j) :: held, q', hl, h => by
    by_cases ht : t.mark? = some '.'
    · rw [List.cons_append, List.cons_append, qualifiedRest?.eq_def] at h ⊢
      simp only [if_pos ht] at h ⊢
      split at h
      · next hw =>
        rw [if_pos hw]
        refine qualifiedRest?_before hy hy' ?_ h
        rcases hl with hl | hl
        · exact .inl hl
        · exact .inr fun p hp => hl p (getLast?_of_cons (getLast?_of_cons hp))
      · cases h
    · exact ⟨_, qualifiedRest?_of_ne ht⟩

theorem annotationRest?_before {held ys ys' : List Placed} (hc : Closes (held ++ ys))
    (hy : markOf? ys ≠ some '.') (hy' : markOf? ys' ≠ some '.')
    (hl : wordOf? ys' = none ∨
      held ≠ [] ∧ ∀ p, held.getLast? = some p → p.1.mark? ≠ some '.')
    (hn : annotationRest? (held ++ ys) = none) : annotationRest? (held ++ ys') = none := by
  cases held with
  | nil =>
    rcases hl with hl | ⟨hl, -⟩
    · cases ys' with
      | nil => rfl
      | cons p ys' =>
        obtain ⟨w, j⟩ := p
        rw [wordOf?_cons] at hl
        rw [List.nil_append, annotationRest?, hl]
    · exact absurd rfl hl
  | cons p held =>
    obtain ⟨w, j⟩ := p
    cases hw : w.word? with
    | none => rw [List.cons_append, annotationRest?, hw]
    | some word =>
      by_cases hi : word = "interface".toList
      · rw [List.cons_append, annotationRest?, hw]
        simp only [if_pos hi]
      · rw [List.cons_append, annotationRest?_cons _ hw hi] at hn ⊢
        cases hq' : qualifiedRest? (held ++ ys') with
        | none => rfl
        | some q' =>
          -- then there is an annotation already before `ys`, as its parentheses are closed
          have hl' : wordOf? ys' = none ∨
              ∀ p, held.getLast? = some p → p.1.mark? ≠ some '.' := by
            rcases hl with hl | ⟨-, hl⟩
            · exact .inl hl
            · exact .inr fun p hp => hl p (getLast?_of_cons hp)
          obtain ⟨q, hq⟩ := qualifiedRest?_before hy hy' hl' hq'
          obtain ⟨-, mid, hsplit, -⟩ := qualifiedRest?_eq_some hq
          rw [hq, Option.bind_some] at hn
          split at hn
          · next hp =>
            obtain ⟨t, k, q, rfl, ht⟩ := exists_cons_of_markOf? hp
            have hsome := hc ((w, j) :: mid) t k q '(' ')'
              (by rw [List.cons_append, hsplit, List.cons_append]) pair_parens ht
            rw [Option.map_eq_none_iff] at hn
            rw [hn] at hsome
            cases hsome
          · cases hn

/-- The token waits for the next one: a dot, an `@` or the word `record`. -/
def Token.expects (t : Token) : Bool :=
  t.mark? = some '.' || t.mark? = some '@' || t.word? = some "record".toList

/-- `ys'` may stand in the place of `ys` behind `held`: nothing at the end of `held` waits for
what comes, or no word comes, and the same declarations are recognised. -/
structure Behind (b : List Brace) (held ys ys' : List Placed) : Prop where
  dot : markOf? ys ≠ some '.' ∧ markOf? ys' ≠ some '.'
  paren : markOf? ys' ≠ some '('
  word : (wordOf? ys = none ∧ wordOf? ys' = none) ∨
    ∀ p, held.getLast? = some p → p.1.expects = false
  body : inCode b = false ∨ SameStop ys ys'

theorem Behind.suffix {b as held ys ys'} (h : Behind b (as ++ held) ys ys') :
    Behind b held ys ys' := by
  refine ⟨h.dot, h.paren, ?_, h.body⟩
  rcases h.word with hw | hl
  · exact .inl hw
  · refine .inr fun p hp => hl p ?_
    rw [List.getLast?_append, hp, Option.some_or]

theorem localDeclaration?_of_not_inCode {b h t rest} (hb : inCode b = false) :
    localDeclaration? b h t rest = none := by
  unfold localDeclaration?
  rw [hb, Bool.false_and]
  rfl

theorem addWord_congr {h : Header} {i : Nat} {w : List Char} {n n' : Bool}
    (hn : w = "record".toList → n = n') : h.addWord i w n = h.addWord i w n' := by
  by_cases hw : w = "record".toList
  · rw [hn hw]
  · simp only [Header.addWord, hw, decide_false, Bool.false_and, Bool.or_false]

theorem Advance.behind {b h xs h₁ zs} (ha : Advance b h xs h₁ zs) {held held₁ ys ys'}
    (hx : xs = held ++ ys) (hz : zs = held₁ ++ ys) (hb : Behind b held ys ys') (hc : Closes xs) :
    Advance b h (held ++ ys') h₁ (held₁ ++ ys') ∧ ∃ as, held = as ++ held₁ := by
  -- all but an annotation pass over one token
  have hone : ∀ {t i}, (t, i) :: zs = held ++ ys → held = (t, i) :: held₁ := by
    intro t i he
    rw [hz, ← List.cons_append] at he
    exact (List.append_cancel_right he).symm
  cases ha with
  | @markup t i rest _ ht hr =>
    obtain ⟨mid, rfl, hmid⟩ := annotationRest?_eq_some hr
    have hsplit : held ++ ys = ((t, i) :: mid ++ held₁) ++ ys := by
      rw [← hx, hz, List.append_assoc]
      rfl
    obtain rfl := List.append_cancel_right hsplit
    rw [List.cons_append, List.cons_append, List.append_assoc]
    refine ⟨.markup ht ?_, (t, i) :: mid, rfl⟩
    apply hmid
    rw [hz]
    cases held₁ with
    | nil => exact .inr ⟨hb.dot.2, hb.paren⟩
    | cons p held₁ => exact .inl rfl
  | @loneAt t i _ ht hr =>
    obtain rfl := hone hx
    refine ⟨.loneAt ht ?_, [(t, i)], rfl⟩
    rw [hz] at hr hc
    refine annotationRest?_before (@Closes.suffix [(t, i)] _ hc) hb.dot.1 hb.dot.2 ?_ hr
    rcases hb.word with ⟨-, hw⟩ | hl
    · exact .inl hw
    · refine .inr ⟨?_, fun p hp hdot => ?_⟩
      · rintro rfl
        have := hl (t, i) rfl
        simp [Token.expects, ht] at this
      · have := hl p (getLast?_of_cons hp)
        simp [Token.expects, hdot] at this
  | @mark t i _ c ht hs hat =>
    obtain rfl := hone hx
    exact ⟨.mark ht hs hat, [(t, i)], rfl⟩
  | @word t i _ w hw hf =>
    obtain rfl := hone hx
    rw [hz] at hf hc ⊢
    have hf' : localDeclaration? b h t (held₁ ++ ys') = none := by
      rcases hb.body with hb | hs
      · exact localDeclaration?_of_not_inCode hb
      · exact localDeclaration?_before hs (@Closes.suffix [(t, i)] _ hc) hf
    have hnext : h.addWord i w (wordOf? (held₁ ++ ys)).isSome =
        h.addWord i w (wordOf? (held₁ ++ ys')).isSome := by
      apply addWord_congr
      rintro rfl
      cases held₁ with
      | cons p held₁ => rfl
      | nil =>
        rcases hb.word with ⟨h1, h2⟩ | hl
        · rw [List.nil_append, List.nil_append, h1, h2]
        · have := hl (t, i) rfl
          simp [Token.expects, hw] at this
    rw [hnext]
    exact ⟨.word hw hf', [(t, i)], rfl⟩
  | @literal t i _ hm hw =>
    obtain rfl := hone hx
    exact ⟨.literal hm hw, [(t, i)], rfl⟩

/-- **A header is read the same before other tokens.** -/
theorem Passes.behind {b h xs h' ys} (hp : Passes b h xs h' ys) : ∀ {held ys'},
    xs = held ++ ys → Behind b held ys ys' → Closes xs → Passes b h (held ++ ys') h' ys' := by
  induction hp with
  | refl =>
    intro held ys' hx _ _
    obtain rfl : held = [] := by simpa using hx
    exact .refl
  | step ha hrest ih =>
    intro held ys' hx hb hc
    obtain ⟨held₁, hz⟩ := hrest.split
    obtain ⟨ha', as, rfl⟩ := ha.behind hx hz hb hc
    refine .step ha' (ih hz hb.suffix ?_)
    rw [hx, List.append_assoc] at hc
    rw [hz]
    exact hc.suffix

/-! ## Runs over nested tokens

The scanner keeps one brace for each brace on the stack of open brackets, and
passes over annotations and declarations as a whole. -/

theorem count_bracket {stack stack' : List Char} {c : Char} (h : bracket stack c = some stack')
    (h1 : c ≠ '{') (h2 : c ≠ '}') : stack'.count '{' = stack.count '{' := by
  unfold bracket at h
  split at h
  · cases h
    exact List.count_cons_of_ne h1
  · split at h
    · cases h
      rfl
    · next o ho =>
      split at h
      · next hh =>
        cases h
        cases stack with
        | nil => rfl
        | cons s stack =>
          obtain rfl : s = o := Option.some.inj hh
          have hs : s ≠ '{' := by
            rintro rfl
            exact h2 (pair_braces.eq_of_opening? ho)
          exact (List.count_cons_of_ne hs).symm
      · cases h

theorem openAfter_unbroken {mid : List Placed} (hmid : Unbroken mid) {rest : List Token} :
    ∀ {stack : List Char}, openAfter stack (mid.map Prod.fst ++ rest) = some [] →
      ∃ stack', openAfter stack' rest = some [] ∧ stack'.count '{' = stack.count '{' := by
  induction mid with
  | nil =>
    intro stack h
    exact ⟨stack, h, rfl⟩
  | cons p mid ih =>
    intro stack h
    have hrest : Unbroken mid := fun q hq => hmid q (List.mem_cons_of_mem _ hq)
    rw [List.map_cons, List.cons_append] at h
    cases hm : p.1.mark? with
    | none =>
      rw [openAfter_none hm] at h
      exact ih hrest h
    | some c =>
      rw [openAfter_mark hm] at h
      obtain ⟨stack₁, hb, h⟩ := Option.bind_eq_some_iff.1 h
      obtain ⟨stack', hs, hc⟩ := ih hrest h
      have hstop := hmid p List.mem_cons_self
      simp only [Token.stops, hm, Option.some.injEq, Bool.or_eq_false_iff,
        decide_eq_false_iff_not] at hstop
      exact ⟨stack', hs, hc.trans (count_bracket hb hstop.1.2 hstop.2)⟩

theorem qualifiedRest?_openAfter {xs ys : List Placed} (h : qualifiedRest? xs = some ys)
    (stack : List Char) :
    openAfter stack (xs.map Prod.fst) = openAfter stack (ys.map Prod.fst) := by
  fun_induction qualifiedRest? xs with
  | case1 =>
    cases h
    rfl
  | case2 => cases h
  | case3 t i ht w j xs hw ih =>
    obtain ⟨word, hword⟩ := Option.isSome_iff_exists.1 hw
    have hdot : bracket stack '.' = some stack := rfl
    rw [List.map_cons, List.map_cons, openAfter_mark ht, hdot, Option.bind_some,
      openAfter_none (mark?_eq_none_of_word hword), ih h]
  | case4 => cases h
  | case5 =>
    cases h
    rfl

theorem annotationRest?_openAfter {xs ys : List Placed} (h : annotationRest? xs = some ys)
    {stack : List Char} (ho : openAfter stack (xs.map Prod.fst) = some []) :
    openAfter stack (ys.map Prod.fst) = some [] := by
  cases xs with
  | nil => cases h
  | cons p xs =>
    obtain ⟨t, i⟩ := p
    cases hw : t.word? with
    | none => simp [annotationRest?, hw] at h
    | some word =>
      rw [List.map_cons, openAfter_none (mark?_eq_none_of_word hw)] at ho
      by_cases hi : word = "interface".toList
      · rw [annotationRest?, hw] at h
        simp only [if_pos hi] at h
        cases h
      · rw [annotationRest?_cons _ hw hi] at h
        obtain ⟨rest, hq, h⟩ := Option.bind_eq_some_iff.1 h
        rw [qualifiedRest?_openAfter hq] at ho
        split at h
        · next hp =>
          obtain ⟨u, k, rest, rfl, hu⟩ := exists_cons_of_markOf? hp
          obtain ⟨⟨j, rest'⟩, hc, rfl⟩ := Option.map_eq_some_iff.1 h
          obtain ⟨-, -, j', rest'', -, hc', -, ho'⟩ :=
            closing?_of_nested (i := k) pair_parens hu ho
          rw [hc] at hc'
          cases hc'
          exact ho'
        · cases h
          exact ho

theorem Advance.open_behind {b h xs h' ys} (ha : Advance b h xs h' ys) {stack : List Char}
    (ho : openAfter stack (xs.map Prod.fst) = some []) :
    ∃ stack', openAfter stack' (ys.map Prod.fst) = some [] ∧
      stack'.count '{' = stack.count '{' := by
  have hat : bracket stack '@' = some stack := rfl
  cases ha with
  | markup ht hr =>
    rw [List.map_cons, openAfter_mark ht, hat, Option.bind_some] at ho
    exact ⟨stack, annotationRest?_openAfter hr ho, rfl⟩
  | loneAt ht hr =>
    rw [List.map_cons, openAfter_mark ht, hat, Option.bind_some] at ho
    exact ⟨stack, ho, rfl⟩
  | mark ht hs _ =>
    rw [List.map_cons, openAfter_mark ht] at ho
    obtain ⟨stack', hb, ho⟩ := Option.bind_eq_some_iff.1 ho
    simp only [Token.stops, ht, Option.some.injEq, Bool.or_eq_false_iff,
      decide_eq_false_iff_not] at hs
    exact ⟨stack', ho, count_bracket hb hs.1.2 hs.2⟩
  | word hw _ =>
    rw [List.map_cons, openAfter_none (mark?_eq_none_of_word hw)] at ho
    exact ⟨stack, ho, rfl⟩
  | literal hm _ =>
    rw [List.map_cons, openAfter_none hm] at ho
    exact ⟨stack, ho, rfl⟩

theorem recognise?_openAfter {kind : LocalKind} {xs : List Placed} {r : Recognised}
    (h : recognise? kind xs = some r) {stack : List Char}
    (ho : openAfter stack (xs.map Prod.fst) = some []) :
    ∃ stack', openAfter stack' (r.rest.map Prod.fst) = some [] ∧
      stack'.count '{' = stack.count '{' := by
  cases xs with
  | nil => cases h
  | cons p xs =>
    obtain ⟨w, i⟩ := p
    cases hw : w.word? with
    | none => simp [recognise?, hw] at h
    | some name =>
      rw [List.map_cons, openAfter_none (mark?_eq_none_of_word hw)] at ho
      rw [recognise?_cons kind _ hw] at h
      split at h
      · obtain ⟨⟨j, rest⟩, hr, rfl⟩ := Option.map_eq_some_iff.1 h
        obtain ⟨body, hbody, hclose⟩ := Option.bind_eq_some_iff.1 hr
        obtain ⟨hm, mid, hmid, rfl⟩ := body?_eq_some_iff.1 hbody
        rw [List.map_append] at ho
        obtain ⟨stack', ho, hcount⟩ := openAfter_unbroken hmid ho
        obtain ⟨t, k, body, rfl, ht⟩ := exists_cons_of_markOf? hm
        obtain ⟨-, -, j', rest', -, hc', -, ho'⟩ :=
          closing?_of_nested (i := k) pair_braces ht ho
        rw [hclose] at hc'
        cases hc'
        exact ⟨stack', ho', hcount⟩
      · cases h

theorem localDeclaration?_openAfter {b h t rest kind r}
    (hf : localDeclaration? b h t rest = some (kind, r)) {stack : List Char}
    (ho : openAfter stack (t :: rest.map Prod.fst) = some []) :
    ∃ stack', openAfter stack' (r.rest.map Prod.fst) = some [] ∧
      stack'.count '{' = stack.count '{' := by
  obtain ⟨w, hw⟩ := exists_word_of_found hf
  obtain ⟨-, -, -, hr⟩ := localDeclaration?_eq_some hf
  rw [openAfter_none (mark?_eq_none_of_word hw)] at ho
  exact recognise?_openAfter hr ho

/-- The stack of open brackets goes with the braces of the scanner. -/
structure Level (b : List Brace) (stack : List Char) (xs : List Placed) : Prop where
  nested : openAfter stack (xs.map Prod.fst) = some []
  braces : stack.count '{' = b.length

theorem Level.opening {b stack t i rest} (hl : Level b stack ((t, i) :: rest))
    (ht : t.mark? = some '{') (a : Brace) : Level (a :: b) ('{' :: stack) rest := by
  have ho := hl.nested
  have hpush : bracket stack '{' = some ('{' :: stack) := rfl
  rw [List.map_cons, openAfter_mark ht, hpush, Option.bind_some] at ho
  exact ⟨ho, by rw [List.count_cons_self, hl.braces, List.length_cons]⟩

theorem Level.closing {b stack t i rest} (hl : Level b stack ((t, i) :: rest))
    (ht : t.mark? = some '}') : ∃ a b' stack', b = a :: b' ∧ Level b' stack' rest := by
  have ho := hl.nested
  rw [List.map_cons, openAfter_mark ht] at ho
  obtain ⟨stack', hb, ho'⟩ := Option.bind_eq_some_iff.1 ho
  have hpop : stack.head? = some '{' ∧ stack' = stack.tail := by
    have hb' : (if stack.head? = some '{' then some stack.tail else none) = some stack' := hb
    split at hb'
    · next hh => exact ⟨hh, (Option.some.inj hb').symm⟩
    · cases hb'
  have hc := hl.braces
  cases stack with
  | nil => cases hpop.1
  | cons s stack =>
    obtain rfl : s = '{' := Option.some.inj hpop.1
    rw [List.count_cons_self] at hc
    cases b with
    | nil => cases hc
    | cons a b => exact ⟨a, b, stack', rfl, ho', by rw [hpop.2]; exact Nat.succ.inj hc⟩

theorem Level.semicolon {b stack t i rest} (hl : Level b stack ((t, i) :: rest))
    (ht : t.mark? = some ';') : Level b stack rest := by
  have ho := hl.nested
  have hkeep : bracket stack ';' = some stack := rfl
  rw [List.map_cons, openAfter_mark ht, hkeep, Option.bind_some] at ho
  exact ⟨ho, hl.braces⟩

theorem Level.advance {b b' stack h xs h' ys} (hl : Level b stack xs)
    (ha : Advance b' h xs h' ys) : ∃ stack', Level b stack' ys := by
  obtain ⟨stack', ho, hc⟩ := ha.open_behind hl.nested
  exact ⟨stack', ho, hc.trans hl.braces⟩

theorem Level.found {b b' stack h t i rest kind r} (hl : Level b stack ((t, i) :: rest))
    (hf : localDeclaration? b' h t rest = some (kind, r)) : ∃ stack', Level b stack' r.rest := by
  obtain ⟨stack', ho, hc⟩ := localDeclaration?_openAfter hf hl.nested
  exact ⟨stack', ho, hc.trans hl.braces⟩

/-- **A run over nested tokens comes to the brace that closes the outermost one**, and what is
pending moves there. -/
theorem Scan.reaches {b h p xs ds} (s : Scan b h p xs ds) : ∀ {stack}, Level b stack xs →
    b ≠ [] → ∃ d ds', ds = d :: ds' ∧ p <+: d.moves := by
  induction s with
  | nil =>
    intro stack hl hb
    have hstack : stack = [] := Option.some.inj hl.nested
    have hlen := hl.braces
    rw [hstack] at hlen
    exact absurd (List.length_eq_zero_iff.1 hlen.symm) hb
  | opening ht _ ih =>
    intro stack hl _
    exact ih (hl.opening ht _) (by simp)
  | stray =>
    intro stack _ hb
    exact absurd rfl hb
  | @outermost a h p t i rest ds ht _ _ =>
    intro stack _ _
    exact ⟨⟨i, p⟩, ds, rfl, List.prefix_rfl⟩
  | inner ht _ ih =>
    intro stack hl _
    obtain ⟨a, b', stack', hb, hl'⟩ := hl.closing ht
    cases hb
    exact ih hl' (by simp)
  | semicolon ht _ ih =>
    intro stack hl hb
    exact ih (hl.semicolon ht) hb
  | advance ha _ ih =>
    intro stack hl hb
    obtain ⟨stack', hl'⟩ := hl.advance ha
    exact ih hl' hb
  | found hf _ ih =>
    intro stack hl hb
    obtain ⟨stack', hl'⟩ := hl.found hf
    obtain ⟨d, ds', rfl, hp⟩ := ih hl' hb
    exact ⟨d, ds', rfl, (List.prefix_append ..).trans hp⟩

/-- A run over nested tokens that is not quiet moves something. -/
theorem Scan.moves_of_not_quiet {b h p xs ds} (s : Scan b h p xs ds) : ∀ {stack},
    Level b stack xs → ¬ Quiet b h xs → ∃ d ∈ ds, d.moves ≠ [] := by
  induction s with
  | nil =>
    intro stack _ hq
    exact absurd .nil hq
  | opening ht _ ih =>
    intro stack hl hq
    exact ih (hl.opening ht _) fun h => hq ((quiet_opening ht).2 h)
  | stray ht _ ih =>
    intro stack hl hq
    obtain ⟨a, b', stack', hb, -⟩ := hl.closing ht
    cases hb
  | outermost ht _ ih =>
    intro stack hl hq
    obtain ⟨a, b', stack', hb, hl'⟩ := hl.closing ht
    cases hb
    obtain ⟨d, hd, hm⟩ := ih hl' fun h => hq ((quiet_closing ht).2 h)
    exact ⟨d, List.mem_cons_of_mem _ hd, hm⟩
  | inner ht _ ih =>
    intro stack hl hq
    obtain ⟨a, b', stack', hb, hl'⟩ := hl.closing ht
    cases hb
    exact ih hl' fun h => hq ((quiet_closing ht).2 h)
  | semicolon ht _ ih =>
    intro stack hl hq
    exact ih (hl.semicolon ht) fun h => hq ((quiet_semicolon ht).2 h)
  | advance ha _ ih =>
    intro stack hl hq
    obtain ⟨stack', hl'⟩ := hl.advance ha
    exact ih hl' fun h => hq ((quiet_advance ha).2 h)
  | found hf s _ =>
    intro stack hl _
    obtain ⟨stack', hl'⟩ := hl.found hf
    obtain ⟨hcode, -, -, -⟩ := localDeclaration?_eq_some hf
    obtain ⟨d, ds', rfl, hp⟩ := s.reaches hl' (by rintro rfl; cases hcode)
    refine ⟨d, List.mem_cons_self, fun hm => ?_⟩
    rw [hm] at hp
    simp at hp

/-- **Over nested tokens the quiet runs are those that move nothing.** -/
theorem quiet_iff_no_moves {xs : List Placed} (hn : Nested (xs.map Prod.fst)) :
    Quiet [] {} xs ↔ ∀ d ∈ destinations [] {} [] xs, d.moves = [] := by
  have s := scan_destinations [] {} [] xs
  constructor
  · intro hq
    exact s.moves_of_quiet rfl hq
  · intro hm
    refine Classical.byContradiction fun hq => ?_
    have hl : Level [] [] xs := ⟨hn, rfl⟩
    obtain ⟨d, hd, hne⟩ := s.moves_of_not_quiet hl hq
    exact hne (hm d hd)

end MinimumRelease.Recovery
