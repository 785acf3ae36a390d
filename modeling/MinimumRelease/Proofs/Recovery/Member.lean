import MinimumRelease.Proofs.Recovery.HeaderRun

/-! # Declarations as members

A declaration that was moved stands in the body of a type, and is scanned
again there. Whether that is quiet depends on the body of the declaration
alone, and on nothing around it (`Declares.quiet_append`): its keyword opens
the body of a type, and what is nested is scanned the same before whatever
follows it. The placeholders between the declarations are always quiet. -/

namespace MinimumRelease.Recovery

open Token

/-! ## Nested tokens in a context -/

theorem localDeclaration?_append {b h t rest kind r} (ys : List Placed)
    (hf : localDeclaration? b h t rest = some (kind, r)) :
    ∃ r', localDeclaration? b h t (rest ++ ys) = some (kind, r') := by
  obtain ⟨hcode, hmod, hkind, hr⟩ := localDeclaration?_eq_some hf
  obtain ⟨w, i, mid, o, j, inner, e, k, hrest, -, -, -, -, -, hany, -⟩ := recognise?_eq_some hr
  have hrest' : rest ++ ys = (w, i) :: mid ++ (o, j) :: inner ++ (e, k) :: (r.rest ++ ys) := by
    rw [hrest]
    simp
  refine ⟨⟨r.name, r.stop, r.rest ++ ys⟩, ?_⟩
  unfold localDeclaration?
  rw [hcode, hmod, hkind, hrest']
  show (recognise? kind _).map (kind, ·) = _
  rw [hany]
  rfl

/-- **Nested tokens are scanned the same in every context.** Before a closing brace the run is
quiet if it is quiet on them alone and on what follows the brace. -/
theorem Scan.quiet_append {b h p xs ds} (s : Scan b h p xs ds) : ∀ {b₀ outer stack e i ys},
    b = b₀ ++ outer → Level b₀ stack xs → e.mark? = some '}' →
      (Quiet b h (xs ++ (e, i) :: ys) ↔ Quiet b h xs ∧ Quiet outer.tail {} ys) := by
  induction s with
  | nil =>
    intro b₀ outer stack e i ys hb hl he
    have hstack : stack = [] := Option.some.inj hl.nested
    have hlen := hl.braces
    rw [hstack] at hlen
    obtain rfl : b₀ = [] := List.length_eq_zero_iff.1 hlen.symm
    rw [List.nil_append, quiet_closing he, hb, List.nil_append]
    exact ⟨fun hq => ⟨.nil, hq⟩, fun hq => hq.2⟩
  | opening ht _ ih =>
    intro b₀ outer stack e i ys hb hl he
    rw [List.cons_append, quiet_opening ht, quiet_opening ht]
    exact ih (by rw [hb, List.cons_append]) (hl.opening ht _) he
  | stray ht _ _ =>
    intro b₀ outer stack e i ys hb hl he
    obtain ⟨a, b', stack', rfl, -⟩ := hl.closing ht
    cases hb
  | outermost ht _ ih =>
    intro b₀ outer stack e i ys hb hl he
    obtain ⟨a, b', stack', rfl, hl'⟩ := hl.closing ht
    rw [List.cons_append] at hb
    rw [List.cons_append, quiet_closing ht, quiet_closing ht]
    exact ih (List.cons.inj hb).2 hl' he
  | inner ht _ ih =>
    intro b₀ outer stack e i ys hb hl he
    obtain ⟨a, b', stack', rfl, hl'⟩ := hl.closing ht
    rw [List.cons_append] at hb
    rw [List.cons_append, quiet_closing ht, quiet_closing ht]
    exact ih (List.cons.inj hb).2 hl' he
  | semicolon ht _ ih =>
    intro b₀ outer stack e i ys hb hl he
    rw [List.cons_append, quiet_semicolon ht, quiet_semicolon ht]
    exact ih hb (hl.semicolon ht) he
  | @advance b h p xs h' xs' ds ha _ ih =>
    intro b₀ outer stack e i ys hb hl he
    obtain ⟨stack', hl'⟩ := hl.advance ha
    have hstop : e.stops = true := stops_of_mark he (by simp)
    have hbehind : Behind b xs [] ((e, i) :: ys) := by
      refine ⟨⟨by simp [markOf?], by simp [he]⟩, by simp [he], .inl ⟨rfl, word?_of_stops hstop⟩,
        .inr ⟨(e, i), ys, rfl, hstop, .inr ⟨rfl, he⟩⟩⟩
    obtain ⟨ha', -⟩ := ha.behind (List.append_nil xs).symm (List.append_nil xs').symm hbehind
      (.of_openAfter hl.nested)
    rw [quiet_advance ha', quiet_advance ha]
    exact ih hb hl' he
  | found hf _ _ =>
    intro b₀ outer stack e i ys hb hl he
    obtain ⟨r', hf'⟩ := localDeclaration?_append ((e, i) :: ys) hf
    constructor
    · intro hq
      exact absurd hq (not_quiet_found hf')
    · intro hq
      exact absurd hq.1 (not_quiet_found hf)

/-! ## What stands before the keyword -/

/-- Modifiers and annotations. -/
inductive Modifiers : List Placed → Prop
  | nil : Modifiers []
  | word {t i w ms} : t.word? = some w → Modifiers ms → Modifiers ((t, i) :: ms)
  | markup {t i args ms} : t.mark? = some '@' →
      (∀ rest, markOf? rest ≠ some '.' → markOf? rest ≠ some '(' →
        annotationRest? (args ++ rest) = some rest) →
      Modifiers ms → Modifiers ((t, i) :: args ++ ms)

theorem Advance.onlyModifiers {b h xs h' ys} (ha : Advance b h xs h' ys)
    (ho : h'.onlyModifiers = true) : h.onlyModifiers = true := by
  cases ha with
  | markup => exact ho
  | loneAt => cases ho
  | mark => cases ho
  | word =>
    have ho' : (h.onlyModifiers && _) = true := ho
    rw [Bool.and_eq_true] at ho'
    exact ho'.1
  | literal => cases ho

theorem Passes.onlyModifiers {b h xs h' ys} (hp : Passes b h xs h' ys)
    (ho : h'.onlyModifiers = true) : h.onlyModifiers = true := by
  induction hp with
  | refl => exact ho
  | step ha _ ih => exact ha.onlyModifiers (ih ho)

theorem Passes.modifiers {b h xs h' ys} (hp : Passes b h xs h' ys)
    (ho : h'.onlyModifiers = true) : ∀ {held}, xs = held ++ ys → Modifiers held := by
  induction hp with
  | refl =>
    intro held hx
    obtain rfl : held = [] := by simpa using hx
    exact .nil
  | @step h xs h₁ xs₁ h' ys ha hrest ih =>
    intro held hx
    have ho₁ := hrest.onlyModifiers ho
    obtain ⟨held₁, hz⟩ := hrest.split
    have ih := ih ho hz
    cases ha with
    | @markup t i rest _ ht hr =>
      obtain ⟨args, rfl, hargs⟩ := annotationRest?_eq_some hr
      have hsplit : held ++ ys = ((t, i) :: args ++ held₁) ++ ys := by
        rw [← hx, hz, List.append_assoc]
        rfl
      obtain rfl := List.append_cancel_right hsplit
      exact .markup ht (fun rest h1 h2 => hargs rest (.inr ⟨h1, h2⟩)) ih
    | loneAt => cases ho₁
    | mark => cases ho₁
    | @word t i _ w hw _ =>
      rw [hz, ← List.cons_append] at hx
      obtain rfl := List.append_cancel_right hx
      exact .word hw ih
    | literal => cases ho₁

theorem Modifiers.head_ne {ms ys : List Placed} (hm : Modifiers ms) {c : Char}
    (hc : c ≠ '@') (hy : markOf? ys ≠ some c) : markOf? (ms ++ ys) ≠ some c := by
  cases hm with
  | nil => exact hy
  | word hw _ => simp [mark?_eq_none_of_word hw]
  | markup ht _ _ => simpa [ht] using hc.symm

theorem Modifiers.open_behind {ms ys : List Placed} (hm : Modifiers ms)
    (h1 : markOf? ys ≠ some '.') (h2 : markOf? ys ≠ some '(')
    {stack : List Char} (ho : openAfter stack ((ms ++ ys).map Prod.fst) = some []) :
    openAfter stack (ys.map Prod.fst) = some [] := by
  induction hm with
  | nil => exact ho
  | word hw _ ih =>
    rw [List.cons_append, List.map_cons, openAfter_none (mark?_eq_none_of_word hw)] at ho
    exact ih ho
  | @markup t i args ms ht hargs hms ih =>
    have hat : bracket stack '@' = some stack := rfl
    rw [List.cons_append, List.cons_append, List.map_cons, openAfter_mark ht, hat,
      Option.bind_some, List.append_assoc] at ho
    have hr := hargs (ms ++ ys) (hms.head_ne (by decide) h1) (hms.head_ne (by decide) h2)
    exact ih (annotationRest?_openAfter hr ho)

/-- Outside of code modifiers are read behind any header. -/
theorem Modifiers.passes {b : List Brace} (hb : inCode b = false) {ms ys : List Placed}
    (hm : Modifiers ms) (h1 : markOf? ys ≠ some '.')
    (h2 : markOf? ys ≠ some '(') : ∀ {h : Header}, h.last ≠ some '.' →
      ∃ h', Passes b h (ms ++ ys) h' ys ∧ h'.last ≠ some '.' := by
  induction hm with
  | nil =>
    intro h hh
    exact ⟨h, .refl, hh⟩
  | @word t i w ms hw _ ih =>
    intro h hh
    obtain ⟨h', hp, hl⟩ := ih (h := h.addWord i w (wordOf? (ms ++ ys)).isSome) (by
      show (none : Option Char) ≠ _
      simp)
    exact ⟨h', .step (.word hw (localDeclaration?_of_not_inCode hb)) hp, hl⟩
  | @markup t i args ms ht hargs hms ih =>
    intro h hh
    obtain ⟨h', hp, hl⟩ := ih (h := h.addMarkup i) (by
      show (none : Option Char) ≠ _
      simp)
    have hr := hargs (ms ++ ys) (hms.head_ne (by decide) h1) (hms.head_ne (by decide) h2)
    refine ⟨h', .step ?_ hp, hl⟩
    rw [List.cons_append, List.cons_append, List.append_assoc]
    exact .markup ht hr

/-! ## Declarations -/

/-- A declaration: modifiers, its keyword, its name with what follows up to the body, the body. -/
inductive Declares : List Placed → Prop
  | intro {pre kw i kind mid o j inner e k} : Modifiers pre →
      kw.word?.bind LocalKind.ofKeyword? = some kind →
      (wordOf? mid).isSome = true → Unbroken mid → o.mark? = some '{' → e.mark? = some '}' →
      closing? '{' '}' 0 ((o, j) :: (inner ++ [(e, k)])) = some (k + 1, []) →
      Declares (pre ++ (kw, i) :: (mid ++ (o, j) :: (inner ++ [(e, k)])))

theorem Declares.head_ne {block ys : List Placed} (hd : Declares block) {c : Char}
    (hc : c ≠ '@') : markOf? (block ++ ys) ≠ some c := by
  cases hd with
  | intro hpre hkind =>
    obtain ⟨w, hw, -⟩ := Option.bind_eq_some_iff.1 hkind
    rw [List.append_assoc]
    apply hpre.head_ne hc
    rw [List.cons_append, markOf?_cons, mark?_eq_none_of_word hw]
    simp

theorem declaresType_keyword {w : List Char} {kind : LocalKind}
    (hk : LocalKind.ofKeyword? w = some kind) {h : Header} (hl : h.last ≠ some '.') (i : Nat) :
    (h.addWord i w true).declaresType = true := by
  have hw : w = "enum".toList ∨ w = "interface".toList ∨ w = "record".toList := by
    unfold LocalKind.ofKeyword? at hk
    split at hk
    · exact .inl ‹_›
    · split at hk
      · exact .inr (.inl ‹_›)
      · split at hk
        · exact .inr (.inr ‹_›)
        · cases hk
  have hlast : decide (h.last ≠ some '.') = true := decide_eq_true hl
  unfold Header.addWord
  simp only [hlast]
  rcases hw with rfl | rfl | rfl <;> simp

theorem Advance.declaresType {b h xs h' ys} (ha : Advance b h xs h' ys)
    (hd : h.declaresType = true) : h'.declaresType = true := by
  cases ha with
  | markup => exact hd
  | loneAt => exact hd
  | mark => exact hd
  | word =>
    show (h.declaresType || _) = true
    rw [hd, Bool.true_or]
  | literal => exact hd

/-- Outside of code tokens without a brace or a semicolon are read to their end. -/
theorem Scan.passes {b h p xs ds} (s : Scan b h p xs ds) (hb : inCode b = false) :
    Unbroken xs → h.declaresType = true → ∃ h', Passes b h xs h' [] ∧ h'.declaresType = true := by
  have hbroken : ∀ {t : Token} {i c rest}, t.mark? = some c → c = ';' ∨ c = '{' ∨ c = '}' →
      ¬ Unbroken ((t, i) :: rest) := by
    intro t i c rest ht hc hu
    have hs := hu (t, i) List.mem_cons_self
    rw [stops_of_mark ht hc] at hs
    cases hs
  induction s with
  | nil =>
    intro _ hd
    exact ⟨_, .refl, hd⟩
  | opening ht => exact fun hu => absurd hu (hbroken ht (by simp))
  | stray ht => exact fun hu => absurd hu (hbroken ht (by simp))
  | outermost ht => exact fun hu => absurd hu (hbroken ht (by simp))
  | inner ht => exact fun hu => absurd hu (hbroken ht (by simp))
  | semicolon ht => exact fun hu => absurd hu (hbroken ht (by simp))
  | advance ha _ ih =>
    intro hu hd
    obtain ⟨t, i, mid, rfl, -⟩ := ha.split
    obtain ⟨h', hp, hd'⟩ := ih hb (fun q hq => hu q (List.mem_append_right _ hq))
      (ha.declaresType hd)
    exact ⟨h', .step ha hp, hd'⟩
  | found hf =>
    rw [localDeclaration?_of_not_inCode hb] at hf
    cases hf

/-- The parts of a nested declaration are nested. -/
theorem nested_body {mid inner : List Placed} {o e : Token} {j k : Nat}
    (ho : o.mark? = some '{')
    (hclose : closing? '{' '}' 0 ((o, j) :: (inner ++ [(e, k)])) = some (k + 1, []))
    (hn : Nested ((mid ++ (o, j) :: (inner ++ [(e, k)])).map Prod.fst)) :
    Nested (mid.map Prod.fst) ∧ Nested (inner.map Prod.fst) := by
  rw [Nested, List.map_append, openAfter_append, List.map_cons] at hn
  obtain ⟨stack, hmid, hn⟩ := Option.bind_eq_some_iff.1 hn
  obtain ⟨body, u, j', rest, hsplit, hc, hbody, hrest⟩ :=
    closing?_of_nested (i := j) pair_braces ho hn
  rw [hclose] at hc
  cases hc
  obtain rfl : stack = [] := Option.some.inj hrest
  obtain rfl : inner = body := (List.append_inj' hsplit rfl).1
  exact ⟨hmid, hbody⟩

/-- Scanned as a member, a nested declaration is as quiet as its body. -/
theorem Declares.quiet_iff {block : List Placed} (hd : Declares block)
    (hn : Nested (block.map Prod.fst)) : ∃ inner, ∀ {h : Header} (ys : List Placed),
      h.last ≠ some '.' → (Quiet [.typeBody] h (block ++ ys) ↔
        Quiet [.typeBody, .typeBody] {} inner ∧ Quiet [.typeBody] {} ys) := by
  cases hd with
  | @intro pre kw i kind mid o j inner e k hpre hkind hname hmid ho he hclose =>
    obtain ⟨w, hw, hk⟩ := Option.bind_eq_some_iff.1 hkind
    have hmark : ∀ (rest : List Placed) (c : Char), markOf? ((kw, i) :: rest) ≠ some c := by
      intro rest c
      simp [mark?_eq_none_of_word hw]
    -- the name and the body are nested, as the modifiers are
    have hn' := hpre.open_behind (hmark _ _) (hmark _ _) hn
    rw [List.map_cons, openAfter_none (mark?_eq_none_of_word hw)] at hn'
    obtain ⟨hnmid, hninner⟩ := nested_body ho hclose hn'
    refine ⟨inner, fun {h} ys hh => ?_⟩
    have hlist : pre ++ (kw, i) :: (mid ++ (o, j) :: (inner ++ [(e, k)])) ++ ys =
        pre ++ (kw, i) :: (mid ++ (o, j) :: (inner ++ (e, k) :: ys)) := by
      simp
    have hout : inCode [.typeBody] = false := rfl
    obtain ⟨h₁, hp₁, hl₁⟩ := hpre.passes hout
      (hmark (mid ++ (o, j) :: (inner ++ (e, k) :: ys)) '.') (hmark _ '(') hh
    have hnext : (wordOf? (mid ++ (o, j) :: (inner ++ (e, k) :: ys))).isSome = true := by
      cases mid with
      | nil => cases hname
      | cons p mid => exact hname
    have hadv : Advance [.typeBody] h₁
        ((kw, i) :: (mid ++ (o, j) :: (inner ++ (e, k) :: ys))) (h₁.addWord i w true)
        (mid ++ (o, j) :: (inner ++ (e, k) :: ys)) := by
      rw [← hnext]
      exact .word hw (localDeclaration?_of_not_inCode hout)
    obtain ⟨h₂, hp₂, hd₂⟩ := (scan_destinations [.typeBody] (h₁.addWord i w true) [] mid).passes
      hout hmid (declaresType_keyword hk hl₁ i)
    have hbehind : Behind [.typeBody] mid [] ((o, j) :: (inner ++ (e, k) :: ys)) :=
      ⟨⟨by simp [markOf?], by simp [ho]⟩, by simp [ho],
        .inl ⟨rfl, word?_of_stops (stops_of_mark ho (by simp))⟩, .inl hout⟩
    have hp₃ := hp₂.behind (List.append_nil mid).symm hbehind (.of_openAfter hnmid)
    have hopens : h₂.opens = .typeBody := by
      unfold Header.opens
      rw [hd₂, Bool.true_or]
      rfl
    have hlevel : Level [] [] inner := ⟨hninner, rfl⟩
    rw [hlist, hp₁.quiet_iff, quiet_advance hadv, hp₃.quiet_iff, quiet_opening ho, hopens]
    exact (scan_destinations [.typeBody, .typeBody] {} [] inner).quiet_append rfl hlevel he

/-- **Whether a member is quiet depends on the member alone.** -/
theorem Declares.quiet_append {block : List Placed} (hd : Declares block)
    (hn : Nested (block.map Prod.fst)) {h : Header} (hh : h.last ≠ some '.') {c : Token} {i : Nat}
    (hc : c.mark? = some '}') (ys : List Placed) : Quiet [.typeBody] h (block ++ ys) ↔
      Quiet [.typeBody] {} (block ++ [(c, i)]) ∧ Quiet [.typeBody] {} ys := by
  obtain ⟨inner, hq⟩ := hd.quiet_iff hn
  have hlast : Quiet [.typeBody] {} [(c, i)] := .closing hc .nil
  rw [hq ys hh, hq [(c, i)] (by simp)]
  exact ⟨fun h => ⟨⟨h.1, hlast⟩, h.2⟩, fun h => ⟨h.1.1, h.2⟩⟩

/-! ## Placeholders -/

/-- The tokens of a placeholder, as the scanner reads them. -/
def placedPlaceholder (n : Nat) : List Placed := (placeholderTokens n).map (·, 0)

theorem quiet_placeholder (n : Nat) (a : Brace) (ys : List Placed) :
    Quiet [a] {} (placedPlaceholder n ++ ys) ↔ Quiet [a] {} ys := by
  have hout : inCode [a] = false := rfl
  obtain ⟨cs, hcs⟩ : ∃ cs, (placeholderStem ++ Nat.repr n ++ "__").toList = '_' :: cs := by
    rw [String.toList_append, String.toList_append]
    exact ⟨_, rfl⟩
  unfold placedPlaceholder placeholderTokens
  rw [hcs]
  simp only [List.map_cons, List.map_nil, List.cons_append, List.nil_append]
  rw [quiet_advance (.word rfl (localDeclaration?_of_not_inCode hout)),
    quiet_advance (.word rfl (localDeclaration?_of_not_inCode hout)),
    quiet_advance (.mark rfl rfl (by decide)), quiet_advance (.mark rfl rfl (by decide)),
    quiet_opening rfl, quiet_closing rfl]
  exact Iff.rfl

end MinimumRelease.Recovery
