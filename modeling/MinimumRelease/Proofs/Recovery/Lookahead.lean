import MinimumRelease.Proofs.Recovery.Lexeme

/-! # What the scanner looks ahead to

From an annotation or from the keyword of a declaration the scanner looks
ahead, and goes on behind what it found there. Each lemma here says which
tokens were passed over, and that nothing behind them had a part in it: with
other tokens behind, the same is found. -/

namespace MinimumRelease.Recovery

open Token

@[simp] theorem markOf?_cons (t : Token) (i : Nat) (ts : List Placed) :
    markOf? ((t, i) :: ts) = t.mark? := rfl

@[simp] theorem wordOf?_cons (t : Token) (i : Nat) (ts : List Placed) :
    wordOf? ((t, i) :: ts) = t.word? := rfl

theorem exists_cons_of_markOf? {ts : List Placed} {c : Char} (h : markOf? ts = some c) :
    ∃ t i rest, ts = (t, i) :: rest ∧ t.mark? = some c := by
  cases ts with
  | nil => cases h
  | cons p rest => exact ⟨p.1, p.2, rest, rfl, h⟩

theorem closing?_eq_some {o c : Char} {d i : Nat} {ts rest : List Placed}
    (h : closing? o c d ts = some (i, rest)) :
    ∃ mid t j, ts = mid ++ (t, j) :: rest ∧ t.mark? = some c ∧ i = j + 1 ∧
      ∀ rest', closing? o c d (mid ++ (t, j) :: rest') = some (i, rest') := by
  fun_induction closing? o c d ts with
  | case1 => simp at h
  | case2 d t j ts ho ih =>
    obtain ⟨mid, u, k, rfl, hu, hi, hrest⟩ := ih h
    exact ⟨(t, j) :: mid, u, k, rfl, hu, hi, fun rest' => by
      rw [List.cons_append, closing?, if_pos ho, hrest]⟩
  | case3 d t j ts ho hc hd =>
    simp only [Option.some.injEq, Prod.mk.injEq] at h
    obtain ⟨rfl, rfl⟩ := h
    exact ⟨[], t, j, rfl, hc, rfl, fun rest' => by
      rw [List.nil_append, closing?, if_neg ho, if_pos hc, if_pos hd]⟩
  | case4 d t j ts ho hc hd ih =>
    obtain ⟨mid, u, k, rfl, hu, hi, hrest⟩ := ih h
    exact ⟨(t, j) :: mid, u, k, rfl, hu, hi, fun rest' => by
      rw [List.cons_append, closing?, if_neg ho, if_pos hc, if_neg hd, hrest]⟩
  | case5 d t j ts ho hc ih =>
    obtain ⟨mid, u, k, rfl, hu, hi, hrest⟩ := ih h
    exact ⟨(t, j) :: mid, u, k, rfl, hu, hi, fun rest' => by
      rw [List.cons_append, closing?, if_neg ho, if_neg hc, hrest]⟩

/-- No brace and no semicolon is among the tokens. -/
def Unbroken (ts : List Placed) : Prop := ∀ p ∈ ts, p.1.stops = false

theorem body?_eq_some_iff {ts rest : List Placed} :
    body? ts = some rest ↔ markOf? rest = some '{' ∧ ∃ mid, Unbroken mid ∧ ts = mid ++ rest := by
  fun_induction body? ts with
  | case1 =>
    simp only [reduceCtorEq, List.nil_eq, List.append_eq_nil_iff, false_iff]
    rintro ⟨hm, mid, -, -, rfl⟩
    cases hm
  | case2 t i ts ht =>
    constructor
    · intro h
      cases h
      exact ⟨ht, [], by simp [Unbroken], rfl⟩
    · rintro ⟨hm, mid, hmid, he⟩
      cases mid with
      | nil => rw [he, List.nil_append]
      | cons p mid =>
        have := hmid p (by simp)
        cases he
        simp [ht, Token.stops] at this
  | case3 t i ts ht hs =>
    simp only [reduceCtorEq, false_iff]
    rintro ⟨hm, mid, hmid, he⟩
    cases mid with
    | nil =>
      rw [List.nil_append] at he
      rw [← he, markOf?_cons] at hm
      exact ht hm
    | cons p mid =>
      have := hmid p (by simp)
      cases he
      simp only [Bool.or_eq_true, decide_eq_true_eq] at hs
      rcases hs with hs | hs <;> simp [hs, Token.stops] at this
  | case4 t i ts ht hs ih =>
    rw [ih]
    constructor
    · rintro ⟨hm, mid, hmid, rfl⟩
      refine ⟨hm, (t, i) :: mid, ?_, rfl⟩
      rw [Unbroken, List.forall_mem_cons]
      refine ⟨?_, hmid⟩
      simpa [Token.stops, ht] using hs
    · rintro ⟨hm, mid, hmid, he⟩
      cases mid with
      | nil =>
        rw [List.nil_append] at he
        rw [← he, markOf?_cons] at hm
        exact absurd hm ht
      | cons p mid =>
        cases he
        exact ⟨hm, mid, fun q hq => hmid q (by simp [hq]), rfl⟩

theorem qualifiedRest?_of_ne {ts : List Placed} (h : markOf? ts ≠ some '.') :
    qualifiedRest? ts = some ts := by
  cases ts with
  | nil => rfl
  | cons p ts =>
    obtain ⟨t, i⟩ := p
    unfold qualifiedRest?
    rw [if_neg (by simpa using h)]

/-- `.Name` any number of times: only a further dot could have been passed over too. -/
theorem qualifiedRest?_eq_some {ts rest : List Placed} (h : qualifiedRest? ts = some rest) :
    markOf? rest ≠ some '.' ∧ ∃ mid, ts = mid ++ rest ∧
      ∀ rest', markOf? rest' ≠ some '.' → qualifiedRest? (mid ++ rest') = some rest' := by
  fun_induction qualifiedRest? ts with
  | case1 =>
    cases h
    exact ⟨by simp [markOf?], [], rfl, fun rest' hr => qualifiedRest?_of_ne hr⟩
  | case2 => simp at h
  | case3 t i ht w k ts hw ih =>
    obtain ⟨hr, mid, rfl, hmid⟩ := ih h
    refine ⟨hr, (t, i) :: (w, k) :: mid, rfl, fun rest' hr' => ?_⟩
    rw [List.cons_append, List.cons_append, qualifiedRest?, if_pos ht]
    simp only [hw, if_true]
    exact hmid rest' hr'
  | case4 => simp at h
  | case5 t i ts ht =>
    cases h
    exact ⟨ht, [], rfl, fun rest' hr => qualifiedRest?_of_ne hr⟩

theorem annotationRest?_cons {t : Token} {i : Nat} {word : List Char} (ts : List Placed)
    (hw : t.word? = some word) (hi : word ≠ "interface".toList) :
    annotationRest? ((t, i) :: ts) = (qualifiedRest? ts).bind fun rest =>
      if markOf? rest = some '(' then (closing? '(' ')' 0 rest).map (·.2) else some rest := by
  rw [annotationRest?, hw]
  simp only [if_neg hi]
  cases qualifiedRest? ts <;> rfl

/-- An annotation: only a further dot or a parenthesis could have been passed over too. -/
theorem annotationRest?_eq_some {ts rest : List Placed} (h : annotationRest? ts = some rest) :
    ∃ mid, ts = mid ++ rest ∧ ∀ rest',
      (markOf? rest' = markOf? rest ∨ markOf? rest' ≠ some '.' ∧ markOf? rest' ≠ some '(') →
        annotationRest? (mid ++ rest') = some rest' := by
  unfold annotationRest? at h
  split at h
  · cases h
  · next t i ts =>
    split at h
    · cases h
    · next word hw =>
      split at h
      · cases h
      · next hi =>
        split at h
        · cases h
        · next r hq =>
          obtain ⟨hdot, mid, rfl, hmid⟩ := qualifiedRest?_eq_some hq
          split at h
          · next hp =>
            obtain ⟨⟨k, q⟩, hc, rfl⟩ := Option.map_eq_some_iff.1 h
            obtain ⟨args, u, j, rfl, hu, rfl, hargs⟩ := closing?_eq_some hc
            -- the parenthesis that opens the arguments is one of the tokens passed over
            have hopen : ∀ rest', markOf? (args ++ (u, j) :: rest') = some '(' := by
              intro rest'
              cases args with
              | nil => rw [List.nil_append, markOf?_cons, hu] at hp; cases hp
              | cons p args => exact hp
            refine ⟨(t, i) :: mid ++ (args ++ [(u, j)]), by simp, fun rest' _ => ?_⟩
            rw [List.append_assoc, List.append_assoc, List.cons_append, List.singleton_append,
              annotationRest?_cons _ hw hi, hmid _ (by simp [hopen]), Option.bind_some,
              if_pos (hopen rest'), hargs]
            rfl
          · next hp =>
            cases h
            refine ⟨(t, i) :: mid, rfl, fun rest' hr => ?_⟩
            have hr' : markOf? rest' ≠ some '.' ∧ markOf? rest' ≠ some '(' := by
              rcases hr with hr | hr
              · exact hr ▸ ⟨hdot, hp⟩
              · exact hr
            rw [List.cons_append, annotationRest?_cons _ hw hi, hmid _ hr'.1, Option.bind_some,
              if_neg hr'.2]

theorem fits_congr {kind : LocalKind} {ts ts' : List Placed} (hm : markOf? ts = markOf? ts')
    (hw : wordOf? ts = wordOf? ts') : kind.fits ts = kind.fits ts' := by
  cases kind <;> simp only [LocalKind.fits, hm, hw]

theorem recognise?_cons (kind : LocalKind) {w : Token} {i : Nat} {name : List Char}
    (ts : List Placed) (hw : w.word? = some name) :
    recognise? kind ((w, i) :: ts) = if kind.fits ts then
      ((body? ts).bind (closing? '{' '}' 0)).map fun r => ⟨name, r.1, r.2⟩ else none := by
  rw [recognise?, wordOf?_cons, hw]
  simp only [List.tail_cons]
  cases (body? ts).bind (closing? '{' '}' 0) <;> rfl

/-- A declaration: its name, what stands before its body, and the body with its braces. -/
theorem recognise?_eq_some {kind : LocalKind} {ts : List Placed} {r : Recognised}
    (h : recognise? kind ts = some r) :
    ∃ w i mid b j inner e k, ts = (w, i) :: mid ++ (b, j) :: inner ++ (e, k) :: r.rest ∧
      w.word? = some r.name ∧ Unbroken mid ∧ b.mark? = some '{' ∧ e.mark? = some '}' ∧
      r.stop = k + 1 ∧ (∀ rest', recognise? kind
        ((w, i) :: mid ++ (b, j) :: inner ++ (e, k) :: rest') = some ⟨r.name, r.stop, rest'⟩) ∧
      ∀ rest', closing? '{' '}' 0 ((b, j) :: inner ++ (e, k) :: rest') = some (k + 1, rest') := by
  match ts, h with
  | (w, i) :: ts, h =>
    cases hw : w.word? with
    | none => simp [recognise?, hw] at h
    | some name =>
      rw [recognise?_cons kind ts hw] at h
      split at h
      · next hfit =>
        obtain ⟨⟨stop, rest⟩, hb, rfl⟩ := Option.map_eq_some_iff.1 h
        obtain ⟨body, hbody, hclose⟩ := Option.bind_eq_some_iff.1 hb
        obtain ⟨hopen, mid, hmid, rfl⟩ := body?_eq_some_iff.1 hbody
        obtain ⟨open?, e, k, rfl, he, rfl, hrest⟩ := closing?_eq_some hclose
        -- the opening brace is not the closing one
        cases open? with
        | nil => rw [List.nil_append, markOf?_cons, he] at hopen; cases hopen
        | cons p inner =>
          obtain ⟨b, j⟩ := p
          refine ⟨w, i, mid, b, j, inner, e, k, by simp, hw, hmid, hopen, he, rfl, ?_, hrest⟩
          intro rest'
          have hfit' : kind.fits (mid ++ (b, j) :: inner ++ (e, k) :: rest') = true := by
            rw [← hfit]
            cases mid <;> exact fits_congr rfl rfl
          have hbody' : body? (mid ++ (b, j) :: inner ++ (e, k) :: rest') =
              some ((b, j) :: inner ++ (e, k) :: rest') :=
            body?_eq_some_iff.2 ⟨hopen, mid, hmid, by simp⟩
          rw [List.cons_append, List.cons_append, recognise?_cons kind _ hw, if_pos hfit', hbody',
            Option.bind_some, hrest]
          rfl
      · cases h

theorem localDeclaration?_eq_some {braces : List Brace} {header : Header} {t : Token}
    {ts : List Placed} {kind : LocalKind} {r : Recognised}
    (h : localDeclaration? braces header t ts = some (kind, r)) :
    inCode braces = true ∧ header.onlyModifiers = true ∧
      t.word?.bind LocalKind.ofKeyword? = some kind ∧ recognise? kind ts = some r := by
  unfold localDeclaration? at h
  split at h
  · next hc =>
    rw [Bool.and_eq_true] at hc
    cases hk : t.word?.bind LocalKind.ofKeyword? with
    | none => simp [hk] at h
    | some kind' =>
      simp only [hk] at h
      obtain ⟨r', hr, he⟩ := Option.map_eq_some_iff.1 h
      cases he
      exact ⟨hc.1, hc.2, rfl, hr⟩
  · cases h

end MinimumRelease.Recovery
