import MinimumRelease.Proofs.Recovery.InBounds
import MinimumRelease.Proofs.Recovery.TokenEnds
import MinimumRelease.Proofs.Recovery.Woven

/-! # Where relocation cuts

Relocation cuts a text before and behind each declaration that moves, and before
each brace that something moves to. No such cut goes through a placeholder
member: a declaration begins with an annotation, a modifier or its keyword and
ends with a brace, and a brace that something moves to does not stand right
behind an opening one. The scanner keeps the facts behind this up from token to
token (`Watched`). -/

namespace MinimumRelease.Recovery

open Token

/-! ## What the scanner knows -/

/-- The token can begin a declaration. -/
def Token.heads (t : Token) : Bool :=
  t.mark? = some '@' ||
    t.word?.any fun w => localModifiers.contains w || (LocalKind.ofKeyword? w).isSome

theorem qualifiedRest?_last {ts rest : List Placed} (h : qualifiedRest? ts = some rest) :
    ts = rest ∨ ∃ mid q, ts = mid ++ q :: rest ∧ q.1.mark? = none := by
  fun_induction qualifiedRest? ts with
  | case1 =>
    cases h
    exact .inl rfl
  | case2 => cases h
  | case3 t i ht w k ts hw ih =>
    obtain ⟨word, hword⟩ := Option.isSome_iff_exists.1 hw
    rcases ih h with rfl | ⟨mid, q, rfl, hq⟩
    · exact .inr ⟨[(t, i)], (w, k), rfl, mark?_eq_none_of_word hword⟩
    · exact .inr ⟨(t, i) :: (w, k) :: mid, q, rfl, hq⟩
  | case4 => cases h
  | case5 =>
    cases h
    exact .inl rfl

/-- An annotation ends with a name or with a parenthesis. -/
theorem annotationRest?_last {ts rest : List Placed} (h : annotationRest? ts = some rest) :
    ∃ mid q, ts = mid ++ q :: rest ∧ q.1.mark? ≠ some '{' := by
  unfold annotationRest? at h
  split at h
  · cases h
  · next t i ts =>
    split at h
    · cases h
    · next word hw =>
      split at h
      · cases h
      · split at h
        · cases h
        · next r hq =>
          have hname : ∃ mid q, (t, i) :: ts = mid ++ q :: r ∧ q.1.mark? = none := by
            rcases qualifiedRest?_last hq with rfl | ⟨mid, q, rfl, hnone⟩
            · exact ⟨[], (t, i), rfl, mark?_eq_none_of_word hw⟩
            · exact ⟨(t, i) :: mid, q, rfl, hnone⟩
          obtain ⟨mid, q, hsplit, hmark⟩ := hname
          split at h
          · obtain ⟨⟨k, behind⟩, hc, rfl⟩ := Option.map_eq_some_iff.1 h
            obtain ⟨args, u, j, rfl, hu, -⟩ := closing?_eq_some hc
            refine ⟨mid ++ q :: args, (u, j), by simp [hsplit], ?_⟩
            rw [hu]
            decide
          · cases h
            refine ⟨mid, q, hsplit, ?_⟩
            rw [hmark]
            decide

theorem Advance.last {b h xs h' ys} (ha : Advance b h xs h' ys) :
    ∃ mid q, xs = mid ++ q :: ys ∧ q.1.mark? ≠ some '{' := by
  cases ha with
  | @markup t i rest _ ht hr =>
    obtain ⟨mid, q, rfl, hq⟩ := annotationRest?_last hr
    exact ⟨(t, i) :: mid, q, rfl, hq⟩
  | @loneAt t i _ ht => exact ⟨[], (t, i), rfl, by simp [ht]⟩
  | @mark t i rest c ht hs =>
    refine ⟨[], (t, i), rfl, ?_⟩
    intro hopen
    rw [stops_of_mark hopen (by simp)] at hs
    cases hs
  | @word t i _ w hw => exact ⟨[], (t, i), rfl, by simp [mark?_eq_none_of_word hw]⟩
  | @literal t i _ hm => exact ⟨[], (t, i), rfl, by simp [hm]⟩

/-- Reading on keeps the first token of a header of modifiers. -/
theorem Advance.first {b h xs h' ys} (ha : Advance b h xs h' ys) (ho : h'.onlyModifiers = true) :
    h.onlyModifiers = true ∧ (h'.first = h.first ∨
      ∃ t i rest, xs = (t, i) :: rest ∧ h'.first = some i ∧ t.heads = true) := by
  refine ⟨ha.onlyModifiers ho, ?_⟩
  cases hfirst : h.first with
  | some j =>
    obtain ⟨t, i, mid, -, hf⟩ := ha.split
    rw [hfirst] at hf
    exact .inl hf
  | none =>
    refine .inr ?_
    cases ha with
    | @markup t i rest _ ht _ =>
      refine ⟨t, i, rest, rfl, ?_, by simp [Token.heads, ht]⟩
      show some (h.first.getD i) = _
      rw [hfirst]
      rfl
    | loneAt => cases ho
    | mark => cases ho
    | @word t i _ w hw _ =>
      have hmod : (h.onlyModifiers && localModifiers.contains w) = true := ho
      rw [Bool.and_eq_true] at hmod
      have hheads : t.heads = true := by
        rw [Token.heads, hw, Option.any_some, hmod.2, Bool.true_or, Bool.or_true]
      refine ⟨t, i, ys, rfl, ?_, hheads⟩
      show some (h.first.getD i) = _
      rw [hfirst]
      rfl
    | literal => cases ho

/-- A token that can begin a declaration stands at position `i`. -/
def HeadsAt (ts : List Token) (i : Nat) : Prop := ∃ t, ts[i]? = some t ∧ t.heads = true

/-- What the scanner knows when it has `rest` before it. -/
structure Watched (ts : List Token) (b : List Brace) (h : Header) (p : List Move)
    (rest : List Placed) : Prop where
  /-- If an opening brace was read last, then nothing is pending outside of it. -/
  read : ∃ done, codeTokens ts = done ++ rest ∧
    ∀ q, done.getLast? = some q → q.1.mark? = some '{' → b.length ≤ 1 → p = []
  outside : b = [] → p = []
  first : h.onlyModifiers = true → ∀ i, h.first = some i → HeadsAt ts i
  pending : ∀ m ∈ p, HeadsAt ts m.start

namespace Watched

variable {ts : List Token} {b : List Brace} {h h' : Header} {p : List Move} {q : Placed}
  {rest : List Placed}

/-- Behind the tokens of `mid` and `q`, which is no opening brace. -/
theorem pass (mid : List Placed) (k : Watched ts b h p (mid ++ q :: rest))
    (hq : q.1.mark? ≠ some '{') {b' : List Brace} {p' : List Move} (hout : b' = [] → p' = [])
    (hfirst : h'.onlyModifiers = true → ∀ i, h'.first = some i → HeadsAt ts i)
    (hp : ∀ m ∈ p', HeadsAt ts m.start) : Watched ts b' h' p' rest := by
  obtain ⟨done, hread, -⟩ := k.read
  refine ⟨⟨done ++ mid ++ [q], by simp [hread], ?_⟩, hout, hfirst, hp⟩
  intro x hx hopen
  rw [List.getLast?_append, List.getLast?_singleton, Option.some_or] at hx
  rw [← Option.some.inj hx] at hopen
  exact absurd hopen hq

theorem get {t : Token} {i : Nat} (k : Watched ts b h p ((t, i) :: rest)) : ts[i]? = some t := by
  obtain ⟨done, hread, -⟩ := k.read
  exact (get_of_codeTokens hread).1

theorem opening {t : Token} {i : Nat} (k : Watched ts b h p ((t, i) :: rest)) (a : Brace) :
    Watched ts (a :: b) {} p rest := by
  obtain ⟨done, hread, -⟩ := k.read
  refine ⟨⟨done ++ [(t, i)], by simp [hread], ?_⟩, by simp, by simp, k.pending⟩
  intro x _ _ hlen
  exact k.outside (List.length_eq_zero_iff.1 (Nat.le_zero.1 (Nat.le_of_succ_le_succ hlen)))

theorem advance {xs : List Placed} (k : Watched ts b h p xs) (ha : Advance b h xs h' rest) :
    Watched ts b h' p rest := by
  obtain ⟨mid, q, hsplit, hq⟩ := ha.last
  have hfirst : h'.onlyModifiers = true → ∀ i, h'.first = some i → HeadsAt ts i := by
    intro ho i hi
    obtain ⟨ho', hkept | ⟨t, j, after, rfl, hj, ht⟩⟩ := ha.first ho
    · exact k.first ho' i (hkept ▸ hi)
    · rw [hi] at hj
      cases hj
      exact ⟨t, k.get, ht⟩
  rw [hsplit] at k
  exact k.pass mid hq k.outside hfirst k.pending

theorem found {t : Token} {i : Nat} (k : Watched ts b h p ((t, i) :: rest)) {kind : LocalKind}
    {r : Recognised} (hf : localDeclaration? b h t rest = some (kind, r)) :
    Watched ts b {} (p ++ [⟨h.first.getD i, r.stop, kind, r.name⟩]) r.rest := by
  obtain ⟨hcode, hmod, hkind, hr⟩ := localDeclaration?_eq_some hf
  obtain ⟨w, hw, hkeyword⟩ := Option.bind_eq_some_iff.1 hkind
  obtain ⟨v, j, mid, o, l, inner, e, n, rfl, -, -, -, he, -⟩ := recognise?_eq_some hr
  have hstart : HeadsAt ts (h.first.getD i) := by
    cases hfirst : h.first with
    | some j => exact k.first hmod j hfirst
    | none =>
      refine ⟨t, k.get, ?_⟩
      rw [Token.heads, hw, Option.any_some, hkeyword]
      simp
  rw [← List.cons_append, ← List.cons_append] at k
  refine k.pass _ (by simp [he]) ?_ (by simp) ?_
  · rintro rfl
    cases hcode
  · intro m hm
    rcases List.mem_append.1 hm with hm | hm
    · exact k.pending m hm
    · rw [List.mem_singleton.1 hm]
      exact hstart

end Watched

/-- What is known about a destination to which something moves. -/
structure Filled (ts : List Token) (d : Destination) : Prop where
  /-- The brace does not stand right behind an opening one. -/
  brace : ∃ done t rest, codeTokens ts = done ++ (t, d.brace) :: rest ∧
    ∀ q, done.getLast? = some q → q.1.mark? ≠ some '{'
  moves : ∀ m ∈ d.moves, HeadsAt ts m.start

/-- The scanner moves something only to such places. -/
theorem Scan.filled {ts b h p rest ds} (s : Scan b h p rest ds) :
    Watched ts b h p rest → ∀ d ∈ ds, d.moves ≠ [] → Filled ts d := by
  induction s with
  | nil =>
    intro _ d hd
    cases hd
  | opening ht _ ih =>
    intro k
    exact ih (k.opening _)
  | stray ht _ ih =>
    intro k
    exact ih (k.pass [] (by simp [ht]) k.outside (by simp) k.pending)
  | @outermost a h p t i rest ds ht _ ih =>
    intro k d hd hne
    rcases List.mem_cons.1 hd with rfl | hd
    · obtain ⟨done, hread, hopen⟩ := k.read
      refine ⟨⟨done, t, rest, hread, ?_⟩, k.pending⟩
      intro q hq hmark
      exact hne (hopen q hq hmark (Nat.le_refl 1))
    · exact ih (k.pass [] (by simp [ht]) (fun _ => rfl) (by simp) (by simp)) d hd hne
  | inner ht _ ih =>
    intro k
    exact ih (k.pass [] (by simp [ht]) (by simp) (by simp) k.pending)
  | semicolon ht _ ih =>
    intro k
    exact ih (k.pass [] (by simp [ht]) k.outside (by simp) k.pending)
  | advance ha _ ih =>
    intro k
    exact ih (k.advance ha)
  | found hf _ ih =>
    intro k
    exact ih (k.found hf)

theorem filled_of_mem_destinationsOf {ts : List Token} {d : Destination}
    (hd : d ∈ destinationsOf ts) (hne : d.moves ≠ []) : Filled ts d := by
  have hstart : Watched ts [] {} [] (codeTokens ts) :=
    ⟨⟨[], rfl, by simp⟩, by simp, by simp, by simp⟩
  exact (scan_destinations [] {} [] (codeTokens ts)).filled hstart d hd hne

/-! ## Characters at a cut -/

/-- A declaration does not begin with a character that stands behind a separator in a member. -/
theorem head?_of_heads {t : Token} (h : t.heads = true) :
    ∃ y, t.text.head? = some y ∧ y ∉ ['_', ')', ' ', '{', '}'] := by
  rw [Token.heads, Bool.or_eq_true, decide_eq_true_eq, Option.any_eq_true] at h
  rcases h with h | ⟨w, hw, h⟩
  · exact ⟨'@', (mark?_eq_some.1 h).2, by simp⟩
  · rw [(word?_eq_some.1 hw).2]
    rw [Bool.or_eq_true] at h
    rcases h with h | h
    · simp only [localModifiers, List.map_cons, List.map_nil, List.contains_iff_mem,
        List.mem_cons, List.not_mem_nil, or_false] at h
      rcases h with rfl | rfl | rfl | rfl
      · exact ⟨'f', rfl, by simp⟩
      · exact ⟨'a', rfl, by simp⟩
      · exact ⟨'s', rfl, by simp⟩
      · exact ⟨'s', rfl, by simp⟩
    · unfold LocalKind.ofKeyword? at h
      split at h
      · next he => exact ⟨'e', by rw [he]; rfl, by simp⟩
      · split at h
        · next hi => exact ⟨'i', by rw [hi]; rfl, by simp⟩
        · split at h
          · next hr => exact ⟨'r', by rw [hr]; rfl, by simp⟩
          · cases h

/-- The last character of a stretch is that of its last token. -/
theorem getLast?_textBetween {ts : List Token} (hne : ∀ t ∈ ts, t.text ≠ []) {start i : Nat}
    {x : Char} (h : (textBetween ts start i).getLast? = some x) :
    ∃ t, (ts.take i).getLast? = some t ∧ t.text.getLast? = some x := by
  have hjoin : (join (tokensBetween ts start i)).getLast? = some x := h
  rcases List.eq_nil_or_concat (tokensBetween ts start i) with hnil | ⟨us, u, hu⟩
  · rw [hnil] at hjoin
    cases hjoin
  · rw [List.concat_eq_append] at hu
    have hlast : (tokensBetween ts start i).getLast? = some u := by
      rw [hu, List.getLast?_concat]
    have htake := getLast?_tokensBetween hlast
    have htext := hne u (List.mem_of_mem_take (List.mem_of_getLast? htake))
    refine ⟨u, htake, ?_⟩
    rw [hu, join_append, join_cons, join_nil, List.append_nil, List.getLast?_append,
      List.getLast?_eq_some_getLast htext, Option.some_or] at hjoin
    rw [List.getLast?_eq_some_getLast htext, hjoin]

/-- The first character of a stretch is that of its first token. -/
theorem head?_textBetween {ts : List Token} (hne : ∀ t ∈ ts, t.text ≠ []) {i stop : Nat}
    {t : Token} (ht : ts[i]? = some t) (hlt : i < stop) :
    (textBetween ts i stop).head? = t.text.head? := by
  have htext := hne t (List.mem_of_getElem? ht)
  show (join (tokensBetween ts i stop)).head? = _
  rw [tokensBetween_eq_cons ht hlt, join_cons, List.head?_append,
    List.head?_eq_some_head htext, Option.some_or]

theorem Spaced.starts {ts : List Token} {ms : List Move} {lo hi : Nat} (h : Spaced ts lo ms hi)
    {m : Move} (hm : m ∈ ms) : StartsAt ts m.start := by
  induction ms generalizing lo with
  | nil => cases hm
  | cons a ms ih =>
    obtain ⟨-, hs, -, -, hrest⟩ := h
    rcases List.mem_cons.1 hm with rfl | hm
    · exact hs
    · exact ih hrest hm

section Cuts

variable {ts : List Token} (hts : Lexed ts) (hne : ∀ t ∈ ts, t.text ≠ [])

include hts

theorem Lexed.reads_before {i : Nat} {u : Token} (hu : (ts.take i).getLast? = some u) :
    u.Reads (join (ts.drop i)) := by
  have hsplit : Lexed (ts.take i ++ ts.drop i) := by rwa [List.take_append_drop]
  exact hsplit.reads_getLast hu

/-- How the token before code ends. -/
theorem Lexed.endsIn_before {i : Nat} {u t : Token} (hu : (ts.take i).getLast? = some u)
    (ht : ts[i]? = some t) (hcode : t.isTrivia = false) {x : Char}
    (hx : u.text.getLast? = some x) : u.EndsIn x := by
  have hread := hts.reads_before hu
  have hdrop := hts.drop i
  rw [drop_of_getElem? ht] at hread hdrop
  obtain ⟨c, text, htext, he⟩ := hdrop.1
  rw [join_cons, htext] at hread
  refine hread.endsIn ?_ hx
  -- code does not begin with a line feed
  intro hfeed
  rw [hfeed, extent_space (by decide)] at he
  have hblank : t.kind = .blank := (congrArg Prod.fst he).symm
  simp [isTrivia, hblank] at hcode

include hne

/-- A separator before a declaration does not end like a word. -/
theorem StartsAt.not_word_before {i : Nat} (hi : StartsAt ts i) {start : Nat} {x : Char}
    (hx : (textBetween ts start i).getLast? = some x) : isWordChar x = false := by
  obtain ⟨u, hu, hux⟩ := getLast?_textBetween hne hx
  obtain ⟨t, ht, hcode⟩ := hi.code
  have hends := hts.endsIn_before hu ht hcode hux
  have hsep := hi.separated u hu
  rw [EndsIn] at hends
  cases hk : u.kind with
  | blank =>
    simp only [hk] at hends
    cases hw : isWordChar x with
    | false => rfl
    | true =>
      rw [(isWordChar_ne hw).1] at hends
      cases hends
  | comment =>
    simp only [hk] at hends
    rw [hends]
    rfl
  | mark =>
    simp only [hk] at hends
    have hstops : u.stops = true := by simpa [Token.separates, isTrivia, hk] using hsep
    have hmark : u.mark? = some x := mark?_eq_some.2 ⟨hk, by rw [hends]; rfl⟩
    simp only [Token.stops, hmark, Option.some.injEq, Bool.or_eq_true, decide_eq_true_eq] at hstops
    rcases hstops with (rfl | rfl) | rfl <;> rfl
  | word => simp [Token.separates, isTrivia, Token.stops, mark?, hk] at hsep
  | literal => simp [Token.separates, isTrivia, Token.stops, mark?, hk] at hsep

/-- No member goes across position `i`. -/
def Uncut (ts : List Token) (i : Nat) : Prop :=
  ∀ n, ¬ Straddles (member n) (textBetween ts 0 i) (textBetween ts i ts.length)

theorem uncut_start {i : Nat} (hi : StartsAt ts i) (hh : HeadsAt ts i) : Uncut ts i := by
  obtain ⟨t, ht, hheads⟩ := hh
  obtain ⟨y, hhead, hy⟩ := head?_of_heads hheads
  have hlt : i < ts.length := (List.getElem?_eq_some_iff.1 ht).1
  refine not_straddles_member fun x z hx hz hadj => ?_
  rw [head?_textBetween hne ht hlt, hhead] at hz
  cases hz
  exact hy (hadj.2.2 (hi.not_word_before hts hne hx))

theorem uncut_stop {i : Nat} (hc : ClosesAt ts (i - 1)) : Uncut ts i := by
  have hlt := hc.lt
  obtain ⟨t, ht, hm⟩ := hc
  refine not_straddles_member fun x y hx _ hadj => ?_
  obtain ⟨u, hu, hux⟩ := getLast?_textBetween hne hx
  obtain ⟨-, hget⟩ := getElem?_of_getLast?_take (by omega) hu
  rw [ht] at hget
  cases hget
  have htext := (hts.reads_before hu).text_of_mark hm
  rw [htext] at hux
  exact hadj.1 (Option.some.inj hux).symm

theorem uncut_brace {i : Nat} (hc : ClosesAt ts i)
    (hopen : ∀ u, (ts.take i).getLast? = some u → u.mark? ≠ some '{') : Uncut ts i := by
  obtain ⟨t, ht, hm⟩ := hc
  have hlt : i < ts.length := (List.getElem?_eq_some_iff.1 ht).1
  have hcode : t.isTrivia = false := by
    simp [isTrivia, (mark?_eq_some.1 hm).1]
  refine not_straddles_member fun x y hx hy hadj => ?_
  rw [head?_textBetween hne ht hlt, (mark?_eq_some.1 hm).2] at hy
  cases hy
  obtain ⟨u, hu, hux⟩ := getLast?_textBetween hne hx
  have hx' : x = '{' := hadj.2.1 rfl
  subst hx'
  have hends := hts.endsIn_before hu ht hcode hux
  rw [EndsIn] at hends
  refine hopen u hu (mark?_eq_some.2 ?_)
  cases hk : u.kind with
  | mark =>
    simp only [hk] at hends
    exact ⟨rfl, by rw [hends]; rfl⟩
  | blank => simp only [hk] at hends; cases hends
  | word => simp only [hk] at hends; cases hends
  | literal => simp [hk] at hends
  | comment => simp [hk] at hends

/-- A destination to which something moves, with its declarations, cuts no member. -/
theorem Filled.uncut {d : Destination} (hf : Filled ts d) {lo : Nat}
    (hms : Spaced ts lo d.moves d.brace) (hc : ClosesAt ts d.brace) :
    Uncut ts d.brace ∧ ∀ m ∈ d.moves, Uncut ts m.start ∧ Uncut ts m.stop := by
  constructor
  · obtain ⟨done, t, rest, hread, hopen⟩ := hf.brace
    refine uncut_brace hts hne hc fun u hu hmark => ?_
    obtain ⟨hi, hget⟩ := getElem?_of_getLast?_take (Nat.le_of_lt hc.lt) hu
    have hcode : u.isTrivia = false := by
      simp [isTrivia, (mark?_eq_some.1 hmark).1]
    exact hopen _ (getLast?_of_codeTokens hread hi hget hcode) hmark
  · intro m hm
    exact ⟨uncut_start hts hne (hms.starts hm) (hf.moves m hm), uncut_stop hts hne (hms.ends hm)⟩

end Cuts

end MinimumRelease.Recovery
