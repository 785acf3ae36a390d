import MinimumRelease.Proofs.Recovery.Member

/-! # Scanning the rearranged tokens

The tokens of a relocated text are scanned a second time. That run is held
against the first one, token by token: where the first run read a token that
stays, the second reads the same token behind the same header, and where the
first run passed over a declaration, the second has nothing to read. What was
pending at the closing brace of an outermost type now stands before it. So the
second run is quiet if every declaration that moved is, as a member of a type
(`Scan.quiet_image`). -/

namespace MinimumRelease.Recovery

open Token

/-! ## The tokens with their positions -/

/-- The code that a move takes along. -/
def Move.code (ts : List Token) (m : Move) : List Placed := (codeTokens ts).filter (m.covers ·.2)

/-- The code that is put before position `i`. -/
def landing (ts : List Token) (n : Nat) (spans : List Span) (i : Nat) : List Placed :=
  (spans.zipIdx n).flatMap fun p =>
    if p.1.target = i then p.1.move.code ts ++ placedPlaceholder p.2 else []

/-- `inPlaceOf` for code, where every token keeps the position that it had. -/
def placedImage (ts : List Token) (n : Nat) (spans : List Span) (p : Placed) : List Placed :=
  landing ts n spans p.2 ++ if spans.any (·.move.covers p.2) then [] else [p]

theorem map_fst_codeTokens (ts : List Token) :
    (codeTokens ts).map Prod.fst = ts.filter (!·.isTrivia) := by
  have h := List.filter_map (f := Prod.fst) (p := (!·.isTrivia)) (l := ts.zipIdx)
  rw [List.zipIdx_map_fst] at h
  exact h.symm

theorem filter_covers {ts : List Token} {m : Move} (hle : m.start ≤ m.stop)
    (hlen : m.stop ≤ ts.length) : ts.zipIdx.filter (m.covers ·.2) =
      (tokensBetween ts m.start m.stop).zipIdx m.start := by
  have hbefore : (ts.take m.start).length = m.start := by
    rw [List.length_take]
    omega
  have hblock : (tokensBetween ts m.start m.stop).length = m.stop - m.start := by
    rw [tokensBetween, List.length_take, List.length_drop]
    omega
  have hsplit : ts.zipIdx = (ts.take m.start).zipIdx ++
      ((tokensBetween ts m.start m.stop).zipIdx m.start ++ (ts.drop m.stop).zipIdx m.stop) := by
    have hz : (tokensBetween ts m.start m.stop ++ ts.drop m.stop).zipIdx m.start =
        (tokensBetween ts m.start m.stop).zipIdx m.start ++ (ts.drop m.stop).zipIdx m.stop := by
      rw [List.zipIdx_append, hblock, Nat.add_sub_cancel' hle]
    rw [← hz, ← drop_eq_tokensBetween_append ts hle]
    have htake := @List.zipIdx_append _ (ts.take m.start) (ts.drop m.start) 0
    rwa [List.take_append_drop, hbefore, Nat.zero_add] at htake
  have h1 : (ts.take m.start).zipIdx.filter (m.covers ·.2) = [] := by
    rw [List.filter_eq_nil_iff]
    intro p hp
    have := List.snd_lt_add_of_mem_zipIdx hp
    simp only [Move.covers, Bool.and_eq_true, decide_eq_true_eq]
    omega
  have h2 : ((tokensBetween ts m.start m.stop).zipIdx m.start).filter (m.covers ·.2) =
      (tokensBetween ts m.start m.stop).zipIdx m.start := by
    rw [List.filter_eq_self]
    intro p hp
    have := List.le_snd_of_mem_zipIdx hp
    have := List.snd_lt_add_of_mem_zipIdx hp
    simp only [Move.covers, Bool.and_eq_true, decide_eq_true_eq]
    omega
  have h3 : ((ts.drop m.stop).zipIdx m.stop).filter (m.covers ·.2) = [] := by
    rw [List.filter_eq_nil_iff]
    intro p hp
    have := List.le_snd_of_mem_zipIdx hp
    simp only [Move.covers, Bool.and_eq_true, decide_eq_true_eq]
    omega
  rw [hsplit, List.filter_append, List.filter_append, h1, h2, h3, List.append_nil, List.nil_append]

theorem map_fst_code {ts : List Token} {m : Move} (hle : m.start ≤ m.stop)
    (hlen : m.stop ≤ ts.length) : (m.code ts).map Prod.fst =
      (tokensBetween ts m.start m.stop).filter (!·.isTrivia) := by
  have hcode : m.code ts =
      ((tokensBetween ts m.start m.stop).zipIdx m.start).filter (!·.1.isTrivia) := by
    rw [← filter_covers hle hlen, Move.code, codeTokens, List.filter_filter, List.filter_filter]
    exact List.filter_congr fun p _ => Bool.and_comm ..
  have h := List.filter_map (f := Prod.fst) (p := (!·.isTrivia))
    (l := (tokensBetween ts m.start m.stop).zipIdx m.start)
  rw [List.zipIdx_map_fst] at h
  rw [hcode, h]
  rfl

/-- What is put before a position, without the blanks and comments in it. -/
theorem map_fst_landing {ts : List Token} {spans : List Span}
    (hs : ∀ s ∈ spans, s.move.start ≤ s.move.stop ∧ s.move.stop ≤ ts.length) (n i : Nat) :
    (landing ts n spans i).map Prod.fst = (arrivals ts n spans i).filter (!·.isTrivia) := by
  rw [landing, arrivals, List.map_flatMap, List.filter_flatMap, List.flatMap_def, List.flatMap_def]
  congr 1
  apply List.map_congr_left
  rintro ⟨s, k⟩ hp
  obtain ⟨hle, hlen⟩ := hs s (List.fst_mem_of_mem_zipIdx hp)
  have hplace : (placedPlaceholder k).map Prod.fst =
      (placeholderTokens k).filter (!·.isTrivia) := rfl
  split
  · rw [List.map_append, List.filter_append, hplace, map_fst_code hle hlen]
    rfl
  · rfl

/-- What stands in place of a token, without the blanks and comments in it. -/
theorem map_fst_placedImage {ts : List Token} {spans : List Span}
    (hs : ∀ s ∈ spans, s.move.start ≤ s.move.stop ∧ s.move.stop ≤ ts.length) (n : Nat)
    {t : Token} {i : Nat} (ht : t.isTrivia = false) :
    (placedImage ts n spans (t, i)).map Prod.fst =
      (inPlaceOf ts n spans (t, i)).filter (!·.isTrivia) := by
  rw [placedImage, inPlaceOf, List.map_append, List.filter_append, map_fst_landing hs]
  congr 1
  split
  · rfl
  · rw [List.filter_cons_of_pos (by simp [ht])]
    rfl

/-- **The code of the rearranged tokens.** -/
theorem map_fst_image {ts : List Token} {spans : List Span}
    (hs : ∀ s ∈ spans, s.move.start ≤ s.move.stop ∧ s.move.stop ≤ ts.length)
    (hclose : ∀ s ∈ spans, ClosesAt ts s.target) (n : Nat) :
    ((codeTokens ts).flatMap (placedImage ts n spans)).map Prod.fst =
      (rearranged ts n spans).filter (!·.isTrivia) := by
  have hall : ∀ ps : List Placed, (∀ p ∈ ps, ts[p.2]? = some p.1) →
      ((ps.filter (!·.1.isTrivia)).flatMap (placedImage ts n spans)).map Prod.fst =
        (ps.flatMap (inPlaceOf ts n spans)).filter (!·.isTrivia) := by
    intro ps
    induction ps with
    | nil => exact fun _ => rfl
    | cons p ps ih =>
      obtain ⟨t, i⟩ := p
      intro hps
      have hi : ts[i]? = some t := hps (t, i) List.mem_cons_self
      have ih := ih fun p hp => hps p (List.mem_cons_of_mem _ hp)
      rw [List.flatMap_cons, List.filter_append]
      cases htr : t.isTrivia with
      | true =>
        -- no span has its target at a blank or a comment
        have hnone : arrivals ts n spans i = [] := by
          apply arrivals_eq_nil
          rintro s hm rfl
          obtain ⟨u, hu, hmark⟩ := hclose s hm
          obtain rfl : t = u := Option.some.inj (hi.symm.trans hu)
          obtain ⟨hk, -⟩ := mark?_eq_some.1 hmark
          simp [isTrivia, hk] at htr
        have hdrop : (inPlaceOf ts n spans (t, i)).filter (!·.isTrivia) = [] := by
          rw [inPlaceOf, hnone, List.nil_append]
          split
          · rfl
          · rw [List.filter_cons_of_neg (by simp [htr]), List.filter_nil]
        rw [List.filter_cons_of_neg (by simp [htr]), ih, hdrop, List.nil_append]
      | false =>
        rw [List.filter_cons_of_pos (by simp [htr]), List.flatMap_cons, List.map_append, ih,
          map_fst_placedImage hs n htr]
  refine hall ts.zipIdx ?_
  rintro ⟨t, i⟩ hp
  exact List.mk_mem_zipIdx_iff_getElem?.1 hp

/-! ## What the first run moves -/

/-- Every listed move is pending, or begins with the header or behind it. It goes to a token that is
still to come. -/
theorem Scan.bounds {b h p rest ds} (s : Scan b h p rest ds) :
    ∀ x ∈ ds.flatMap Destination.spans,
      (x.move ∈ p ∨ h.first = some x.move.start ∨ x.move.start ∈ rest.map Prod.snd) ∧
        x.target ∈ rest.map Prod.snd := by
  -- behind a brace or a semicolon no header has begun
  have hnew : ∀ {p : List Move} {q : Placed} {rest : List Placed} {h : Header} {x : Span},
      (x.move ∈ p ∨ ({} : Header).first = some x.move.start ∨ x.move.start ∈ rest.map Prod.snd) ∧
        x.target ∈ rest.map Prod.snd →
      (x.move ∈ p ∨ h.first = some x.move.start ∨ x.move.start ∈ (q :: rest).map Prod.snd) ∧
        x.target ∈ (q :: rest).map Prod.snd := by
    intro p q rest h x hx
    refine ⟨?_, List.mem_cons_of_mem _ hx.2⟩
    rcases hx.1 with hp | hf | hr
    · exact .inl hp
    · cases hf
    · exact .inr (.inr (List.mem_cons_of_mem _ hr))
  induction s with
  | nil =>
    intro x hx
    cases hx
  | opening ht _ ih => exact fun x hx => hnew (ih x hx)
  | stray ht _ ih => exact fun x hx => hnew (ih x hx)
  | outermost ht _ ih =>
    intro x hx
    rcases List.mem_append.1 hx with hx | hx
    · obtain ⟨m, hm, rfl⟩ := List.mem_map.1 hx
      exact ⟨.inl hm, List.mem_cons_self⟩
    · obtain ⟨hstart, htarget⟩ := hnew (ih x hx)
      refine ⟨?_, htarget⟩
      rcases hstart with hp | hstart
      · cases hp
      · exact .inr hstart
  | inner ht _ ih => exact fun x hx => hnew (ih x hx)
  | semicolon ht _ ih => exact fun x hx => hnew (ih x hx)
  | @advance b h p xs h' ys ds ha _ ih =>
    intro x hx
    obtain ⟨t, i, mid, rfl, hf⟩ := ha.split
    obtain ⟨hstart, htarget⟩ := ih x hx
    rw [List.map_append]
    refine ⟨?_, List.mem_append_right _ htarget⟩
    rcases hstart with hp | hfirst | hr
    · exact .inl hp
    · rw [hf, Option.some.injEq] at hfirst
      cases hh : h.first with
      | none =>
        rw [hh, Option.getD_none] at hfirst
        rw [← hfirst]
        exact .inr (.inr List.mem_cons_self)
      | some j =>
        rw [hh, Option.getD_some] at hfirst
        rw [hfirst]
        exact .inr (.inl rfl)
    · exact .inr (.inr (List.mem_append_right _ hr))
  | @found b h p t i rest kind r ds hf _ ih =>
    intro x hx
    obtain ⟨-, -, -, hr⟩ := localDeclaration?_eq_some hf
    obtain ⟨w, j, mid, o, k, inner, e, n, rfl, -⟩ := recognise?_eq_some hr
    obtain ⟨hstart, htarget⟩ := ih x hx
    have hbehind : ∀ {a}, a ∈ r.rest.map Prod.snd → a ∈
        (((t, i) :: ((w, j) :: mid ++ (o, k) :: inner ++ (e, n) :: r.rest)).map Prod.snd) := by
      intro a ha
      simp [ha]
    refine ⟨?_, hbehind htarget⟩
    rcases hstart with hp | hfirst | hr
    · rcases List.mem_append.1 hp with hp | hp
      · exact .inl hp
      · rw [List.mem_singleton.1 hp]
        cases hh : h.first with
        | none => exact .inr (.inr List.mem_cons_self)
        | some j => exact .inr (.inl rfl)
    · cases hfirst
    · exact .inr (.inr (hbehind hr))

theorem Advance.last_mark {b h xs h' ys c} (ha : Advance b h xs h' ys) (hl : h'.last = some c) :
    ∃ t i, xs = (t, i) :: ys ∧ t.mark? = some c := by
  cases ha with
  | markup => cases hl
  | @loneAt t i _ ht _ => exact ⟨t, i, rfl, ht.trans hl⟩
  | @mark t i _ c' ht _ _ => exact ⟨t, i, rfl, ht.trans hl⟩
  | word => cases hl
  | literal => cases hl

/-- The last mark of a header is the last token that was read. -/
theorem Passes.last_mark {b h xs h' ys c} (hp : Passes b h xs h' ys) : ∀ {held},
    xs = held ++ ys → h'.last = some c →
      held = [] ∧ h.last = some c ∨ ∃ q, held.getLast? = some q ∧ q.1.mark? = some c := by
  induction hp with
  | refl =>
    intro held hx hl
    exact .inl ⟨by simpa using hx, hl⟩
  | @step h xs h₁ xs₁ h' ys ha hrest ih =>
    intro held hx hl
    obtain ⟨held₁, hz⟩ := hrest.split
    obtain ⟨t, i, mid, hsplit, -⟩ := ha.split
    have hheld : held = (t, i) :: mid ++ held₁ := by
      rw [hsplit, hz, ← List.append_assoc] at hx
      exact (List.append_cancel_right hx).symm
    refine .inr ?_
    rcases ih hz hl with ⟨rfl, hlast⟩ | ⟨q, hq, hm⟩
    · obtain ⟨u, j, hone, hu⟩ := ha.last_mark hlast
      have hmid : ((t, i) :: mid) ++ xs₁ = [(u, j)] ++ xs₁ := hsplit.symm.trans hone
      rw [hheld, List.append_cancel_right hmid]
      exact ⟨(u, j), rfl, hu⟩
    · refine ⟨q, ?_, hm⟩
      rw [hheld, List.getLast?_append, hq, Option.some_or]

/-! ## Side by side -/

/-- The first run has read `held` since the last brace or semicolon, and `rest` is before it. The
spans of `past` have their target behind it, the moves of `p` are pending. -/
structure Tracks (ts : List Token) (past : List Span) (held : List Placed) (b : List Brace)
    (h : Header) (p : List Move) (rest : List Placed) : Prop where
  read : ∃ done, codeTokens ts = done ++ (held ++ rest)
  first : h.first = held.head?.map Prod.snd
  passes : Passes b {} (held ++ rest) h rest
  past : ∀ s ∈ past, ∀ q ∈ held ++ rest, s.move.stop ≤ q.2 ∧ s.target < q.2
  pending : ∀ m ∈ p, Declares (m.code ts) ∧ ∀ q ∈ held ++ rest, m.stop ≤ q.2
  outer : p ≠ [] → b.getLast? = some .typeBody

theorem Tracks.lt {ts past held b h p t i bs} (as : List Placed)
    (k : Tracks ts past held b h p (as ++ (t, i) :: bs)) :
    (∀ q ∈ held ++ as, q.2 < i) ∧ ∀ q ∈ bs, i < q.2 := by
  obtain ⟨done, hread⟩ := k.read
  rw [← List.append_assoc, ← List.append_assoc] at hread
  have hlt := lt_of_codeTokens hread
  refine ⟨fun q hq => hlt.1 q ?_, hlt.2⟩
  rw [List.append_assoc]
  exact List.mem_append_right _ hq

/-- Behind a brace or a semicolon a new header begins. -/
theorem Tracks.reset {ts past held b h p q bs} (as : List Placed)
    (k : Tracks ts past held b h p (as ++ q :: bs)) {b' : List Brace} {p' : List Move}
    (hp : ∀ m ∈ p', Declares (m.code ts) ∧ ∀ q ∈ bs, m.stop ≤ q.2)
    (hb : p' ≠ [] → b'.getLast? = some .typeBody) : Tracks ts past [] b' {} p' bs := by
  obtain ⟨done, hread⟩ := k.read
  refine ⟨⟨done ++ (held ++ as ++ [q]), by simp [hread]⟩, rfl, .refl, ?_, hp, hb⟩
  intro s hs x hx
  exact k.past s hs x
    (List.mem_append_right _ (List.mem_append_right _ (List.mem_cons_of_mem _ hx)))

theorem Tracks.stop {ts past held b h p q rest} (k : Tracks ts past held b h p (q :: rest))
    {b' : List Brace} (hb : p ≠ [] → b'.getLast? = some .typeBody) :
    Tracks ts past [] b' {} p rest := by
  refine k.reset [] (fun m hm => ?_) hb
  obtain ⟨hd, hle⟩ := k.pending m hm
  exact ⟨hd, fun x hx => hle x (List.mem_append_right _ (List.mem_cons_of_mem _ hx))⟩

/-- The brace of an outermost type, to which everything pending moves. -/
theorem Tracks.arrive {ts past held b h p t i rest}
    (k : Tracks ts past held b h p ((t, i) :: rest)) :
    Tracks ts (past ++ p.map (⟨·, i⟩)) [] [] {} [] rest := by
  have k' : Tracks ts past [] [] {} [] rest := k.reset [] (by simp) (by simp)
  refine ⟨k'.read, rfl, .refl, ?_, k'.pending, k'.outer⟩
  intro s hs q hq
  rcases List.mem_append.1 hs with hs | hs
  · exact k'.past s hs q hq
  · obtain ⟨m, hm, rfl⟩ := List.mem_map.1 hs
    exact ⟨(k.pending m hm).2 q (List.mem_append_right _ (List.mem_cons_of_mem _ hq)),
      (k.lt []).2 q hq⟩

theorem Tracks.advance {ts past held b h p t i mid h' ys}
    (k : Tracks ts past held b h p ((t, i) :: mid ++ ys))
    (ha : Advance b h ((t, i) :: mid ++ ys) h' ys)
    (hf : h'.first = some (h.first.getD i)) :
    Tracks ts past (held ++ (t, i) :: mid) b h' p ys := by
  have hlist : held ++ (t, i) :: mid ++ ys = held ++ ((t, i) :: mid ++ ys) := by simp
  constructor
  · rw [hlist]
    exact k.read
  · rw [hf, k.first]
    cases held <;> rfl
  · rw [hlist]
    exact k.passes.trans (.step ha .refl)
  · rw [hlist]
    exact k.past
  · rw [hlist]
    exact k.pending
  · exact k.outer

theorem code_eq_of_codeTokens {ts : List Token} {as cs block : List Placed} {x : Placed}
    {e : Token} {k : Nat} {m : Move} (h : codeTokens ts = as ++ (x :: block ++ (e, k) :: cs))
    (hstart : m.start = x.2) (hstop : m.stop = k + 1) :
    m.code ts = x :: block ++ [(e, k)] := by
  have h1 := lt_of_codeTokens h
  have h2 := lt_of_codeTokens (show codeTokens ts = (as ++ x :: block) ++ (e, k) :: cs by simp [h])
  have hx : x.2 < k := h2.1 x (by simp)
  have hbefore : as.filter (m.covers ·.2) = [] := by
    rw [List.filter_eq_nil_iff]
    intro q hq
    have := h1.1 q hq
    simp only [Move.covers, Bool.and_eq_true, decide_eq_true_eq]
    omega
  have hbehind : cs.filter (m.covers ·.2) = [] := by
    rw [List.filter_eq_nil_iff]
    intro q hq
    have := h2.2 q hq
    simp only [Move.covers, Bool.and_eq_true, decide_eq_true_eq]
    omega
  have hinside : (x :: block ++ [(e, k)]).filter (m.covers ·.2) = x :: block ++ [(e, k)] := by
    rw [List.filter_eq_self]
    intro q hq
    have hpos : x.2 ≤ q.2 ∧ q.2 ≤ k := by
      rcases List.mem_append.1 hq with hq | hq
      · refine ⟨?_, Nat.le_of_lt (h2.1 q (List.mem_append_right _ hq))⟩
        rcases List.mem_cons.1 hq with rfl | hq
        · exact Nat.le_refl _
        · exact Nat.le_of_lt (h1.2 q (List.mem_append_left _ hq))
      · rw [List.mem_singleton.1 hq]
        exact ⟨Nat.le_of_lt hx, Nat.le_refl _⟩
    simp only [Move.covers, Bool.and_eq_true, decide_eq_true_eq]
    omega
  have hsplit : codeTokens ts = as ++ ((x :: block ++ [(e, k)]) ++ cs) := by simp [h]
  rw [Move.code, hsplit, List.filter_append, List.filter_append, hbefore, hinside, hbehind,
    List.append_nil, List.nil_append]

/-- The declaration that was recognised is what its move covers, from the header on. -/
theorem Tracks.found {ts past held b h p t i rest kind r}
    (k : Tracks ts past held b h p ((t, i) :: rest))
    (hf : localDeclaration? b h t rest = some (kind, r)) :
    ∃ block, held ++ (t, i) :: rest = block ++ r.rest ∧
      Move.code ts ⟨h.first.getD i, r.stop, kind, r.name⟩ = block ∧
      Tracks ts past [] b {} (p ++ [⟨h.first.getD i, r.stop, kind, r.name⟩]) r.rest := by
  obtain ⟨hcode, hmod, hkind, hr⟩ := localDeclaration?_eq_some hf
  obtain ⟨w, j, mid, o, l, inner, e, n, rfl, hw, hmid, ho, he, hstop, -, hclose⟩ :=
    recognise?_eq_some hr
  have hmods : Modifiers held := k.passes.modifiers hmod rfl
  -- the first token of the declaration is the first of the header, or the keyword
  obtain ⟨x, xs, hx, hfirst⟩ : ∃ x xs, held ++ [(t, i)] = x :: xs ∧ h.first.getD i = x.2 := by
    rw [k.first]
    cases held with
    | nil => exact ⟨(t, i), [], rfl, rfl⟩
    | cons x held => exact ⟨x, held ++ [(t, i)], rfl, rfl⟩
  have hblock : ∀ cs : List Placed,
      held ++ (t, i) :: ((w, j) :: mid ++ (o, l) :: inner ++ (e, n) :: cs) =
        x :: (xs ++ (w, j) :: (mid ++ (o, l) :: inner)) ++ (e, n) :: cs := by
    intro cs
    have happ := congrArg (· ++ ((w, j) :: (mid ++ (o, l) :: (inner ++ (e, n) :: cs)))) hx
    simpa using happ
  obtain ⟨done, hread⟩ := k.read
  rw [hblock] at hread
  have hcover : Move.code ts ⟨h.first.getD i, r.stop, kind, r.name⟩ =
      x :: (xs ++ (w, j) :: (mid ++ (o, l) :: inner)) ++ [(e, n)] :=
    code_eq_of_codeTokens hread hfirst hstop
  have hdecl : Declares (Move.code ts ⟨h.first.getD i, r.stop, kind, r.name⟩) := by
    have hunbroken : Unbroken ((w, j) :: mid) := by
      intro q hq
      rcases List.mem_cons.1 hq with rfl | hq
      · simp [Token.stops, mark?_eq_none_of_word hw]
      · exact hmid q hq
    have hd := @Declares.intro held t i kind ((w, j) :: mid) o l inner e n hmods hkind
      (by rw [wordOf?_cons, hw]; rfl) hunbroken ho he (hclose [])
    rw [hcover, ← hblock]
    simpa using hd
  refine ⟨_, ?_, hcover, ?_⟩
  · rw [hblock]
    simp
  · have hlist : (t, i) :: ((w, j) :: mid ++ (o, l) :: inner ++ (e, n) :: r.rest) =
        ((t, i) :: ((w, j) :: mid ++ (o, l) :: inner)) ++ (e, n) :: r.rest := rfl
    rw [hlist] at k
    refine k.reset _ ?_ fun _ => ?_
    · intro m hm
      rcases List.mem_append.1 hm with hm | hm
      · obtain ⟨hd, hle⟩ := k.pending m hm
        exact ⟨hd, fun q hq => hle q
          (List.mem_append_right _ (List.mem_append_right _ (List.mem_cons_of_mem _ hq)))⟩
      · rw [List.mem_singleton.1 hm]
        refine ⟨hdecl, fun q hq => ?_⟩
        have := (k.lt _).2 q hq
        show r.stop ≤ q.2
        omega
    · simp only [inCode, Bool.and_eq_true, decide_eq_true_eq] at hcode
      exact hcode.2

/-! ## What the second run reads -/

section Image

variable {ts : List Token} {n : Nat} {spans : List Span}

theorem landing_append (as bs : List Span) (i : Nat) :
    landing ts n (as ++ bs) i = landing ts n as i ++ landing ts (n + as.length) bs i := by
  rw [landing, List.zipIdx_append, List.flatMap_append]
  rfl

theorem landing_eq_nil {i : Nat} (h : ∀ s ∈ spans, s.target ≠ i) : landing ts n spans i = [] := by
  rw [landing, List.flatMap_eq_nil_iff]
  rintro ⟨s, k⟩ hp
  have hs : s ∈ spans := List.fst_mem_of_mem_zipIdx hp
  rw [if_neg (h s hs)]

theorem landing_cons (m : Move) (ms : List Span) (i : Nat) :
    landing ts n (⟨m, i⟩ :: ms) i =
      m.code ts ++ (placedPlaceholder n ++ landing ts (n + 1) ms i) := by
  rw [landing, List.zipIdx_cons, List.flatMap_cons, if_pos rfl, List.append_assoc]
  rfl

theorem image_of_untouched {xs : List Placed}
    (h : ∀ q ∈ xs, ∀ s ∈ spans, s.target ≠ q.2 ∧ s.move.covers q.2 = false) :
    xs.flatMap (placedImage ts n spans) = xs := by
  have hone : ∀ q ∈ xs, placedImage ts n spans q = [q] := by
    intro q hq
    have hany : spans.any (·.move.covers q.2) = false := by
      rw [List.any_eq_false]
      intro s hs
      simp [(h q hq s hs).2]
    rw [placedImage, landing_eq_nil fun s hs => (h q hq s hs).1, hany]
    rfl
  rw [List.flatMap_def, List.map_congr_left hone, ← List.flatMap_def]
  exact List.flatMap_singleton' xs

theorem image_of_covered {xs : List Placed} (ht : ∀ q ∈ xs, ∀ s ∈ spans, s.target ≠ q.2)
    {s : Span} (hs : s ∈ spans) (hc : ∀ q ∈ xs, s.move.covers q.2 = true) :
    xs.flatMap (placedImage ts n spans) = [] := by
  rw [List.flatMap_eq_nil_iff]
  intro q hq
  have hany : spans.any (·.move.covers q.2) = true := List.any_eq_true.2 ⟨s, hs, hc q hq⟩
  rw [placedImage, landing_eq_nil (ht q hq), hany]
  rfl

end Image

theorem not_covers_of_le {m : Move} {i : Nat} (h : m.stop ≤ i ∨ i < m.start) :
    m.covers i = false := by
  simp only [Move.covers, Bool.and_eq_false_iff, decide_eq_false_iff_not]
  omega

/-- Neither what is past nor what is found behind the token at `i` touches a token up to there. -/
theorem Tracks.untouched {ts past held b h p t i rest b' p' ds}
    (k : Tracks ts past held b h p ((t, i) :: rest)) (s : Scan b' {} p' rest ds)
    (hp : ∀ m ∈ p', m ∈ p) : ∀ q ∈ held ++ [(t, i)], ∀ x ∈ past ++ ds.flatMap Destination.spans,
      x.target ≠ q.2 ∧ x.move.covers q.2 = false := by
  intro q hq x hx
  have hmem : q ∈ held ++ (t, i) :: rest := by
    rcases List.mem_append.1 hq with hq | hq
    · exact List.mem_append_left _ hq
    · rw [List.mem_singleton.1 hq]
      exact List.mem_append_right _ List.mem_cons_self
  have hlt : ∀ j ∈ rest.map Prod.snd, q.2 < j := by
    intro j hj
    obtain ⟨y, hy, rfl⟩ := List.mem_map.1 hj
    have hlt := k.lt []
    have hiy := hlt.2 y hy
    rcases List.mem_append.1 hq with hq | hq
    · exact Nat.lt_trans (hlt.1 q (List.mem_append_left _ hq)) hiy
    · rw [List.mem_singleton.1 hq]
      exact hiy
  rcases List.mem_append.1 hx with hx | hx
  · obtain ⟨h1, h2⟩ := k.past x hx q hmem
    exact ⟨Nat.ne_of_lt h2, not_covers_of_le (.inl h1)⟩
  · obtain ⟨hstart, htarget⟩ := s.bounds x hx
    refine ⟨Nat.ne_of_gt (hlt _ htarget), not_covers_of_le ?_⟩
    rcases hstart with hm | hf | hr
    · exact .inl ((k.pending _ (hp _ hm)).2 q hmem)
    · cases hf
    · exact .inr (hlt _ hr)

/-- Up to a brace or a semicolon to which nothing moves both runs read the same. -/
theorem Tracks.quiet_stop {ts past held b h p t i rest b' p' ds}
    (k : Tracks ts past held b h p ((t, i) :: rest)) (hc : Closes (codeTokens ts))
    (ht : t.stops = true) (s : Scan b' {} p' rest ds) (hp : ∀ m ∈ p', m ∈ p) {n : Nat}
    {spans : List Span} (hspans : spans = past ++ ds.flatMap Destination.spans) :
    Quiet b {} ((held ++ (t, i) :: rest).flatMap (placedImage ts n spans)) ↔
      Quiet b h ((t, i) :: rest.flatMap (placedImage ts n spans)) := by
  subst hspans
  have himage : (held ++ (t, i) :: rest).flatMap
      (placedImage ts n (past ++ ds.flatMap Destination.spans)) =
        held ++ (t, i) :: rest.flatMap
          (placedImage ts n (past ++ ds.flatMap Destination.spans)) := by
    have hkeep := @image_of_untouched ts n _ _ (k.untouched s hp)
    rw [List.append_cons, List.flatMap_append, hkeep, ← List.append_cons]
  obtain ⟨done, hread⟩ := k.read
  rw [hread] at hc
  have hdot : t.mark? ≠ some '.' := by
    intro hm
    simp [Token.stops, hm] at ht
  have hparen : t.mark? ≠ some '(' := by
    intro hm
    simp [Token.stops, hm] at ht
  have hbehind : ∀ ys, Behind b held ((t, i) :: rest) ((t, i) :: ys) := by
    intro ys
    exact ⟨⟨hdot, hdot⟩, hparen, .inl ⟨word?_of_stops ht, word?_of_stops ht⟩,
      .inr ⟨(t, i), ys, rfl, ht, .inl ⟨rest, rfl⟩⟩⟩
  rw [himage]
  exact (k.passes.behind rfl (hbehind _) hc.suffix).quiet_iff

/-- The moved declarations and their placeholders, up to the brace that they moved to. -/
theorem quiet_landing {ts : List Token} {ms : List Move} {t : Token} {i : Nat} {brace : Placed}
    (hd : ∀ m ∈ ms, Declares (m.code ts) ∧ Nested ((m.code ts).map Prod.fst))
    (ht : t.mark? = some '}') (hbrace : brace.1.mark? = some '}') (ys : List Placed) :
    ∀ {n : Nat} {h : Header}, h.last ≠ some '.' →
      (Quiet [.typeBody] h (landing ts n (ms.map (⟨·, i⟩)) i ++ (t, i) :: ys) ↔
        (∀ m ∈ ms, Quiet [.typeBody] {} (m.code ts ++ [brace])) ∧ Quiet [] {} ys) := by
  induction ms with
  | nil =>
    intro n h _
    rw [List.map_nil]
    show Quiet [.typeBody] h ((t, i) :: ys) ↔ _
    rw [quiet_closing ht]
    exact ⟨fun hq => ⟨by simp, hq⟩, fun hq => hq.2⟩
  | cons m ms ih =>
    intro n h hh
    obtain ⟨hdecl, hn⟩ := hd m List.mem_cons_self
    have ih := ih (fun m' hm => hd m' (List.mem_cons_of_mem _ hm)) (n := n + 1) (h := {}) (by simp)
    rw [List.map_cons, landing_cons, List.append_assoc, List.append_assoc,
      hdecl.quiet_append hn hh hbrace, quiet_placeholder, ih, List.forall_mem_cons, and_assoc]

/-- The code before position `i` ends with a token that waits for nothing. -/
def Settled (ts : List Token) (i : Nat) : Prop :=
  ((codeTokens ts).filter (·.2 < i)).getLast?.all (!·.1.expects) = true

instance (ts : List Token) (i : Nat) : Decidable (Settled ts i) :=
  inferInstanceAs (Decidable (_ = _))

theorem Settled.expects {ts : List Token} {i : Nat} (h : Settled ts i) {as bs : List Placed}
    {t : Token} (hread : codeTokens ts = as ++ (t, i) :: bs) {q : Placed}
    (hq : as.getLast? = some q) : q.1.expects = false := by
  obtain ⟨hbefore, hbehind⟩ := lt_of_codeTokens hread
  have has : as.filter (·.2 < i) = as := by
    rw [List.filter_eq_self]
    intro x hx
    exact decide_eq_true (hbefore x hx)
  have hbs : ((t, i) :: bs).filter (·.2 < i) = [] := by
    rw [List.filter_eq_nil_iff]
    intro x hx
    rcases List.mem_cons.1 hx with rfl | hx
    · simp
    · have := hbehind x hx
      simp only [decide_eq_true_eq]
      omega
  rw [Settled, hread, List.filter_append, has, hbs, List.append_nil, hq] at h
  simpa using h

/-- At the brace of an outermost type stands what the first run moved there. -/
theorem Tracks.image_outermost {ts past held a h p t i rest ds}
    (k : Tracks ts past held [a] h p ((t, i) :: rest)) (s : Scan [] {} [] rest ds) {n : Nat}
    {spans : List Span}
    (hspans : spans = past ++ (p.map (⟨·, i⟩) ++ ds.flatMap Destination.spans)) :
    (held ++ (t, i) :: rest).flatMap (placedImage ts n spans) =
      held ++ (landing ts (n + past.length) (p.map (⟨·, i⟩)) i ++
        (t, i) :: rest.flatMap (placedImage ts n spans)) := by
  have hlt := k.lt []
  have hother := k.untouched s (by simp)
  have hstop : ∀ m ∈ p, ∀ q ∈ held ++ [(t, i)], m.covers q.2 = false := by
    intro m hm q hq
    refine not_covers_of_le (.inl ((k.pending m hm).2 q ?_))
    rw [List.append_cons]
    exact List.mem_append_left _ hq
  have hheld : held.flatMap (placedImage ts n spans) = held := by
    apply image_of_untouched
    intro q hq x hx
    rw [hspans] at hx
    have hq' : q ∈ held ++ [(t, i)] := List.mem_append_left _ hq
    rcases List.mem_append.1 hx with hx | hx
    · exact hother q hq' x (List.mem_append_left _ hx)
    rcases List.mem_append.1 hx with hx | hx
    · obtain ⟨m, hm, rfl⟩ := List.mem_map.1 hx
      exact ⟨Nat.ne_of_gt (hlt.1 q (List.mem_append_left _ hq)), hstop m hm q hq'⟩
    · exact hother q hq' x (List.mem_append_right _ hx)
  have hat : placedImage ts n spans (t, i) =
      landing ts (n + past.length) (p.map (⟨·, i⟩)) i ++ [(t, i)] := by
    have hi : (t, i) ∈ held ++ [(t, i)] := List.mem_append_right _ List.mem_cons_self
    have hpast : landing ts n past i = [] :=
      landing_eq_nil fun x hx => (hother _ hi x (List.mem_append_left _ hx)).1
    have hlater : ∀ j, landing ts j (ds.flatMap Destination.spans) i = [] :=
      fun j => landing_eq_nil fun x hx => (hother _ hi x (List.mem_append_right _ hx)).1
    have hany : spans.any (·.move.covers i) = false := by
      rw [List.any_eq_false, hspans]
      intro x hx
      rw [Bool.not_eq_true]
      rcases List.mem_append.1 hx with hx | hx
      · exact (hother _ hi x (List.mem_append_left _ hx)).2
      rcases List.mem_append.1 hx with hx | hx
      · obtain ⟨m, hm, rfl⟩ := List.mem_map.1 hx
        exact hstop m hm _ hi
      · exact (hother _ hi x (List.mem_append_right _ hx)).2
    rw [placedImage, hany, hspans, landing_append, landing_append, hpast, hlater, List.nil_append,
      List.append_nil]
    rfl
  rw [List.flatMap_append, List.flatMap_cons, hheld, hat, List.append_assoc]
  rfl

theorem Tracks.quiet_outermost {ts past held a h p t i rest ds}
    (k : Tracks ts past held [a] h p ((t, i) :: rest)) (hc : Closes (codeTokens ts))
    (ht : t.mark? = some '}') (s : Scan [] {} [] rest ds) {n : Nat} {spans : List Span}
    (hspans : spans = past ++ (p.map (⟨·, i⟩) ++ ds.flatMap Destination.spans))
    (hn : ∀ x ∈ spans, Nested ((x.move.code ts).map Prod.fst))
    (hset : ∀ x ∈ spans, Settled ts x.target) {brace : Placed}
    (hbrace : brace.1.mark? = some '}') :
    Quiet [a] {} ((held ++ (t, i) :: rest).flatMap (placedImage ts n spans)) ↔
      (∀ m ∈ p, Quiet [.typeBody] {} (m.code ts ++ [brace])) ∧
        Quiet [] {} (rest.flatMap (placedImage ts n spans)) := by
  obtain ⟨done, hread⟩ := k.read
  rw [hread] at hc
  have hstops : t.stops = true := stops_of_mark ht (by simp)
  have hsame : markOf? ((t, i) :: rest) ≠ some '.' := by simp [ht]
  rw [k.image_outermost s hspans]
  cases p with
  | nil =>
    -- nothing arrives, and the header is read up to the same brace
    have hbehind : ∀ ys, Behind [a] held ((t, i) :: rest) ((t, i) :: ys) := by
      intro ys
      exact ⟨⟨hsame, by simp [ht]⟩, by simp [ht],
        .inl ⟨word?_of_stops hstops, word?_of_stops hstops⟩, .inl rfl⟩
    show Quiet [a] {} (held ++ (t, i) :: _) ↔ _
    rw [(k.passes.behind rfl (hbehind _) hc.suffix).quiet_iff, quiet_closing ht]
    exact ⟨fun hq => ⟨by simp, hq⟩, fun hq => hq.2⟩
  | cons m ms =>
    -- the header is read up to the first declaration, for which its last token must not wait
    obtain rfl : a = .typeBody := Option.some.inj (k.outer (by simp))
    have hmem : ∀ m' ∈ m :: ms, (⟨m', i⟩ : Span) ∈ spans := by
      intro m' hm
      rw [hspans]
      exact List.mem_append_right _ (List.mem_append_left _ (List.mem_map_of_mem hm))
    have hexpects : ∀ q, held.getLast? = some q → q.1.expects = false := by
      intro q hq
      have hs : Settled ts i := hset _ (hmem m List.mem_cons_self)
      rw [← List.append_assoc] at hread
      exact hs.expects hread (by rw [List.getLast?_append, hq, Option.some_or])
    have hlast : h.last ≠ some '.' := by
      intro hl
      rcases k.passes.last_mark rfl hl with ⟨-, hnew⟩ | ⟨q, hq, hm⟩
      · cases hnew
      · have := hexpects q hq
        simp [Token.expects, hm] at this
    have hdecl := (k.pending m List.mem_cons_self).1
    have hbehind : ∀ ys, Behind [.typeBody] held ((t, i) :: rest)
        (landing ts (n + past.length) ((m :: ms).map (⟨·, i⟩)) i ++ (t, i) :: ys) := by
      intro ys
      rw [List.map_cons, landing_cons, List.append_assoc]
      exact ⟨⟨hsame, hdecl.head_ne (by decide)⟩, hdecl.head_ne (by decide), .inr hexpects,
        .inl rfl⟩
    rw [(k.passes.behind rfl (hbehind _) hc.suffix).quiet_iff]
    exact quiet_landing (fun m' hm => ⟨(k.pending m' hm).1, hn _ (hmem m' hm)⟩) ht hbrace _ hlast

/-- In place of a declaration that was recognised nothing is left. -/
theorem Tracks.image_found {ts past held b h p t i rest kind r ds stack}
    (k : Tracks ts past held b h p ((t, i) :: rest))
    (hf : localDeclaration? b h t rest = some (kind, r))
    (s : Scan b {} (p ++ [⟨h.first.getD i, r.stop, kind, r.name⟩]) r.rest ds)
    (hl : Level b stack r.rest) {n : Nat} {spans : List Span}
    (hspans : spans = past ++ ds.flatMap Destination.spans) :
    (held ++ (t, i) :: rest).flatMap (placedImage ts n spans) =
      r.rest.flatMap (placedImage ts n spans) := by
  obtain ⟨block, hblock, hcode, k'⟩ := k.found hf
  -- the move is made, as the run comes to the brace that it waits for
  obtain ⟨hin, -, -, -⟩ := localDeclaration?_eq_some hf
  obtain ⟨d, ds', rfl, hp⟩ := s.reaches hl (by rintro rfl; cases hin)
  have hm := hp.subset (List.mem_append_right p List.mem_cons_self)
  have hcovers : ∀ q ∈ block, Move.covers ⟨h.first.getD i, r.stop, kind, r.name⟩ q.2 = true := by
    intro q hq
    rw [← hcode] at hq
    exact (List.mem_filter.1 hq).2
  have htarget : ∀ q ∈ block, ∀ x ∈ spans, x.target ≠ q.2 := by
    intro q hq x hx
    rw [hspans] at hx
    rcases List.mem_append.1 hx with hx | hx
    · have hqm : q ∈ held ++ (t, i) :: rest := by
        rw [hblock]
        exact List.mem_append_left _ hq
      exact Nat.ne_of_lt (k.past x hx q hqm).2
    · obtain ⟨y, hy, htarget⟩ := List.mem_map.1 (s.bounds x hx).2
      have hle := (k'.pending _ (List.mem_append_right p List.mem_cons_self)).2 y hy
      have hlt := hcovers q hq
      simp only [Move.covers, Bool.and_eq_true, decide_eq_true_eq] at hlt hle
      omega
  have hspan : ⟨⟨h.first.getD i, r.stop, kind, r.name⟩, d.brace⟩ ∈ spans := by
    rw [hspans]
    exact List.mem_append_right _ (List.mem_append_left _ (List.mem_map_of_mem hm))
  rw [hblock, List.flatMap_append, image_of_covered htarget hspan hcovers, List.nil_append]

/-- **The second run is quiet if the declarations that moved are**, each as a member of a type. -/
theorem Scan.quiet_image {ts : List Token} (hc : Closes (codeTokens ts)) {n : Nat}
    {spans : List Span} (hn : ∀ x ∈ spans, Nested ((x.move.code ts).map Prod.fst))
    (hset : ∀ x ∈ spans, Settled ts x.target) {brace : Placed}
    (hbrace : brace.1.mark? = some '}') {b h p rest ds} (s : Scan b h p rest ds) :
    ∀ {past held stack}, Tracks ts past held b h p rest → Level b stack rest →
      spans = past ++ ds.flatMap Destination.spans →
      (Quiet b {} ((held ++ rest).flatMap (placedImage ts n spans)) ↔
        ∀ x ∈ ds.flatMap Destination.spans, Quiet [.typeBody] {} (x.move.code ts ++ [brace])) := by
  induction s with
  | nil =>
    intro past held stack k hl hspans
    have hheld : (held ++ []).flatMap (placedImage ts n spans) = held ++ [] := by
      apply image_of_untouched
      intro q hq x hx
      rw [hspans, List.flatMap_nil, List.append_nil] at hx
      obtain ⟨h1, h2⟩ := k.past x hx q hq
      exact ⟨Nat.ne_of_lt h2, not_covers_of_le (.inl h1)⟩
    rw [hheld, k.passes.quiet_iff]
    exact ⟨fun _ _ hx => absurd hx List.not_mem_nil, fun _ => .nil⟩
  | opening ht s ih =>
    intro past held stack k hl hspans
    rw [k.quiet_stop hc (stops_of_mark ht (by simp)) s (fun _ hm => hm) hspans, quiet_opening ht]
    refine ih (k.stop fun hp => ?_) (hl.opening ht _) hspans
    rw [List.getLast?_cons, k.outer hp, Option.getD_some]
  | stray ht s ih =>
    intro past held stack k hl hspans
    obtain ⟨a, b', stack', hb, -⟩ := hl.closing ht
    cases hb
  | @outermost a h p t i rest ds ht s ih =>
    intro past held stack k hl hspans
    obtain ⟨a', b', stack', hb, hl'⟩ := hl.closing ht
    cases hb
    -- what was pending is past now
    have hspans' : spans = past ++ p.map (⟨·, i⟩) ++ ds.flatMap Destination.spans := by
      rw [List.append_assoc]
      exact hspans
    rw [k.quiet_outermost hc ht s hspans hn hset hbrace, List.flatMap_cons, List.forall_mem_append,
      ← ih k.arrive hl' hspans', Destination.spans, List.forall_mem_map]
    exact Iff.rfl
  | inner ht s ih =>
    intro past held stack k hl hspans
    obtain ⟨a, b', stack', hb, hl'⟩ := hl.closing ht
    cases hb
    rw [k.quiet_stop hc (stops_of_mark ht (by simp)) s (fun _ hm => hm) hspans, quiet_closing ht]
    refine ih (k.stop fun hp => ?_) hl' hspans
    rw [← k.outer hp, List.getLast?_cons_cons]
  | semicolon ht s ih =>
    intro past held stack k hl hspans
    rw [k.quiet_stop hc (stops_of_mark ht (by simp)) s (fun _ hm => hm) hspans, quiet_semicolon ht]
    exact ih (k.stop k.outer) (hl.semicolon ht) hspans
  | advance ha s ih =>
    intro past held stack k hl hspans
    obtain ⟨stack', hl'⟩ := hl.advance ha
    obtain ⟨t, i, mid, rfl, hf⟩ := ha.split
    have ih := ih (k.advance ha hf) hl' hspans
    rwa [List.append_assoc] at ih
  | @found b h p t i rest kind r ds hf s ih =>
    -- the declaration is in the image no more, so the second run begins behind it
    intro past held stack k hl hspans
    obtain ⟨stack', hl'⟩ := hl.found hf
    obtain ⟨-, -, -, k'⟩ := k.found hf
    rw [k.image_found hf s hl' hspans]
    exact ih k' hl' hspans

end MinimumRelease.Recovery
