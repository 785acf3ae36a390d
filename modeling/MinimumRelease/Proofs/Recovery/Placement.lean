import MinimumRelease.Proofs.Recovery.Scan

/-! # Where the moved declarations stand

The declarations that move do not overlap, and stand in the order in which
they are listed. Each begins behind a separator, ends with a closing brace,
and moves to a closing brace behind it. The scanner keeps this up from token
to token (`Scanning`), and so all that it lists has it
(`ordered_destinationsOf`). -/

namespace MinimumRelease.Recovery

open Token

/-! ## Positions of tokens -/

theorem mem_codeTokens {ts : List Token} {t : Token} {i : Nat} :
    (t, i) ∈ codeTokens ts ↔ ts[i]? = some t ∧ t.isTrivia = false := by
  simp [codeTokens, List.mk_mem_zipIdx_iff_getElem?]

theorem pairwise_codeTokens (ts : List Token) : (codeTokens ts).Pairwise (·.2 < ·.2) := by
  apply List.Pairwise.filter
  have h : (ts.zipIdx.map Prod.snd).Pairwise (· < ·) := by
    rw [List.zipIdx_map_snd]
    exact List.pairwise_lt_range'
  exact List.pairwise_map.1 h

theorem lt_of_codeTokens {ts : List Token} {as bs : List Placed} {t : Token} {i : Nat}
    (h : codeTokens ts = as ++ (t, i) :: bs) :
    (∀ p ∈ as, p.2 < i) ∧ ∀ p ∈ bs, i < p.2 := by
  have hp := pairwise_codeTokens ts
  rw [h, List.pairwise_append, List.pairwise_cons] at hp
  exact ⟨fun p hm => hp.2.2 p hm (t, i) List.mem_cons_self, hp.2.1.1⟩

theorem get_of_codeTokens {ts : List Token} {as bs : List Placed} {t : Token} {i : Nat}
    (h : codeTokens ts = as ++ (t, i) :: bs) : ts[i]? = some t ∧ t.isTrivia = false := by
  apply mem_codeTokens.1
  rw [h]
  exact List.mem_append_right _ List.mem_cons_self

/-- Code right before a code token is the last code before it. -/
theorem getLast?_of_codeTokens {ts : List Token} {as bs : List Placed} {t u : Token} {i : Nat}
    (h : codeTokens ts = as ++ (t, i) :: bs) (hi : i ≠ 0) (hu : ts[i - 1]? = some u)
    (hcode : u.isTrivia = false) : as.getLast? = some (u, i - 1) := by
  have hmem : (u, i - 1) ∈ as := by
    have hm := mem_codeTokens.2 ⟨hu, hcode⟩
    rw [h] at hm
    rcases List.mem_append.1 hm with hm | hm
    · exact hm
    · rcases List.mem_cons.1 hm with hm | hm
      · have : i - 1 = i := congrArg Prod.snd hm
        omega
      · have : i < i - 1 := (lt_of_codeTokens h).2 _ hm
        omega
  rcases List.eq_nil_or_concat as with rfl | ⟨as', p, rfl⟩
  · cases hmem
  · rw [List.concat_eq_append] at *
    have hp : p.2 < i := (lt_of_codeTokens h).1 p (by simp)
    rcases List.mem_append.1 hmem with hm | hm
    · rw [List.append_assoc] at h
      have : i - 1 < p.2 := (lt_of_codeTokens h).1 _ hm
      omega
    · have hup : (u, i - 1) = p := by simpa using hm
      simp [hup]

theorem getElem?_of_getLast?_take {ts : List Token} {i : Nat} {u : Token} (hi : i ≤ ts.length)
    (hu : (ts.take i).getLast? = some u) : i ≠ 0 ∧ ts[i - 1]? = some u := by
  have hi0 : i ≠ 0 := by
    rintro rfl
    simp at hu
  refine ⟨hi0, ?_⟩
  have hlt : i - 1 < ts.length := by omega
  rw [List.getLast?_take, if_neg hi0] at hu
  rw [List.getElem?_eq_getElem hlt] at hu ⊢
  simpa using hu

/-- Nothing but trivia stands between a code token and the one before it. -/
theorem separates_before {ts : List Token} {as bs : List Placed} {t : Token} {i : Nat}
    (h : codeTokens ts = as ++ (t, i) :: bs) (has : ∀ p, as.getLast? = some p → p.1.stops = true)
    (u : Token) (hu : (ts.take i).getLast? = some u) : u.separates = true := by
  have hi : i < ts.length := (List.getElem?_eq_some_iff.1 (get_of_codeTokens h).1).1
  obtain ⟨hi0, hget⟩ := getElem?_of_getLast?_take (Nat.le_of_lt hi) hu
  cases htr : u.isTrivia with
  | true => simp [Token.separates, htr]
  | false =>
    have hs := has _ (getLast?_of_codeTokens h hi0 hget htr)
    simp [Token.separates, hs]

/-! ## Declarations in order -/

/-- A declaration may begin here: there is code, behind a separator or at the start. -/
structure StartsAt (ts : List Token) (i : Nat) : Prop where
  code : ∃ t, ts[i]? = some t ∧ t.isTrivia = false
  separated : ∀ t, (ts.take i).getLast? = some t → t.separates = true

/-- A closing brace stands here. -/
def ClosesAt (ts : List Token) (i : Nat) : Prop := ∃ t, ts[i]? = some t ∧ t.mark? = some '}'

/-- The moves lie one behind the other from position `lo` up to `hi`. -/
def Spaced (ts : List Token) (lo : Nat) : List Move → Nat → Prop
  | [], hi => lo ≤ hi
  | m :: ms, hi => lo ≤ m.start ∧ StartsAt ts m.start ∧ m.start < m.stop ∧
      ClosesAt ts (m.stop - 1) ∧ Spaced ts m.stop ms hi

/-- The destinations lie one behind the other from position `lo` on, each behind its own moves. -/
def Ordered (ts : List Token) (lo : Nat) : List Destination → Prop
  | [] => True
  | d :: ds => Spaced ts lo d.moves d.brace ∧ ClosesAt ts d.brace ∧ Ordered ts (d.brace + 1) ds

theorem Spaced.le {ts : List Token} {ms : List Move} {lo hi : Nat} (h : Spaced ts lo ms hi) :
    lo ≤ hi := by
  induction ms generalizing lo with
  | nil => exact h
  | cons m ms ih =>
    obtain ⟨h1, -, h2, -, h3⟩ := h
    have := ih h3
    omega

theorem Spaced.mono {ts : List Token} {ms : List Move} {lo hi hi' : Nat} (h : Spaced ts lo ms hi)
    (hle : hi ≤ hi') : Spaced ts lo ms hi' := by
  induction ms generalizing lo with
  | nil => exact Nat.le_trans h hle
  | cons m ms ih =>
    obtain ⟨h1, hs, h2, hc, h3⟩ := h
    exact ⟨h1, hs, h2, hc, ih h3⟩

theorem Spaced.concat {ts : List Token} {ms : List Move} {m : Move} {lo hi : Nat}
    (h : Spaced ts lo ms hi) (hm : hi ≤ m.start) (hs : StartsAt ts m.start)
    (hlt : m.start < m.stop) (hc : ClosesAt ts (m.stop - 1)) :
    Spaced ts lo (ms ++ [m]) m.stop := by
  induction ms generalizing lo with
  | nil => exact ⟨Nat.le_trans h hm, hs, hlt, hc, Nat.le_refl _⟩
  | cons a ms ih =>
    obtain ⟨h1, hs1, h2, hc1, h3⟩ := h
    exact ⟨h1, hs1, h2, hc1, ih h3⟩

/-! ## What the scanner keeps up -/

/-- The scanner has `rest` before it and `header` behind it. The last move ended before `lo`. -/
structure Scanning (ts : List Token) (lo : Nat) (header : Header) (rest : List Placed) : Prop where
  /-- The tokens that were read, the last of which opens a statement if the header is empty. -/
  read : ∃ done, codeTokens ts = done ++ rest ∧
    (header.first = none → ∀ p, done.getLast? = some p → p.1.stops = true)
  first : ∀ i, header.first = some i → StartsAt ts i ∧ lo ≤ i ∧ ∀ p ∈ rest, i < p.2
  ahead : ∀ p ∈ rest, lo ≤ p.2

theorem Scanning.get {ts : List Token} {lo : Nat} {header : Header} {bs : List Placed}
    {t : Token} {i : Nat} (as : List Placed) (h : Scanning ts lo header (as ++ (t, i) :: bs)) :
    ts[i]? = some t ∧ t.isTrivia = false := by
  obtain ⟨done, hd, -⟩ := h.read
  rw [← List.append_assoc] at hd
  exact get_of_codeTokens hd

theorem Scanning.lt {ts : List Token} {lo : Nat} {header : Header} {bs : List Placed}
    {t : Token} {i : Nat} (as : List Placed) (h : Scanning ts lo header (as ++ (t, i) :: bs)) :
    (∀ p ∈ as, p.2 < i) ∧ ∀ p ∈ bs, i < p.2 := by
  obtain ⟨done, hd, -⟩ := h.read
  rw [← List.append_assoc] at hd
  have hlt := lt_of_codeTokens hd
  exact ⟨fun p hp => hlt.1 p (List.mem_append_right _ hp), hlt.2⟩

/-- The header of the next token begins at the token, if it did not begin before. -/
theorem Scanning.startsAt {ts : List Token} {lo : Nat} {header : Header} {rest : List Placed}
    {t : Token} {i : Nat} (h : Scanning ts lo header ((t, i) :: rest)) :
    StartsAt ts (header.first.getD i) ∧ lo ≤ header.first.getD i ∧ header.first.getD i ≤ i := by
  obtain ⟨done, hd, hstop⟩ := h.read
  cases hf : header.first with
  | none =>
    exact ⟨⟨⟨t, get_of_codeTokens hd⟩, separates_before hd (hstop hf)⟩,
      h.ahead _ List.mem_cons_self, Nat.le_refl _⟩
  | some j =>
    obtain ⟨hs, hlo, hlt⟩ := h.first j hf
    exact ⟨hs, hlo, Nat.le_of_lt (hlt _ List.mem_cons_self)⟩

/-- Reading tokens into the header. -/
theorem Scanning.advance {ts : List Token} {lo : Nat} {header header' : Header}
    {rest : List Placed} {t : Token} {i : Nat} (mid : List Placed)
    (h : Scanning ts lo header ((t, i) :: mid ++ rest))
    (hf : header'.first = some (header.first.getD i)) : Scanning ts lo header' rest := by
  obtain ⟨hs, hlo, hle⟩ := h.startsAt
  obtain ⟨done, hd, -⟩ := h.read
  refine ⟨⟨done ++ (t, i) :: mid, by simpa using hd, by simp [hf]⟩, ?_, ?_⟩
  · intro j hj
    rw [hf, Option.some.injEq] at hj
    subst hj
    refine ⟨hs, hlo, fun p hp => ?_⟩
    have := (lt_of_codeTokens hd).2 p (List.mem_append_right _ hp)
    omega
  · exact fun p hp => h.ahead p (List.mem_append_right _ hp)

/-- Reading a semicolon or a brace, behind which a new header begins. -/
theorem Scanning.reset {ts : List Token} {lo lo' : Nat} {header : Header} {rest : List Placed}
    {t : Token} {i : Nat} (mid : List Placed) (h : Scanning ts lo header (mid ++ (t, i) :: rest))
    (ht : t.stops = true) (hlo : lo' ≤ i + 1) : Scanning ts lo' {} rest := by
  obtain ⟨done, hd, -⟩ := h.read
  refine ⟨⟨done ++ mid ++ [(t, i)], by simpa using hd, ?_⟩, by simp, ?_⟩
  · intro _ p hp
    rw [List.getLast?_append, List.getLast?_singleton, Option.some_or, Option.some.injEq] at hp
    rw [← hp]
    exact ht
  · intro p hp
    have := (h.lt mid).2 p hp
    omega

/-- **Everything that the scanner lists is in order**, the moves that are pending included. -/
theorem Scan.ordered {ts : List Token} {b h p rest ds} (s : Scan b h p rest ds) :
    ∀ {lo lo' : Nat}, Scanning ts lo' h rest → Spaced ts lo p lo' → Ordered ts lo ds := by
  induction s with
  | nil =>
    intro lo lo' _ _
    trivial
  | opening ht _ ih =>
    intro lo lo' hs hp
    have hi := hs.ahead _ List.mem_cons_self
    exact ih (hs.reset [] (stops_of_mark ht (by simp)) (by omega)) hp
  | stray ht _ ih =>
    intro lo lo' hs hp
    have hi := hs.ahead _ List.mem_cons_self
    exact ih (hs.reset [] (stops_of_mark ht (by simp)) (by omega)) hp
  | @outermost a h p t i rest ds ht _ ih =>
    -- what is pending moves here
    intro lo lo' hs hp
    have hi := hs.ahead _ List.mem_cons_self
    refine ⟨hp.mono hi, ⟨t, (hs.get []).1, ht⟩, ?_⟩
    exact ih (hs.reset [] (stops_of_mark ht (by simp)) (Nat.le_refl _)) (Nat.le_refl _)
  | inner ht _ ih =>
    intro lo lo' hs hp
    have hi := hs.ahead _ List.mem_cons_self
    exact ih (hs.reset [] (stops_of_mark ht (by simp)) (by omega)) hp
  | semicolon ht _ ih =>
    intro lo lo' hs hp
    have hi := hs.ahead _ List.mem_cons_self
    exact ih (hs.reset [] (stops_of_mark ht (by simp)) (by omega)) hp
  | advance ha _ ih =>
    intro lo lo' hs hp
    obtain ⟨t, i, mid, rfl, hf⟩ := ha.split
    exact ih (hs.advance mid hf) hp
  | @found b h p t i rest kind r ds hf _ ih =>
    intro lo lo' hs hp
    obtain ⟨-, -, -, hr⟩ := localDeclaration?_eq_some hf
    obtain ⟨w, j, mid, o, k, inner, e, n, rfl, -, -, -, he, hstop, -⟩ := recognise?_eq_some hr
    obtain ⟨hstart, hlo, hle⟩ := hs.startsAt
    rw [← List.cons_append, ← List.cons_append] at hs
    have hn : i < n := (hs.lt _).1 (t, i) (by simp)
    apply ih (hs.reset _ (stops_of_mark he (by simp)) (Nat.le_of_eq hstop))
    refine hp.concat hlo hstart ?_ ⟨e, ?_, he⟩
    · show h.first.getD i < r.stop
      omega
    · show ts[r.stop - 1]? = some e
      rw [hstop]
      exact (hs.get _).1

theorem ordered_destinationsOf (ts : List Token) : Ordered ts 0 (destinationsOf ts) :=
  (scan_destinations [] {} [] (codeTokens ts)).ordered ⟨⟨[], rfl, by simp⟩, by simp, by simp⟩
    (Nat.le_refl 0)

end MinimumRelease.Recovery
