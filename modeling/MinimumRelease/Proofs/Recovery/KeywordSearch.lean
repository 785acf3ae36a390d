import MinimumRelease.Proofs.Recovery.Places

/-! # The search for keywords

The search finds what looks like a statement, leftmost first, and goes on behind
the first character of its operand. With that character the next place may begin,
and is then passed over: the search finds what nothing found abuts
(`Search.mem_iff`). So in a row of places of which each abuts the next, every
second one is found (`InRow.mem_iff`). -/

namespace MinimumRelease.Recovery

open Text (byteLength isBlank)

/-! ## One step of the search -/

theorem proposalAt?_eq_some_iff {start : Nat} {cs : List Char} {q : Proposal} :
    proposalAt? start cs = some q ↔ ∃ p : Place, p.text = cs ∧
      (∀ c ∈ p.before, isBlank c = true) ∧ p.Fits ∧ p.proposal start = q := by
  constructor
  · intro h
    unfold proposalAt? at h
    split at h
    · cases h
    · next gap hgap =>
      split at h
      · next b bs c rest hblank hrest =>
        split at h
        · cases h
        · next hc =>
          cases h
          simp only [Bool.or_eq_true, decide_eq_true_eq, not_or] at hc
          have hcs : cs.dropWhile isBlank = yieldKeyword ++ gap := Text.after?_eq_some_iff.1 hgap
          refine ⟨⟨cs.takeWhile isBlank, gap⟩, ?_, fun c hc => List.mem_takeWhile_imp hc,
            ⟨?_, c, rest, hrest, hc⟩, ?_⟩
          · rw [Place.text, List.append_assoc, ← hcs, List.takeWhile_append_dropWhile]
          · simp [Place.gap, hblank]
          · simp [Place.proposal, Place.offset, Place.operand, hrest]
      · cases h
  · rintro ⟨p, rfl, hblank, ⟨hgap, c, rest, hoperand, hc⟩, rfl⟩
    have hy : isBlank 'y' = false := by decide
    have hdrop : p.text.dropWhile isBlank = yieldKeyword ++ p.after := by
      rw [Place.text, List.append_assoc, List.dropWhile_append_of_pos hblank]
      simp [yieldKeyword, hy]
    have htake : p.text.takeWhile isBlank = p.before := by
      rw [Place.text, List.append_assoc, List.takeWhile_append_of_pos hblank]
      simp [yieldKeyword, hy]
    obtain ⟨b, bs, hb⟩ := List.exists_cons_of_ne_nil hgap
    have htakeGap : p.after.takeWhile isBlank = b :: bs := hb
    have hdropGap : p.after.dropWhile isBlank = c :: rest := hoperand
    have hneither : (decide (c = '=') || decide (c = '.')) = false := by simp [hc]
    unfold proposalAt?
    rw [hdrop, htake, Text.after?_eq_some_iff.2 rfl]
    simp only [htakeGap, hdropGap, hneither, Bool.false_eq_true, if_false]
    simp [Place.proposal, Place.offset, hoperand]

theorem Place.head_of_blank {p : Place} {c : Char} {cs : List Char} (h : p.text = c :: cs)
    (hblank : ∀ x ∈ p.before, isBlank x = true) : isBlank c = true ∨ c = 'y' := by
  obtain ⟨before, after⟩ := p
  cases before with
  | nil => exact .inr (List.cons.inj h).1.symm
  | cons b before =>
    obtain ⟨rfl, -⟩ := List.cons.inj h
    exact .inl (hblank b List.mem_cons_self)

theorem proposalHere?_eq_some_iff {fresh : Bool} {start : Nat} {c : Char} {cs : List Char}
    {q : Proposal} : proposalHere? fresh start c cs = some q ↔
      ∃ p : Place, p.text = c :: cs ∧ p.Starts fresh ∧ p.Fits ∧ p.proposal start = q := by
  have hsize : c ∈ statementMarks → c.utf8Size = 1 := by
    simp only [statementMarks, List.mem_cons, List.not_mem_nil, or_false]
    rintro (rfl | rfl | rfl | rfl) <;> rfl
  constructor
  · intro h
    unfold proposalHere? at h
    split at h
    · next p hp =>
      cases h
      split at hp
      · next hfresh =>
        obtain ⟨p, htext, hblank, hfits, hq⟩ := proposalAt?_eq_some_iff.1 hp
        exact ⟨p, htext, .inl ⟨hfresh, hblank⟩, hfits, hq⟩
      · cases hp
    · split at h
      · next hmark =>
        obtain ⟨p, rfl, hblank, hfits, rfl⟩ := proposalAt?_eq_some_iff.1 h
        refine ⟨p.behind [c], p.text_behind [c], .inr ⟨c, p.before, rfl, hmark, hblank⟩, hfits, ?_⟩
        rw [Place.proposal_behind, Text.byteLength_cons, hsize hmark]
        rfl
      · cases h
  · rintro ⟨p, htext, hstarts, hfits, rfl⟩
    unfold proposalHere?
    rcases hstarts with ⟨rfl, hblank⟩ | ⟨mark, blanks, hbefore, hmark, hblank⟩
    · have hat : proposalAt? start (c :: cs) = some (p.proposal start) :=
        proposalAt?_eq_some_iff.2 ⟨p, htext, hblank, hfits, rfl⟩
      simp only [if_true, hat]
    · obtain ⟨before, after⟩ := p
      subst hbefore
      obtain ⟨rfl, hcs⟩ := List.cons.inj htext
      -- neither blanks nor the keyword begin with a mark
      have hnone : (if fresh = true then proposalAt? start (mark :: cs) else none) = none := by
        split
        · cases hat : proposalAt? start (mark :: cs) with
          | none => rfl
          | some q =>
            obtain ⟨p, hp, hb, -⟩ := proposalAt?_eq_some_iff.1 hat
            rcases p.head_of_blank hp hb with hblank | rfl
            · rw [isBlank_of_mem_statementMarks hmark] at hblank
              cases hblank
            · exact absurd hmark (by decide)
        · rfl
      have hat : proposalAt? (start + 1) cs = some (Place.proposal (start + 1) ⟨blanks, after⟩) :=
        proposalAt?_eq_some_iff.2 ⟨⟨blanks, after⟩, hcs, hblank, hfits, rfl⟩
      rw [hnone]
      show (if mark ∈ statementMarks then proposalAt? (start + 1) cs else none) = _
      rw [if_pos hmark, hat, ← hsize hmark]
      simp [Place.proposal, Place.offset, Place.operand, Nat.add_assoc]

/-- Where nothing is found, all that the search would find is ahead. -/
theorem Place.Looks.of_none {fresh : Bool} {start : Nat} {c : Char} {cs : List Char} {p : Place}
    (h : p.Looks fresh) (htext : p.text = c :: cs) (hnone : proposalHere? fresh start c cs = none) :
    ∃ p' : Place, p = p'.behind [c] ∧ p'.text = cs ∧ p'.Looks (c = '\n') := by
  have hstarts : ¬ p.Starts fresh := by
    intro hs
    have hsome : proposalHere? fresh start c cs = some (p.proposal start) :=
      proposalHere?_eq_some_iff.2 ⟨p, htext, hs, h.2, rfl⟩
    rw [hnone] at hsome
    cases hsome
  obtain ⟨before, after⟩ := p
  obtain ⟨hahead, hfits⟩ := h
  cases before with
  | nil => exact absurd (.inl ⟨hahead, by simp⟩) hstarts
  | cons b blanks =>
    obtain ⟨rfl, hcs⟩ := List.cons.inj htext
    refine ⟨⟨blanks, after⟩, rfl, hcs, ?_, hfits⟩
    rw [statementAhead_cons, statementAhead_eq_true] at hahead
    rw [statementAhead_eq_true]
    rcases hahead with hahead | ⟨hb, hblank⟩
    · exact .inl hahead
    · -- a place that nothing but blanks lead to would have been found here
      simp only [Bool.or_eq_true, Bool.and_eq_true, decide_eq_true_eq] at hb
      rcases hb with (hb | hb) | ⟨hfresh, hb⟩
      · exact .inr ⟨decide_eq_true hb, hblank⟩
      · exact absurd (.inr ⟨b, blanks, rfl, hb, hblank⟩) hstarts
      · exact absurd (.inl ⟨hfresh, List.forall_mem_cons.2 ⟨hb, hblank⟩⟩) hstarts

/-- What the search passes over when it finds `p`: all up to the first character of the operand. -/
def Place.passed (p : Place) (c : Char) : List Char := p.before ++ yieldKeyword ++ p.gap ++ [c]

theorem Place.text_eq_passed {p : Place} {c : Char} {rest : List Char}
    (h : p.operand = c :: rest) : p.text = p.passed c ++ rest := by
  rw [Place.text, ← p.gap_append_operand, h]
  simp [Place.passed]

theorem Place.statementAhead_passed {fresh : Bool} {p : Place} {c : Char} (h : isBlank c = false) :
    statementAhead fresh (p.passed c) = decide (c ∈ statementMarks) := by
  have hfeed : c ≠ '\n' := by
    rintro rfl
    cases h
  simp [Place.passed, statementAhead_append, h, hfeed]

/-- Where a place is found, what else the search would find abuts it or is ahead. -/
theorem Place.Looks.of_some {fresh : Bool} {p y : Place} {c : Char} {rest : List Char}
    (h : p.Looks fresh) (hy : y.Starts fresh) (htext : p.text = y.text)
    (hoperand : y.operand = c :: rest) : p = y ∨ y.Abuts p ∨
      ∃ p' : Place, p = p'.behind (y.passed c) ∧ p'.text = rest ∧ p'.Looks false := by
  have hc := Place.not_isBlank_operand hoperand
  rcases Place.order htext with rfl | ⟨t, ht, -⟩ | ⟨t, ht, hafter⟩
  · exact .inl rfl
  · -- no keyword is among the blanks that lead to `y`
    have hmem : 'y' ∈ y.before := by
      rw [ht]
      simp [yieldKeyword]
    have hblank : isBlank 'y' = true ∨ 'y' ∈ statementMarks := by
      rcases hy with ⟨-, hy⟩ | ⟨mark, blanks, hb, hmark, hy⟩
      · exact .inl (hy _ hmem)
      · rw [hb] at hmem
        rcases List.mem_cons.1 hmem with rfl | hmem
        · exact .inr hmark
        · exact .inl (hy _ hmem)
    exact absurd hblank (by decide)
  · have hgap : 'y' ∉ y.gap := fun hmem => absurd (Place.isBlank_of_mem_gap hmem) (by decide)
    have hsplit : t ++ 'y' :: ("ield".toList ++ p.after) = y.gap ++ y.operand := by
      rw [y.gap_append_operand, hafter, List.append_assoc]
      rfl
    obtain ⟨next, rfl, hnext⟩ := append_cons_eq_append hsplit hgap
    cases next with
    | nil => exact .inr (.inl ⟨[], by rw [ht]; simp, .inl rfl⟩)
    | cons d next =>
      rw [hoperand] at hnext
      obtain ⟨rfl, rfl⟩ := List.cons.inj hnext
      obtain ⟨before, after⟩ := p
      have hbefore : before = y.passed c ++ next := by
        rw [show before = _ from ht]
        simp [Place.passed]
      obtain ⟨hahead, hfits⟩ := h
      simp only [hbefore, statementAhead_append, Place.statementAhead_passed hc] at hahead
      cases hfalse : statementAhead false next with
      | true =>
        refine .inr (.inr ⟨⟨next, after⟩, by rw [hbefore]; rfl, ?_, hfalse, hfits⟩)
        rw [Place.text, List.append_assoc]
        rfl
      | false =>
        rw [statementAhead_eq_true, hfalse] at hahead
        obtain ⟨hmark, hblank⟩ := hahead.resolve_left (by simp)
        have hfeed : '\n' ∉ next := by
          rw [← statementAhead_of_blank hblank, hfalse]
          simp
        refine .inr (.inl ⟨c :: next, by rw [ht]; simp, .inr ⟨c, next, rfl, ?_, fun d hd => ?_⟩⟩)
        · simpa using hmark
        · exact ⟨hblank d hd, fun he => hfeed (he ▸ hd)⟩

/-! ## The whole search -/

theorem proposals_skip (fresh : Bool) (start : Nat) (as bs : List Char) (c : Char) :
    proposals fresh start (as.length + 1) (as ++ c :: bs) =
      proposals (c = '\n') (start + byteLength (as ++ [c])) 0 bs := by
  induction as generalizing fresh start with
  | nil => rfl
  | cons a as ih =>
    show proposals (a = '\n') (start + a.utf8Size) (as.length + 1) (as ++ c :: bs) = _
    rw [ih, List.cons_append, Text.byteLength_cons, Nat.add_assoc]

theorem proposals_of_none {fresh : Bool} {start : Nat} {c : Char} {cs : List Char}
    (h : proposalHere? fresh start c cs = none) :
    proposals fresh start 0 (c :: cs) = proposals (c = '\n') (start + c.utf8Size) 0 cs := by
  rw [proposals, h]

theorem proposals_of_some {fresh : Bool} {start : Nat} {c d : Char} {cs rest : List Char}
    {p : Place} (h : proposalHere? fresh start c cs = some (p.proposal start))
    (htext : p.text = c :: cs) (hoperand : p.operand = d :: rest) :
    proposals fresh start 0 (c :: cs) = p.proposal start ::
      proposals false (start + byteLength (p.passed d)) 0 rest := by
  have hd : d ≠ '\n' := by
    rintro rfl
    exact absurd (Place.not_isBlank_operand hoperand) (by decide)
  have hpassed : p.passed d ++ rest = c :: cs := by rw [← Place.text_eq_passed hoperand, htext]
  -- the first character is passed over at once, and with it at least the keyword
  obtain ⟨as, has⟩ : ∃ as, p.passed d = c :: (as ++ [d]) := by
    obtain ⟨before, after⟩ := p
    cases before with
    | nil =>
      obtain ⟨rfl, -⟩ := List.cons.inj hpassed
      exact ⟨_, rfl⟩
    | cons b before =>
      obtain ⟨rfl, -⟩ := List.cons.inj hpassed
      exact ⟨_, rfl⟩
  rw [has, List.cons_append, List.append_assoc, List.singleton_append] at hpassed
  obtain ⟨-, rfl⟩ := List.cons.inj hpassed
  have hlen : (as ++ d :: rest).length + 1 - (p.proposal start).operand.length =
      as.length + 1 := by
    show (as ++ d :: rest).length + 1 - p.operand.length = _
    rw [hoperand]
    simp only [List.length_append, List.length_cons]
    omega
  rw [proposals, h]
  simp only [hlen, proposals_skip, hd, decide_false]
  rw [has, Text.byteLength_cons, Nat.add_assoc]

/-- A run of the search and what it finds. -/
inductive Search : Bool → Nat → List Char → List Proposal → Prop
  | nil {fresh start} : Search fresh start [] []
  | pass {fresh start c cs ps} : proposalHere? fresh start c cs = none →
      Search (c = '\n') (start + byteLength [c]) cs ps → Search fresh start (c :: cs) ps
  | found {fresh start ps c rest} {p : Place} : p.Starts fresh → p.Fits → p.operand = c :: rest →
      Search false (start + byteLength (p.passed c)) rest ps →
      Search fresh start p.text (p.proposal start :: ps)

theorem search_proposals (fresh : Bool) (start : Nat) (cs : List Char) :
    Search fresh start cs (proposals fresh start 0 cs) := by
  induction hlen : cs.length using Nat.strongRecOn generalizing fresh start cs with
  | ind k ih =>
    subst hlen
    cases cs with
    | nil => exact .nil
    | cons c cs =>
      cases hhere : proposalHere? fresh start c cs with
      | none =>
        rw [proposals_of_none hhere]
        exact .pass hhere (ih _ (Nat.lt_succ_self _) _ _ cs rfl)
      | some q =>
        obtain ⟨p, htext, hstarts, hfits, rfl⟩ := proposalHere?_eq_some_iff.1 hhere
        obtain ⟨d, rest, hoperand, -⟩ := hfits.2
        have hlt : rest.length < (c :: cs).length := by
          rw [← htext, Place.text_eq_passed hoperand, List.length_append, Place.passed]
          simp only [List.length_append, List.length_cons]
          omega
        rw [proposals_of_some hhere htext hoperand, ← htext]
        exact .found hstarts hfits hoperand (ih _ hlt _ _ rest rfl)

theorem Place.Looks.behind {fresh fresh' : Bool} {p : Place} {as : List Char}
    (h : p.Looks fresh') (himp : fresh' = true → statementAhead fresh as = true) :
    (p.behind as).Looks fresh := by
  refine ⟨?_, h.2⟩
  have hahead := h.1
  rw [statementAhead_eq_true] at hahead
  show statementAhead fresh (as ++ p.before) = true
  rw [statementAhead_append, statementAhead_eq_true]
  exact hahead.imp_right fun hb => ⟨himp hb.1, hb.2⟩

namespace Search

variable {fresh : Bool} {start : Nat} {cs : List Char} {ps : List Proposal}

/-- All that is found looks like a statement. -/
theorem looks (s : Search fresh start cs ps) {q : Proposal} (hq : q ∈ ps) :
    ∃ p : Place, p.text = cs ∧ p.Looks fresh ∧ p.proposal start = q := by
  induction s with
  | nil => cases hq
  | @pass fresh start c cs ps hnone _ ih =>
    obtain ⟨p, rfl, hlooks, rfl⟩ := ih hq
    refine ⟨p.behind [c], p.text_behind [c], hlooks.behind fun hc => ?_, p.proposal_behind _ _⟩
    simp only [decide_eq_true_eq] at hc
    simp [hc]
  | @found fresh start ps c rest y hstarts hfits hoperand _ ih =>
    rcases List.mem_cons.1 hq with rfl | hq
    · exact ⟨y, rfl, ⟨hstarts.statementAhead, hfits⟩, rfl⟩
    · obtain ⟨p, rfl, hlooks, rfl⟩ := ih hq
      refine ⟨p.behind (y.passed c), ?_, hlooks.behind (by simp), p.proposal_behind _ _⟩
      rw [p.text_behind, Place.text_eq_passed hoperand]

/-- What is found behind `as` stands behind `as`. -/
theorem ahead {as : List Char} (s : Search fresh (start + byteLength as) cs ps) {p : Place}
    (htext : p.text = as ++ cs) (hp : p.proposal start ∈ ps) :
    ∃ p' : Place, p = p'.behind as ∧ p'.text = cs ∧ p'.Looks fresh := by
  obtain ⟨p', rfl, hlooks, hproposal⟩ := s.looks hp
  refine ⟨p', Place.eq_of_offset (by rw [htext, p'.text_behind]) ?_, rfl, hlooks⟩
  have hoffset := congrArg Proposal.offset hproposal
  simp only [Place.proposal, Nat.add_assoc] at hoffset
  rw [Nat.add_left_cancel hoffset.symm]
  simp [Place.behind, Place.offset]

end Search

namespace Place

variable {p q : Place}

theorem Abuts.offset_lt (h : p.Abuts q) : p.offset < q.offset := by
  obtain ⟨next, hq, -⟩ := h
  have hfive : byteLength yieldKeyword = 5 := rfl
  rw [offset, offset, hq]
  simp only [Text.byteLength_append, hfive]
  omega

theorem offset_lt_passed (c : Char) : p.offset < byteLength (p.passed c) := by
  have hfive : byteLength yieldKeyword = 5 := rfl
  rw [offset, passed]
  simp only [Text.byteLength_append, hfive]
  omega

theorem le_offset_behind (as : List Char) : byteLength as ≤ (p.behind as).offset := by
  simp [offset, behind]

/-- What the search still finds behind a place does not abut it. -/
theorem not_abuts_behind {c : Char} (h : q.Looks false) : ¬ p.Abuts (q.behind (p.passed c)) := by
  rintro ⟨next, hq, hnext⟩
  have hsplit : c :: q.before = next := by
    simpa [behind, passed] using hq
  subst hsplit
  obtain hnil | ⟨mark, blanks, hmark, -, hblank⟩ := hnext
  · cases hnil
  · cases hmark
    have hfeed := (statementAhead_of_blank fun c hc => (hblank c hc).1).1 h.1
    exact (hblank _ hfeed).2 rfl

end Place

/-- **The search finds what nothing found abuts.** -/
theorem Search.mem_iff {fresh : Bool} {start : Nat} {cs : List Char} {ps : List Proposal}
    (s : Search fresh start cs ps) {p : Place} (htext : p.text = cs) (hlooks : p.Looks fresh) :
    p.proposal start ∈ ps ↔
      ∀ y : Place, y.text = cs → y.proposal start ∈ ps → ¬ y.Abuts p := by
  induction s generalizing p with
  | nil =>
    have hlen := congrArg List.length htext
    simp [Place.text, yieldKeyword] at hlen
  | @pass fresh start c cs ps hnone s ih =>
    obtain ⟨p, rfl, hp, hlooks⟩ := hlooks.of_none htext hnone
    rw [p.proposal_behind, ih hp hlooks]
    constructor
    · intro h y hy hmem habuts
      obtain ⟨y, rfl, hy, -⟩ := s.ahead hy hmem
      rw [y.proposal_behind] at hmem
      exact h y hy hmem (Place.abuts_behind.1 habuts)
    · intro h y hy hmem habuts
      refine h (y.behind [c]) (by rw [y.text_behind, hy]; rfl) ?_ (Place.abuts_behind.2 habuts)
      rwa [y.proposal_behind]
  | @found fresh start ps c rest f hstarts hfits hoperand s ih =>
    have hsplit := Place.text_eq_passed hoperand
    -- what is found later stands behind `f`
    have hlater : ∀ {y : Place}, y.text = f.text → y.proposal start ∈ ps →
        f.offset < y.offset := by
      intro y hy hmem
      obtain ⟨y, rfl, -⟩ := s.ahead (hy.trans hsplit) hmem
      exact Nat.lt_of_lt_of_le (f.offset_lt_passed c) (y.le_offset_behind _)
    have hsame : ∀ {y : Place}, y.proposal start = f.proposal start → y.offset = f.offset :=
      fun he => Nat.add_left_cancel (congrArg Proposal.offset he)
    rcases hlooks.of_some hstarts htext hoperand with rfl | habuts | ⟨p, rfl, hp, hlooks⟩
    · refine iff_of_true List.mem_cons_self fun y hy hmem habuts => ?_
      have hlt := habuts.offset_lt
      rcases List.mem_cons.1 hmem with he | hmem
      · have := hsame he
        omega
      · have := hlater hy hmem
        omega
    · refine iff_of_false (fun hmem => ?_) fun h => h f rfl List.mem_cons_self habuts
      rcases List.mem_cons.1 hmem with he | hmem
      · have := hsame he
        have := habuts.offset_lt
        omega
      · obtain ⟨p, rfl, -, hlooks⟩ := s.ahead (htext.trans hsplit) hmem
        exact Place.not_abuts_behind hlooks habuts
    · have hne : (p.behind (f.passed c)).proposal start ≠ f.proposal start := by
        intro he
        have := hsame he
        have := f.offset_lt_passed c
        have := p.le_offset_behind (f.passed c)
        omega
      rw [List.mem_cons, or_iff_right hne, p.proposal_behind, ih hp hlooks]
      constructor
      · intro h y hy hmem habuts
        rcases List.mem_cons.1 hmem with he | hmem
        · rw [Place.eq_of_offset hy (hsame he)] at habuts
          exact Place.not_abuts_behind hlooks habuts
        · obtain ⟨y, rfl, hy, -⟩ := s.ahead (hy.trans hsplit) hmem
          rw [y.proposal_behind] at hmem
          exact h y hy hmem (Place.abuts_behind.1 habuts)
      · intro h y hy hmem habuts
        refine h (y.behind (f.passed c)) (by rw [y.text_behind, hy, hsplit])
          (List.mem_cons_of_mem _ ?_) (Place.abuts_behind.2 habuts)
        rwa [y.proposal_behind]

/-! ## Places in a row -/

/-- In a row of places of which each abuts the next, the place has `k` others before it. -/
inductive InRow (cs : List Char) : Nat → Place → Prop
  | first {p : Place} : p.text = cs → p.Looks true →
      (∀ y : Place, y.text = cs → y.Looks true → ¬ y.Abuts p) → InRow cs 0 p
  | next {k} {y p : Place} : InRow cs k y → p.text = cs → p.Looks true → y.Abuts p →
      InRow cs (k + 1) p

/-- There is no further keyword between two places that abut. -/
theorem Place.Abuts.no_keyword {p q : Place} (h : p.Abuts q) {t u : List Char} :
    q.before ≠ p.before ++ yieldKeyword ++ (t ++ yieldKeyword ++ u) := by
  obtain ⟨next, hq, hnext⟩ := h
  intro he
  rw [hq, List.append_assoc, List.append_cancel_left_eq] at he
  have hmem : 'y' ∈ p.gap ++ next := by
    rw [he]
    simp [yieldKeyword]
  rcases List.mem_append.1 hmem with hmem | hmem
  · exact absurd (Place.isBlank_of_mem_gap hmem) (by decide)
  · obtain rfl | ⟨mark, blanks, rfl, hmark, hblank⟩ := hnext
    · cases hmem
    · rcases List.mem_cons.1 hmem with rfl | hmem
      · exact absurd hmark (by decide)
      · exact absurd (hblank _ hmem).1 (by decide)

theorem Place.Abuts.unique {y y' p : Place} (h : y.Abuts p) (h' : y'.Abuts p)
    (htext : y.text = y'.text) : y = y' := by
  have ⟨next, hp, _⟩ := h
  have ⟨next', hp', _⟩ := h'
  rcases Place.order htext with he | ⟨t, ht, -⟩ | ⟨t, ht, -⟩
  · exact he
  · refine absurd ?_ (h.no_keyword (t := t) (u := y'.gap ++ next'))
    rw [hp', ht]
    simp
  · refine absurd ?_ (h'.no_keyword (t := t) (u := y.gap ++ next))
    rw [hp, ht]
    simp

namespace InRow

variable {cs : List Char} {k : Nat} {p : Place}

theorem text (h : InRow cs k p) : p.text = cs := by
  cases h with
  | first htext => exact htext
  | next _ htext => exact htext

theorem looks (h : InRow cs k p) : p.Looks true := by
  cases h with
  | first _ hlooks => exact hlooks
  | next _ _ hlooks => exact hlooks

theorem exists_of_looks (htext : p.text = cs) (hlooks : p.Looks true) : ∃ k, InRow cs k p := by
  induction hn : p.offset using Nat.strongRecOn generalizing p with
  | ind n ih =>
    by_cases hprev : ∃ y : Place, y.text = cs ∧ y.Looks true ∧ y.Abuts p
    · obtain ⟨y, hy, hylooks, habuts⟩ := hprev
      obtain ⟨k, hk⟩ := ih y.offset (hn ▸ habuts.offset_lt) hy hylooks rfl
      exact ⟨k + 1, .next hk htext hlooks habuts⟩
    · exact ⟨0, .first htext hlooks fun y hy hylooks habuts => hprev ⟨y, hy, hylooks, habuts⟩⟩

/-- **Every second place of a row is found.** -/
theorem mem_iff (h : InRow cs k p) : p.proposal 0 ∈ proposals true 0 0 cs ↔ k % 2 = 0 := by
  have s := search_proposals true 0 cs
  induction h with
  | @first p htext hlooks hnone =>
    refine iff_of_true ((s.mem_iff htext hlooks).2 fun y hy hmem habuts => ?_) rfl
    obtain ⟨y', hy', hlooks', hproposal⟩ := s.looks hmem
    have hoffset := congrArg Proposal.offset hproposal
    simp only [Place.proposal, Nat.zero_add] at hoffset
    obtain rfl := Place.eq_of_offset (hy'.trans hy.symm) hoffset
    exact hnone y' hy hlooks' habuts
  | @next k y p hk htext hlooks habuts ih =>
    rw [s.mem_iff htext hlooks]
    have hother : (∀ y' : Place, y'.text = cs → y'.proposal 0 ∈ proposals true 0 0 cs →
        ¬ y'.Abuts p) ↔ ¬ y.proposal 0 ∈ proposals true 0 0 cs := by
      constructor
      · exact fun hall hmem => hall y hk.text hmem habuts
      · intro hy y' hy' hmem habuts'
        rw [habuts'.unique habuts (hy'.trans hk.text.symm)] at hmem
        exact hy hmem
    rw [hother, not_congr ih]
    omega

end InRow

end MinimumRelease.Recovery
