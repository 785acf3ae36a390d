import MinimumRelease.Proofs.Grammar.Search

/-! # Profiles that only relax

A list of profiles is checked pair by pair, neighbours only. What the check
asks of neighbours is transitive, so it holds of any two (`Relaxing`), and a
tree that one profile accepts is accepted by all later ones. The profiles that
accept a tree are then those from some release on. The search from the old end
gives that release, and a parser limit, searched for from the new end, accepts
the tree exactly if it is no older. -/

namespace MinimumRelease

/-- `q` is of a later release than `p`, and refuses nothing that `p` accepts. -/
structure Profile.Relaxes (p q : Profile) : Prop where
  later : p.release < q.release
  refuses : ∀ c ∈ q.rejections, c ∈ p.rejections

theorem Profile.Relaxes.trans {p q r : Profile} (h : p.Relaxes q) (h' : q.Relaxes r) :
    p.Relaxes r :=
  ⟨Int.lt_trans h.later h'.later, fun c hc => h.refuses c (h'.refuses c hc)⟩

instance : Trans Profile.Relaxes Profile.Relaxes Profile.Relaxes := ⟨Profile.Relaxes.trans⟩

theorem Profile.Relaxes.accepts {p q : Profile} (h : p.Relaxes q) {t : SyntaxTree}
    (hp : p.accepts t = true) : q.accepts t = true := by
  rw [Profile.accepts_iff] at hp ⊢
  exact fun c hc => hp c (h.refuses c hc)

namespace Profiles

/-! ## What the check asks for -/

theorem stepFault?_eq_none_iff {p q : Profile} : stepFault? p q = none ↔ p.Relaxes q := by
  unfold stepFault?
  split
  · next hle =>
    simp only [reduceCtorEq, false_iff]
    exact fun h => absurd h.later (Int.not_lt.2 hle)
  · next hlt =>
    rw [Option.map_eq_none_iff, List.find?_eq_none]
    constructor
    · intro h
      refine ⟨Int.not_le.1 hlt, fun c hc => ?_⟩
      simpa [Profile.rejects] using h c hc
    · intro h c hc
      simpa [Profile.rejects] using h.refuses c hc

theorem firstFault?_eq_none_iff {ps : List Profile} :
    firstFault? ps = none ↔ ps.IsChain Profile.Relaxes := by
  fun_induction firstFault? ps with
  | case1 p q rest fault hfault =>
    simp only [reduceCtorEq, List.isChain_cons_cons, ← stepFault?_eq_none_iff, hfault, false_and]
  | case2 p q rest hnone ih =>
    rw [ih, List.isChain_cons_cons, ← stepFault?_eq_none_iff]
    exact (and_iff_right hnone).symm
  | case3 ps hshort =>
    match ps, hshort with
    | [], _ => simp
    | [p], _ => simp
    | p :: q :: rest, hshort => exact absurd rfl (hshort p q rest)

/-- Each profile relaxes all earlier ones, not only its neighbour. -/
def Relaxing (ps : Profiles) : Prop := ps.toList.Pairwise Profile.Relaxes

theorem ofList_eq_ok {list : List Profile} {ps : Profiles} (h : ofList list = .ok ps) :
    ps.toList = list ∧ ps.Relaxing := by
  unfold ofList at h
  split at h
  · cases h
  · next oldest newer =>
    split at h
    · cases h
    · next hnone =>
      cases h
      exact ⟨rfl, (firstFault?_eq_none_iff.1 hnone).pairwise⟩

theorem toList_builtin : builtin.toList = builtinList := (ofList_eq_ok ofList_builtinList).1

theorem builtin_relaxing : builtin.Relaxing := (ofList_eq_ok ofList_builtinList).2

theorem minimumRelease_eq_unparseable_iff {ps : Profiles} {t : SyntaxTree} :
    ps.minimumRelease t = .unparseable ↔ ∀ p ∈ ps.toList, p.accepts t = false := by
  unfold minimumRelease
  split
  · next p hp =>
    simp only [reduceCtorEq, false_iff]
    intro hall
    have hacc : p.accepts t = true := by simpa using List.find?_some hp
    rw [hall p (List.mem_of_find?_eq_some hp)] at hacc
    cases hacc
  · next hnone =>
    simpa using List.find?_eq_none.1 hnone

theorem getLast?_toList (ps : Profiles) : ps.toList.getLast? = some ps.mostPermissive := by
  rw [toList, List.getLast?_cons, mostPermissive, List.getLastD_eq_getLast?]

namespace Relaxing

variable {ps : Profiles} {t : SyntaxTree} {p q : Profile}

/-- Of two profiles one relaxes the other. -/
theorem cases (h : ps.Relaxing) (hp : p ∈ ps.toList) (hq : q ∈ ps.toList) :
    p = q ∨ p.Relaxes q ∨ q.Relaxes p := by
  obtain ⟨as, bs, hsplit⟩ := List.append_of_mem hp
  rw [Relaxing, hsplit, List.pairwise_append, List.pairwise_cons] at h
  rw [hsplit, List.mem_append, List.mem_cons] at hq
  rcases hq with hq | rfl | hq
  · exact .inr (.inr (h.2.2 q hq p List.mem_cons_self))
  · exact .inl rfl
  · exact .inr (.inl (h.2.1.1 q hq))

theorem accepts_of_le (h : ps.Relaxing) (hp : p ∈ ps.toList) (hq : q ∈ ps.toList)
    (hle : p.release ≤ q.release) (hacc : p.accepts t = true) : q.accepts t = true := by
  rcases h.cases hp hq with rfl | hpq | hqp
  · exact hacc
  · exact hpq.accepts hacc
  · exact absurd hqp.later (Int.not_lt.2 hle)

theorem oldest_le (h : ps.Relaxing) (hp : p ∈ ps.toList) : ps.oldest.release ≤ p.release := by
  rcases List.mem_cons.1 hp with rfl | hp
  · exact Int.le_refl _
  · exact Int.le_of_lt ((List.pairwise_cons.1 h).1 p hp).later

/-! ## The search from the old end -/

theorem accepts_iff_of_minimumRelease (h : ps.Relaxing) {r : Int}
    (hmin : ps.minimumRelease t = .release r) : (∃ p ∈ ps.toList, p.release = r) ∧
      ∀ p ∈ ps.toList, p.accepts t = true ↔ r ≤ p.release := by
  obtain ⟨as, p, bs, hsplit, rfl, hacc, hbefore⟩ := minimumRelease_eq_release hmin
  have hp : p ∈ ps.toList := by simp [hsplit]
  refine ⟨⟨p, hp, rfl⟩, fun q hq => ⟨fun hqacc => ?_, fun hle => h.accepts_of_le hp hq hle hacc⟩⟩
  -- what stands before `p` refuses the tree, and what stands behind it is newer
  rw [hsplit, List.mem_append, List.mem_cons] at hq
  rw [Relaxing, hsplit, List.pairwise_append, List.pairwise_cons] at h
  rcases hq with hq | rfl | hq
  · rw [hbefore q hq] at hqacc
    cases hqacc
  · exact Int.le_refl _
  · exact Int.le_of_lt (h.2.1.1 q hq).later

/-- The verdict is the release from which on the profiles accept the tree. -/
theorem minimumRelease_eq_release_iff (h : ps.Relaxing) {r : Int} :
    ps.minimumRelease t = .release r ↔ (∃ p ∈ ps.toList, p.release = r) ∧
      ∀ p ∈ ps.toList, p.accepts t = true ↔ r ≤ p.release := by
  refine ⟨h.accepts_iff_of_minimumRelease, ?_⟩
  rintro ⟨⟨p, hp, rfl⟩, hiff⟩
  have hacc : p.accepts t = true := (hiff p hp).2 (Int.le_refl _)
  cases hmin : ps.minimumRelease t with
  | release g =>
    obtain ⟨⟨q, hq, rfl⟩, hiff'⟩ := h.accepts_iff_of_minimumRelease hmin
    have hqp : q.release ≤ p.release := (hiff' p hp).1 hacc
    have hpq : p.release ≤ q.release := (hiff q hq).1 ((hiff' q hq).2 (Int.le_refl _))
    rw [Int.le_antisymm hqp hpq]
  | unparseable =>
    rw [minimumRelease_eq_unparseable_iff.1 hmin p hp] at hacc
    cases hacc

/-! ## The parser limit from the new end -/

/-- The newest profile accepts what any profile accepts. -/
theorem accepts_mostPermissive (h : ps.Relaxing) (hp : p ∈ ps.toList)
    (hacc : p.accepts t = true) : ps.mostPermissive.accepts t = true := by
  obtain ⟨as, hsplit⟩ := List.getLast?_eq_some_iff.1 (getLast?_toList ps)
  rw [Relaxing, hsplit, List.pairwise_append] at h
  rw [hsplit, List.mem_append, List.mem_singleton] at hp
  rcases hp with hp | rfl
  · exact (h.2.2 p hp _ List.mem_cons_self).accepts hacc
  · exact hacc

/-- The limit is the newest profile that is no newer than the release, where the oldest profile
stands in for releases before it. -/
theorem upperBound_newest (h : ps.Relaxing) (n : Int) : ps.upperBound n ∈ ps.toList ∧
    ∀ p ∈ ps.toList, p.release ≤ (ps.upperBound n).release ↔
      p.release ≤ max n ps.oldest.release := by
  have hfirst : ps.oldest ∈ ps.toList := List.mem_cons_self
  unfold upperBound
  cases hfind : ps.toList.reverse.find? (·.release ≤ n) with
  | none =>
    refine ⟨hfirst, fun p hp => ?_⟩
    have hnone := List.find?_eq_none.1 hfind
    have hold : ¬ ps.oldest.release ≤ n := by
      simpa using hnone ps.oldest (List.mem_reverse.2 hfirst)
    show p.release ≤ ps.oldest.release ↔ _
    omega
  | some q =>
    obtain ⟨hqn, as, bs, hsplit, hnewer⟩ := List.find?_eq_some_iff_append.1 hfind
    have hlist : ps.toList = bs.reverse ++ q :: as.reverse := by
      rw [← List.reverse_reverse ps.toList, hsplit]
      simp
    have hq : q ∈ ps.toList := by simp [hlist]
    have hqn : q.release ≤ n := by simpa using hqn
    refine ⟨hq, fun p hp => ?_⟩
    have hold := h.oldest_le hq
    show p.release ≤ q.release ↔ _
    refine ⟨fun hle => by omega, fun hle => ?_⟩
    -- a newer profile stands behind `q`, and is newer than the release
    rcases h.cases hp hq with rfl | hpq | hqp
    · exact Int.le_refl _
    · exact Int.le_of_lt hpq.later
    · rw [Relaxing, hlist, List.pairwise_append, List.pairwise_cons] at h
      rw [hlist, List.mem_append, List.mem_cons, List.mem_reverse, List.mem_reverse] at hp
      rcases hp with hp | rfl | hp
      · exact Int.le_of_lt (h.2.2 p (List.mem_reverse.2 hp) q List.mem_cons_self).later
      · exact Int.le_refl _
      · have hpn : n < p.release := by simpa using hnewer p hp
        omega

theorem accepts_upperBound_iff (h : ps.Relaxing) (n : Int) :
    (ps.upperBound n).accepts t = true ↔
      ∃ r, ps.minimumRelease t = .release r ∧ r ≤ max n ps.oldest.release := by
  obtain ⟨hmem, hnewest⟩ := h.upperBound_newest n
  constructor
  · intro hacc
    cases hmin : ps.minimumRelease t with
    | release r =>
      obtain ⟨⟨p, hp, rfl⟩, hiff⟩ := h.accepts_iff_of_minimumRelease hmin
      exact ⟨_, rfl, (hnewest p hp).1 ((hiff _ hmem).1 hacc)⟩
    | unparseable =>
      rw [minimumRelease_eq_unparseable_iff.1 hmin _ hmem] at hacc
      cases hacc
  · rintro ⟨r, hmin, hle⟩
    obtain ⟨⟨p, hp, rfl⟩, hiff⟩ := h.accepts_iff_of_minimumRelease hmin
    exact (hiff _ hmem).2 ((hnewest p hp).2 hle)

/-- A later limit accepts no less. -/
theorem accepts_upperBound_mono (h : ps.Relaxing) {m n : Int} (hmn : m ≤ n)
    (hacc : (ps.upperBound m).accepts t = true) : (ps.upperBound n).accepts t = true := by
  rw [h.accepts_upperBound_iff] at hacc ⊢
  obtain ⟨r, hmin, hle⟩ := hacc
  exact ⟨r, hmin, by omega⟩

end Relaxing

/-- **Search, parser limit and the order of the profiles agree.** In a list that passes the check
every later profile accepts what an earlier one accepts. The verdict on a tree is the release from
which on the profiles accept it, and there is none exactly if the newest profile refuses it. A
parser limit accepts the tree exactly if the verdict is no newer than the limit, where a limit
before the oldest profile counts as that one's release. -/
theorem accepts_iff_minimumRelease {list : List Profile} {ps : Profiles}
    (h : ofList list = .ok ps) (t : SyntaxTree) :
    list.Pairwise (fun p q => p.accepts t = true → q.accepts t = true) ∧
    (∀ r, ps.minimumRelease t = .release r ↔ (∃ p ∈ list, p.release = r) ∧
      ∀ p ∈ list, p.accepts t = true ↔ r ≤ p.release) ∧
    (ps.minimumRelease t = .unparseable ↔ ps.mostPermissive.accepts t = false) ∧
    ∀ n, (ps.upperBound n).accepts t = true ↔
      ∃ r, ps.minimumRelease t = .release r ∧ r ≤ max n ps.oldest.release := by
  obtain ⟨rfl, hps⟩ := ofList_eq_ok h
  refine ⟨hps.imp fun hpq => hpq.accepts, fun r => hps.minimumRelease_eq_release_iff, ?_,
    hps.accepts_upperBound_iff⟩
  rw [minimumRelease_eq_unparseable_iff]
  constructor
  · exact fun hall => hall _ (List.mem_of_getLast? (getLast?_toList ps))
  · intro hlast p hp
    cases hacc : p.accepts t with
    | false => rfl
    | true =>
      rw [hps.accepts_mostPermissive hp hacc] at hlast
      cases hlast

/-! ## A record -/

namespace RecordFile

/-- `record R() {}` as a tree. -/
def tree : SyntaxTree where
  source := "record R() \x7b \x7d"
  root := ⟨"program", true, false, 0, 14, [],
    [⟨"record_declaration", true, false, 0, 14, [],
      [⟨"record", false, false, 0, 6, [], []⟩,
       ⟨"identifier", true, false, 7, 8, ["name"], []⟩,
       ⟨"formal_parameters", true, false, 8, 10, [],
        [⟨"(", false, false, 8, 9, [], []⟩, ⟨")", false, false, 9, 10, [], []⟩]⟩,
       ⟨"class_body", true, false, 11, 14, [],
        [⟨"\x7b", false, false, 11, 12, [], []⟩, ⟨"\x7d", false, false, 13, 14, [], []⟩]⟩]⟩]⟩

/-- Three profiles, two of which refuse records. -/
def profiles : Profiles :=
  ⟨.ofList 8 [.records, .moduleDeclarations], [.ofList 9 [.records], .ofList 16 []]⟩

theorem minimumRelease_sixteen : ofList profiles.toList = .ok profiles ∧
    profiles.minimumRelease tree = .release 16 ∧
    (∀ p ∈ profiles.toList, p.accepts tree = true ↔ 16 ≤ p.release) ∧
    profiles.mostPermissive.accepts tree ≠ false ∧
    (profiles.upperBound 15).accepts tree = false ∧
    (profiles.upperBound 20).accepts tree = true := by
  have hok : ofList profiles.toList = .ok profiles := rfl
  obtain ⟨-, hrelease, hunparseable, hlimit⟩ := accepts_iff_minimumRelease hok tree
  have hmin : profiles.minimumRelease tree = .release 16 := by decide +kernel
  refine ⟨hok, hmin, ((hrelease 16).1 hmin).2, ?_, ?_, (hlimit 20).2 ⟨16, hmin, by decide⟩⟩
  · intro hlast
    rw [hunparseable.2 hlast] at hmin
    cases hmin
  · rw [← Bool.not_eq_true, hlimit 15]
    rintro ⟨r, hr, hle⟩
    rw [hmin] at hr
    cases hr
    exact absurd hle (by decide)

end RecordFile

end Profiles

end MinimumRelease
