import MinimumRelease.Proofs.Grammar.SelfCheck

/-! # The verdict is the newest construct

A profile is exact if it refuses the constructs of later releases and no
others. Relaxing keeps a profile exact for its new release, so every builtin
profile is exact, and it accepts a tree exactly if no construct in it is newer.
The releases of all constructs are releases of profiles, the gaps between them
are not, so the search stops at the newest construct that occurs. -/

namespace MinimumRelease

namespace SyntaxTree

instance (t : SyntaxTree) (c : Construct) : Decidable (t.Holds c) :=
  inferInstanceAs (Decidable (∃ s ∈ t.sites, c.occursAt t.source s = true))

/-- The newest release of a construct that occurs in the tree, and the baseline if none does. -/
def newestConstruct (t : SyntaxTree) : Int :=
  ((Construct.all.filter (t.Holds ·)).map (·.allowedSince)).max?.getD baselineRelease

variable {t : SyntaxTree}

theorem mem_releases_of_holds {c : Construct} (h : t.Holds c) :
    c.allowedSince ∈ (Construct.all.filter (t.Holds ·)).map (·.allowedSince) :=
  List.mem_map_of_mem (List.mem_filter.2 ⟨c.mem_all, decide_eq_true h⟩)

theorem newestConstruct_cases (t : SyntaxTree) :
    t.newestConstruct = baselineRelease ∨ ∃ c, t.Holds c ∧ t.newestConstruct = c.allowedSince := by
  unfold newestConstruct
  cases hmax : ((Construct.all.filter (t.Holds ·)).map (·.allowedSince)).max? with
  | none => exact .inl rfl
  | some r =>
    obtain ⟨c, hc, rfl⟩ := List.mem_map.1 (List.max?_eq_some_iff.1 hmax).1
    exact .inr ⟨c, of_decide_eq_true (List.mem_filter.1 hc).2, rfl⟩

theorem le_newestConstruct {c : Construct} (h : t.Holds c) :
    c.allowedSince ≤ t.newestConstruct := by
  have hmem := mem_releases_of_holds h
  unfold newestConstruct
  cases hmax : ((Construct.all.filter (t.Holds ·)).map (·.allowedSince)).max? with
  | none =>
    rw [List.max?_eq_none_iff] at hmax
    rw [hmax] at hmem
    cases hmem
  | some r => exact (List.max?_eq_some_iff.1 hmax).2 _ hmem

theorem newestConstruct_le_iff {r : Int} (hr : baselineRelease ≤ r) :
    t.newestConstruct ≤ r ↔ ∀ c, t.Holds c → c.allowedSince ≤ r := by
  constructor
  · intro hle c hc
    exact Int.le_trans (le_newestConstruct hc) hle
  · intro hall
    rcases t.newestConstruct_cases with heq | ⟨c, hc, heq⟩
    · exact heq ▸ hr
    · exact heq ▸ hall c hc

end SyntaxTree

/-! ## Exact profiles -/

namespace Profile

/-- The profile refuses what is allowed since a later release, and nothing else. -/
def Exact (p : Profile) : Prop := ∀ c, c ∈ p.rejections ↔ p.release < c.allowedSince

theorem exact_ofList (release : Int) :
    (ofList release (Construct.all.filter (release < ·.allowedSince))).Exact := by
  intro c
  rw [mem_rejections_ofList, List.mem_filter, decide_eq_true_eq]
  exact and_iff_right c.mem_all

variable {p : Profile}

theorem Exact.relaxed (h : p.Exact) {release : Int} (hle : p.release ≤ release) :
    (p.relaxed release (·.allowedSince ≤ release)).Exact := by
  intro c
  rw [mem_rejections_relaxed, h c, decide_eq_false_iff_not, Int.not_le]
  exact and_iff_right_of_imp fun hlt => Int.lt_of_le_of_lt hle hlt

theorem Exact.accepts_iff (h : p.Exact) {t : SyntaxTree} (hbase : baselineRelease ≤ p.release) :
    p.accepts t = true ↔ t.newestConstruct ≤ p.release := by
  rw [Profile.accepts_iff, SyntaxTree.newestConstruct_le_iff hbase]
  constructor
  · intro hacc c hc
    exact Int.not_lt.1 fun hlt => hacc c ((h c).2 hlt) hc
  · intro hall c hrej hc
    exact absurd ((h c).1 hrej) (Int.not_lt.2 (hall c hc))

end Profile

namespace Profiles

theorem releases_relaxations (p : Profile) (releases : List Int) :
    (relaxations p releases).map (·.release) = releases := by
  induction releases generalizing p with
  | nil => rfl
  | cons release later ih =>
    rw [relaxations, List.map_cons, ih]
    rfl

/-- Relaxing from release to release keeps profiles exact. -/
theorem exact_relaxations {p : Profile} (hp : p.Exact) {releases : List Int}
    (h : (p.release :: releases).Pairwise (· < ·)) : ∀ q ∈ relaxations p releases, q.Exact := by
  induction releases generalizing p with
  | nil =>
    intro q hq
    cases hq
  | cons release later ih =>
    intro q hq
    rw [List.pairwise_cons] at h
    have hnext := hp.relaxed (Int.le_of_lt (h.1 release List.mem_cons_self))
    rcases List.mem_cons.1 hq with rfl | hq
    · exact hnext
    · exact ih hnext h.2 q hq

theorem allowedSince_mem_constructReleases (c : Construct) :
    c.allowedSince ∈ constructReleases := by
  cases c <;> decide

theorem releases_builtin : builtin.releases = baselineRelease ::
    constructReleases.filter (baselineRelease < ·) := by
  rw [releases, toList_builtin, builtinList, List.map_cons]
  exact congrArg _ (releases_relaxations _ _)

theorem releases_builtin_ascend : builtin.releases.Pairwise (· < ·) := by
  rw [releases, List.pairwise_map]
  exact builtin_relaxing.imp fun h => h.later

/-- Every builtin profile refuses exactly what later releases allow. -/
theorem exact_builtin {p : Profile} (hp : p ∈ builtin.toList) : p.Exact := by
  have hascend := releases_builtin_ascend
  rw [releases_builtin] at hascend
  have holdest := Profile.exact_ofList baselineRelease
  rw [toList_builtin] at hp
  rcases List.mem_cons.1 hp with rfl | hp
  · exact holdest
  · exact exact_relaxations holdest hascend p hp

theorem baseline_le_builtin {p : Profile} (hp : p ∈ builtin.toList) :
    baselineRelease ≤ p.release :=
  builtin_relaxing.oldest_le hp

/-- A release that allows a construct is the release of a profile, or no later than the baseline. -/
theorem exists_builtin_of_allowedSince (c : Construct) :
    c.allowedSince ≤ baselineRelease ∨ ∃ p ∈ builtin.toList, p.release = c.allowedSince := by
  refine (Int.lt_or_le baselineRelease c.allowedSince).symm.imp_right fun hlt => ?_
  have hmem : c.allowedSince ∈ builtin.releases := by
    rw [releases_builtin]
    exact List.mem_cons_of_mem _
      (List.mem_filter.2 ⟨allowedSince_mem_constructReleases c, decide_eq_true hlt⟩)
  exact List.mem_map.1 hmem

/-- **The verdict on a tree is the release of its newest construct**, or the baseline if no construct
is newer. The builtin profiles pass the check, and no tree is without a verdict. -/
theorem minimumRelease_eq_newestConstruct (t : SyntaxTree) :
    ofList builtin.toList = .ok builtin ∧
    builtin.minimumRelease t = .release (max 8 t.newestConstruct) := by
  refine ⟨ofList_eq_ok_iff.2 ⟨rfl, builtin_relaxing⟩,
    builtin_relaxing.minimumRelease_eq_release_iff.2 ⟨?_, ?_⟩⟩
  · have hbase : ∃ p ∈ builtin.toList, p.release = 8 := ⟨_, List.mem_cons_self, rfl⟩
    rcases Int.le_total t.newestConstruct 8 with hle | hle
    · rwa [Int.max_eq_left hle]
    · rw [Int.max_eq_right hle]
      rcases t.newestConstruct_cases with heq | ⟨c, -, heq⟩
      · rwa [heq]
      · rw [heq] at hle ⊢
        rcases exists_builtin_of_allowedSince c with hc | hp
        · rwa [Int.le_antisymm hc hle]
        · exact hp
  · intro p hp
    have hbase := baseline_le_builtin hp
    rw [(exact_builtin hp).accepts_iff hbase]
    have hbase : (8 : Int) ≤ p.release := hbase
    omega

end Profiles

end MinimumRelease
