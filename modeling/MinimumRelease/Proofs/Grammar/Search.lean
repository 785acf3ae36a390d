import Mathlib.Data.List.Chain
import MinimumRelease.Grammar.Profile
import MinimumRelease.Proofs.Tree.Walk

/-! # The search for the oldest profile

A profile accepts a tree if nothing that it refuses occurs at any site. The
search takes the first profile that accepts, so the one before it refuses
something that occurs. The builtin profiles leave no gap: what one of them
refuses is allowed no earlier than the next one (`builtin_step`). -/

namespace MinimumRelease

/-- The construct occurs somewhere in the tree. -/
def SyntaxTree.Holds (t : SyntaxTree) (c : Construct) : Prop :=
  ∃ s ∈ t.sites, c.occursAt t.source s = true

namespace Profile

theorem firstRejection?_eq (p : Profile) (t : SyntaxTree) : p.firstRejection? t =
    t.sites.findSome? fun s => p.rejections.find? (·.occursAt t.source s) := by
  rw [firstRejection?, Node.walk_eq]
  refine Walk.visitAll_find ?_ ?_ t.sites
  · intro s h
    rw [h]
  · intro s c h
    rw [h]

theorem accepts_iff {p : Profile} {t : SyntaxTree} :
    p.accepts t = true ↔ ∀ c ∈ p.rejections, ¬ t.Holds c := by
  rw [accepts, firstRejection?_eq, Option.isNone_iff_eq_none, List.findSome?_eq_none_iff]
  simp only [List.find?_eq_none]
  constructor
  · rintro h c hc ⟨s, hs, ho⟩
    exact h s hs c hc ho
  · intro h s hs c hc ho
    exact h c hc ⟨s, hs, ho⟩

theorem exists_of_not_accepts {p : Profile} {t : SyntaxTree} (h : p.accepts t = false) :
    ∃ c ∈ p.rejections, t.Holds c := by
  refine Classical.byContradiction fun hnone => ?_
  have hacc : p.accepts t = true := accepts_iff.2 fun c hc ho => hnone ⟨c, hc, ho⟩
  rw [h] at hacc
  cases hacc

end Profile

namespace Profiles

/-- The profile of the verdict, and what was refused before it. -/
theorem minimumRelease_eq_release {ps : Profiles} {t : SyntaxTree} {g : Int}
    (h : ps.minimumRelease t = .release g) :
    ∃ as p bs, ps.toList = as ++ p :: bs ∧ p.release = g ∧ p.accepts t = true ∧
      ∀ q ∈ as, q.accepts t = false := by
  unfold minimumRelease at h
  split at h
  · next p hp =>
    cases h
    obtain ⟨hacc, as, bs, hsplit, hbefore⟩ := List.find?_eq_some_iff_append.1 hp
    exact ⟨as, p, bs, hsplit, rfl, hacc, fun q hq => by simpa using hbefore q hq⟩
  · cases h

theorem builtin_step : builtin.toList.IsChain
    fun p q => ∀ c ∈ p.rejections, q.release ≤ c.allowedSince := by
  decide

theorem builtin_getLast : ∃ p ∈ builtin.toList, p.rejections = [] := by
  decide

/-- The builtin profiles accept every tree sooner or later. -/
theorem exists_builtin_minimumRelease (t : SyntaxTree) :
    ∃ g, builtin.minimumRelease t = .release g := by
  unfold minimumRelease
  split
  · exact ⟨_, rfl⟩
  · next hnone =>
    obtain ⟨p, hp, hr⟩ := builtin_getLast
    have hacc : p.accepts t = true := by
      rw [Profile.accepts_iff, hr]
      intro c hc
      cases hc
    exact absurd hacc (List.find?_eq_none.1 hnone p hp)

/-- **A verdict above the baseline comes from a construct of that release or a later one.** -/
theorem exists_construct_of_minimumRelease {t : SyntaxTree} {g : Int}
    (h : builtin.minimumRelease t = .release g) (hg : g ≠ baselineRelease) :
    ∃ c, t.Holds c ∧ g ≤ c.allowedSince := by
  obtain ⟨as, p, bs, hsplit, rfl, -, hbefore⟩ := minimumRelease_eq_release h
  rcases List.eq_nil_or_concat as with rfl | ⟨as, q, rfl⟩
  · -- the oldest profile is that of the baseline
    have hp : builtin.oldest = p := (List.cons.inj hsplit).1
    exact absurd (congrArg Profile.release hp.symm) hg
  · rw [List.concat_eq_append] at hsplit hbefore
    obtain ⟨c, hc, ho⟩ := Profile.exists_of_not_accepts (hbefore q (by simp))
    have hchain := builtin_step
    rw [hsplit, List.append_assoc, List.singleton_append] at hchain
    have hqp := (List.isChain_append.1 hchain).2.1
    exact ⟨c, ho, (List.isChain_cons_cons.1 hqp).1 c hc⟩

end Profiles

end MinimumRelease
