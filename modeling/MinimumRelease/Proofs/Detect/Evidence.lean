import MinimumRelease.Detect.Visit
import MinimumRelease.Proofs.Tree.Walk

/-! # What the visitor finds by form

The evidence of a walk only grows. So whatever the form of a node shows, at
whichever site of the tree, is among the features of the tree, and no rule
table takes it away again. -/

namespace MinimumRelease

theorem Evidence.mem_add_of_mem {rules scope source e s} {f : Feature} (h : f ∈ e.features) :
    f ∈ (Evidence.add rules scope source e s).features :=
  List.mem_append_right _ h

theorem Evidence.mem_add_of_form {rules scope source e} {s : Site} {f : Feature}
    (h : f ∈ s.formFeatures source) : f ∈ (Evidence.add rules scope source e s).features :=
  List.mem_append_left _ (List.mem_append_left _ h)

theorem Evidence.mem_foldl_of_mem {rules scope source} {f : Feature} :
    ∀ (ss : List Site) {e : Evidence}, f ∈ e.features →
      f ∈ (ss.foldl (Evidence.add rules scope source) e).features
  | [], _, h => h
  | _ :: ss, _, h => mem_foldl_of_mem ss (Evidence.mem_add_of_mem h)

theorem Evidence.mem_foldl_of_form {rules scope source} {s : Site} {f : Feature}
    (h : f ∈ s.formFeatures source) : ∀ {ss : List Site} (_ : s ∈ ss) (e : Evidence),
      f ∈ (ss.foldl (Evidence.add rules scope source) e).features
  | a :: ss, hs, e => by
    rcases List.mem_cons.1 hs with rfl | hs
    · exact Evidence.mem_foldl_of_mem ss (Evidence.mem_add_of_form h)
    · exact mem_foldl_of_form h hs _

theorem SyntaxTree.mem_features_of_form {t : SyntaxTree} {s : Site} {f : Feature}
    (rules : RuleTable) (hs : s ∈ t.sites) (h : f ∈ s.formFeatures t.source) :
    f ∈ t.features rules := by
  rw [SyntaxTree.features, Feature.mem_canonical, Node.foldSites_eq]
  exact Evidence.mem_foldl_of_form h hs _

/-! ## All that is found -/

theorem Sightings.lookUpAll_append (rules : RuleTable) (scope : ImportScope) (seen : Sightings)
    (ms ns : List Mention) : seen.lookUpAll rules scope (ms ++ ns) =
      ((seen.lookUpAll rules scope ms).1 ++
          ((seen.lookUpAll rules scope ms).2.lookUpAll rules scope ns).1,
        ((seen.lookUpAll rules scope ms).2.lookUpAll rules scope ns).2) := by
  induction ms generalizing seen with
  | nil => rfl
  | cons m ms ih => simp [lookUpAll, ih]

/-- A walk adds what the sites show by their form, and what the names that they mention show, looked
up in document order. -/
theorem Evidence.mem_foldl_iff {rules scope source} {f : Feature} (ss : List Site) (e : Evidence) :
    f ∈ (ss.foldl (Evidence.add rules scope source) e).features ↔
      f ∈ e.features ∨ (∃ s ∈ ss, f ∈ s.formFeatures source) ∨
        f ∈ (e.seen.lookUpAll rules scope (ss.flatMap (Mention.ofSite source))).1 := by
  induction ss generalizing e with
  | nil => simp [Sightings.lookUpAll]
  | cons s ss ih =>
    rw [List.foldl_cons, ih, List.flatMap_cons, Sightings.lookUpAll_append]
    simp only [Evidence.add, List.mem_append, List.mem_cons, exists_eq_or_imp]
    grind

theorem SyntaxTree.mem_features_iff {t : SyntaxTree} {f : Feature} (rules : RuleTable) :
    f ∈ t.features rules ↔ f ∈ (ImportScope.ofProgram t.source t.root).features rules ∨
      (∃ s ∈ t.sites, f ∈ s.formFeatures t.source) ∨
      f ∈ (Sightings.none.lookUpAll rules (ImportScope.ofProgram t.source t.root)
        (t.sites.flatMap (Mention.ofSite t.source))).1 := by
  rw [SyntaxTree.features, Feature.mem_canonical, Node.foldSites_eq]
  exact Evidence.mem_foldl_iff t.sites _

end MinimumRelease
