import MinimumRelease.Proofs.Detect.Evidence
import MinimumRelease.Proofs.Rule.Scan
import MinimumRelease.Rule.Builtin

/-! # Names mean the same wherever they stand

A walk looks up each name once. Qualified names and bare ones share one list of
what was seen, but a qualified name has a dot and a bare one has none
(`Mention.Proper`), so a name that was seen was seen as the same mention, and
its features were found then. What the walk finds is therefore what each site
shows by itself, in the scope of all imports, and neither the order of the sites
nor that of the imports shows in it. -/

namespace MinimumRelease

/-! ## Mentions with the same key -/

namespace Mention

/-- Qualified names have a dot, and bare type names have none. -/
def Proper : Mention → Prop
  | .qualified name => '.' ∈ name.toList
  | .simple name => '.' ∉ name.toList
  | .call _ _ => True

theorem eq_of_key? {m m' : Mention} {name : String} (hm : m.Proper) (hm' : m'.Proper)
    (h : m.key? = some name) (h' : m'.key? = some name) : m = m' := by
  cases m with
  | call receiver method => cases h
  | qualified a =>
    cases h
    cases m' with
    | qualified b => cases h'; rfl
    | simple b => cases h'; exact absurd hm hm'
    | call receiver method => cases h'
  | simple a =>
    cases h
    cases m' with
    | qualified b => cases h'; exact absurd hm' hm
    | simple b => cases h'; rfl
    | call receiver method => cases h'

theorem proper_of_mem_ofChain {chain : String} {m : Mention} (h : m ∈ ofChain chain) :
    m.Proper := by
  unfold ofChain at h
  split at h
  · next hq =>
    rw [List.mem_singleton] at h
    subst h
    rw [looksQualified, Bool.and_eq_true] at hq
    exact List.contains_iff_mem.1 hq.1
  · dsimp only at h
    split at h
    · rw [List.mem_singleton] at h
      subst h
      show '.' ∉ (String.ofList (Text.firstSegment chain.toList)).toList
      rw [String.toList_ofList]
      intro hdot
      have hne := List.all_eq_true.1 List.all_takeWhile _ hdot
      cases hne
    · cases h

theorem proper_of_mem_ofCall {source : String} {n : Node} {m : Mention}
    (h : m ∈ ofCall source n) : m.Proper := by
  unfold ofCall at h
  split at h
  · cases h
  · split at h
    · cases h
    · rcases List.mem_append.1 h with h | h
      · obtain ⟨name, -, rfl⟩ := List.mem_map.1 h
        trivial
      · split at h
        · exact proper_of_mem_ofChain h
        · cases h

theorem proper_of_mem_ofSite {source : String} {s : Site} {m : Mention}
    (htype : s.kind = "type_identifier" → '.' ∉ (s.node.text source).toList)
    (h : m ∈ ofSite source s) : m.Proper := by
  unfold ofSite at h
  split at h
  · split at h
    · obtain ⟨chain, -, hm⟩ := List.mem_flatMap.1 h
      exact proper_of_mem_ofChain hm
    · cases h
  · split at h
    · next hkind =>
      dsimp only at h
      split at h
      · cases h
      · rw [List.mem_singleton] at h
        subst h
        exact htype (by simpa using hkind)
    · split at h
      · exact proper_of_mem_ofCall h
      · split at h
        · obtain ⟨chain, -, hm⟩ := List.mem_flatMap.1 h
          exact proper_of_mem_ofChain hm
        · cases h

end Mention

/-! ## The scope as a set -/

theorem RuleTable.simpleFeatures_congr {packages packages' : List String} (rules : RuleTable)
    (name : String) (h : ∀ p, p ∈ packages ↔ p ∈ packages') :
    rules.simpleFeatures name packages = rules.simpleFeatures name packages' := by
  have hcovers : ∀ r : Rule, r.coversSimple name packages = r.coversSimple name packages' := by
    intro r
    have hcontains : packages.contains r.package = packages'.contains r.package := by
      rw [Bool.eq_iff_iff, List.contains_iff_mem, List.contains_iff_mem, h]
    simp only [Rule.coversSimple, hcontains]
  simp only [RuleTable.simpleFeatures, hcovers]

namespace ImportScope

variable {scope scope' : ImportScope}

theorem hides_congr (h : ∀ i, i ∈ scope.imports ↔ i ∈ scope'.imports) (name : String) :
    scope.hides name = scope'.hides name := by
  rw [Bool.eq_iff_iff, hides, hides, List.any_eq_true, List.any_eq_true]
  simp only [h]

theorem mem_packages_congr (h : ∀ i, i ∈ scope.imports ↔ i ∈ scope'.imports) (package : String) :
    package ∈ scope.packages ↔ package ∈ scope'.packages := by
  rw [packages, packages, List.mem_cons, List.mem_cons, List.mem_filterMap, List.mem_filterMap]
  simp only [h]

theorem mem_features_congr (rules : RuleTable) (h : ∀ i, i ∈ scope.imports ↔ i ∈ scope'.imports)
    (f : Feature) : f ∈ scope.features rules ↔ f ∈ scope'.features rules := by
  rw [features, features, List.mem_flatMap, List.mem_flatMap]
  simp only [h]

end ImportScope

/-- What a mention shows depends on which imports there are, not on their order. -/
theorem Mention.features_congr {scope scope' : ImportScope} (rules : RuleTable)
    (h : ∀ i, i ∈ scope.imports ↔ i ∈ scope'.imports) (m : Mention) :
    m.features rules scope = m.features rules scope' := by
  cases m with
  | qualified name => rfl
  | call receiver method => rfl
  | simple name =>
    rw [features, features, ImportScope.hides_congr h,
      rules.simpleFeatures_congr name (ImportScope.mem_packages_congr h)]

/-! ## Looking up once -/

namespace Sightings

variable {rules : RuleTable} {scope : ImportScope} {f : Feature}

/-- The name of a mention was not seen yet. Calls have no name that could be. -/
def Lacks (seen : Sightings) (m : Mention) : Prop := ∀ name, m.key? = some name → name ∉ seen.names

theorem lacks_cons_iff {name : String} {names : List String} {m : Mention} :
    Lacks ⟨name :: names⟩ m ↔ m.key? ≠ some name ∧ Lacks ⟨names⟩ m := by
  simp only [Lacks, List.mem_cons, not_or]
  constructor
  · exact fun h => ⟨fun hkey => (h name hkey).1 rfl, fun k hk => (h k hk).2⟩
  · rintro ⟨hne, h⟩ k hk
    exact ⟨fun hkn => hne (hkn ▸ hk), h k hk⟩

/-- A call is looked up every time, a name that was seen is not, and a new one is seen from then
on. -/
theorem lookUp_cases (rules : RuleTable) (scope : ImportScope) (seen : Sightings) (m : Mention) :
    (m.key? = .none ∧ seen.lookUp rules scope m = (m.features rules scope, seen)) ∨
    (∃ name, m.key? = some name ∧ name ∈ seen.names ∧ seen.lookUp rules scope m = ([], seen)) ∨
    ∃ name, m.key? = some name ∧ name ∉ seen.names ∧
      seen.lookUp rules scope m = (m.features rules scope, ⟨name :: seen.names⟩) := by
  unfold lookUp
  cases m.key? with
  | none => exact .inl ⟨rfl, rfl⟩
  | some name =>
    by_cases hname : name ∈ seen.names
    · exact .inr (.inl ⟨name, rfl, hname, by simp [see, hname]⟩)
    · exact .inr (.inr ⟨name, rfl, hname, by simp [see, hname]⟩)

theorem mem_lookUpAll_cons {m : Mention} {ms : List Mention} {seen : Sightings} :
    f ∈ (seen.lookUpAll rules scope (m :: ms)).1 ↔ f ∈ (seen.lookUp rules scope m).1 ∨
      f ∈ ((seen.lookUp rules scope m).2.lookUpAll rules scope ms).1 :=
  List.mem_append

theorem exists_of_mem_lookUpAll {ms : List Mention} {seen : Sightings}
    (h : f ∈ (seen.lookUpAll rules scope ms).1) : ∃ m ∈ ms, f ∈ m.features rules scope := by
  induction ms generalizing seen with
  | nil => cases h
  | cons m ms ih =>
    rcases mem_lookUpAll_cons.1 h with h | h
    · refine ⟨m, List.mem_cons_self, ?_⟩
      rcases lookUp_cases rules scope seen m with ⟨-, hm⟩ | ⟨name, -, -, hm⟩ | ⟨name, -, -, hm⟩ <;>
        rw [hm] at h
      · exact h
      · cases h
      · exact h
    · obtain ⟨m', hm', hf⟩ := ih h
      exact ⟨m', List.mem_cons_of_mem _ hm', hf⟩

/-- Of the mentions with the same name one is looked up, and it stands for all. -/
theorem mem_lookUpAll_iff {ms : List Mention} (h : ∀ m ∈ ms, m.Proper) {seen : Sightings} :
    f ∈ (seen.lookUpAll rules scope ms).1 ↔
      ∃ m ∈ ms, seen.Lacks m ∧ f ∈ m.features rules scope := by
  induction ms generalizing seen with
  | nil => simp [lookUpAll]
  | cons m ms ih =>
    have ih := @ih fun m' hm' => h m' (List.mem_cons_of_mem _ hm')
    simp only [mem_lookUpAll_cons, ih, List.mem_cons, exists_eq_or_imp]
    rcases lookUp_cases rules scope seen m with ⟨hkey, hm⟩ | ⟨name, hkey, hname, hm⟩ |
      ⟨name, hkey, hname, hm⟩
    · have hlacks : seen.Lacks m := fun k hk => by rw [hkey] at hk; cases hk
      simp only [hm, hlacks, true_and]
    · have hlacks : ¬ seen.Lacks m := fun hl => hl name hkey hname
      simp only [hm, hlacks, List.not_mem_nil, false_and]
    · have hlacks : seen.Lacks m := fun k hk => by rw [hkey] at hk; cases hk; exact hname
      simp only [hm, hlacks, true_and]
      constructor
      · rintro (hf | ⟨m', hm', hl, hf⟩)
        · exact .inl hf
        · exact .inr ⟨m', hm', (lacks_cons_iff.1 hl).2, hf⟩
      · rintro (hf | ⟨m', hm', hl, hf⟩)
        · exact .inl hf
        · by_cases hkey' : m'.key? = some name
          · -- the same name further on is the same mention, whose features are found here
            have hsame : m' = m := Mention.eq_of_key? (h m' (List.mem_cons_of_mem _ hm'))
              (h m List.mem_cons_self) hkey' hkey
            exact .inl (hsame ▸ hf)
          · exact .inr ⟨m', hm', lacks_cons_iff.2 ⟨hkey', hl⟩, hf⟩

end Sightings

/-! ## Each site by itself -/

/-- The features that the names at a site show, each of them looked up afresh. -/
def Site.usageFeatures (rules : RuleTable) (scope : ImportScope) (source : String) (s : Site) :
    List Feature :=
  (Mention.ofSite source s).flatMap (·.features rules scope)

/-- No bare type name of the tree has a dot. -/
def SyntaxTree.PlainTypeNames (t : SyntaxTree) : Prop :=
  ∀ s ∈ t.sites, s.kind = "type_identifier" → '.' ∉ (s.node.text t.source).toList

/-- A walk over sites in any order, with no name seen before it. -/
theorem Evidence.mem_walk_iff {rules : RuleTable} {scope : ImportScope} {source : String}
    {ss : List Site} {f : Feature}
    (h : ∀ s ∈ ss, s.kind = "type_identifier" → '.' ∉ (s.node.text source).toList) :
    f ∈ (ss.foldl (Evidence.add rules scope source) ⟨.none, scope.features rules⟩).features ↔
      f ∈ scope.features rules ∨ (∃ s ∈ ss, f ∈ s.formFeatures source) ∨
        ∃ s ∈ ss, f ∈ s.usageFeatures rules scope source := by
  have hproper : ∀ m ∈ ss.flatMap (Mention.ofSite source), m.Proper := by
    intro m hm
    obtain ⟨s, hs, hm⟩ := List.mem_flatMap.1 hm
    exact Mention.proper_of_mem_ofSite (h s hs) hm
  have hlacks : ∀ m, Sightings.none.Lacks m := fun _ _ _ => List.not_mem_nil
  rw [Evidence.mem_foldl_iff, Sightings.mem_lookUpAll_iff hproper]
  simp only [Site.usageFeatures, List.mem_flatMap, hlacks, true_and]
  grind

/-- **What a tree shows does not depend on the order in which its names are looked up.** It is what
the imports show, what each node shows by its form, and what the names at each node show if they
are looked up afresh in the scope of all imports. A walk over the same sites in any order, with the
same imports in any order, finds the same. -/
theorem SyntaxTree.features_eq_afresh {t : SyntaxTree} (h : t.PlainTypeNames) (rules : RuleTable) :
    let scope := ImportScope.ofProgram t.source t.root
    t.features rules = Feature.canonical (scope.features rules ++
        t.sites.flatMap (·.formFeatures t.source) ++
        t.sites.flatMap (·.usageFeatures rules scope t.source)) ∧
    ∀ (imports : List Import) (ss : List Site), (∀ i, i ∈ imports ↔ i ∈ scope.imports) →
      (∀ s, s ∈ ss ↔ s ∈ t.sites) →
      Feature.canonical (ss.foldl (Evidence.add rules ⟨imports⟩ t.source)
        ⟨.none, ImportScope.features rules ⟨imports⟩⟩).features = t.features rules := by
  intro scope
  have hfeatures : t.features rules = Feature.canonical (t.sites.foldl
      (Evidence.add rules scope t.source) ⟨.none, scope.features rules⟩).features := by
    rw [features, Node.foldSites_eq]
    rfl
  rw [hfeatures]
  constructor
  · refine Feature.canonical_congr fun f => ?_
    rw [Evidence.mem_walk_iff h, List.mem_append, List.mem_append, List.mem_flatMap,
      List.mem_flatMap, or_assoc]
  · intro imports ss himports hss
    refine Feature.canonical_congr fun f => ?_
    have hsame : ∀ i, i ∈ (⟨imports⟩ : ImportScope).imports ↔ i ∈ scope.imports := himports
    have husage : ∀ s : Site, s.usageFeatures rules ⟨imports⟩ t.source =
        s.usageFeatures rules scope t.source := fun s => by
      simp only [Site.usageFeatures, Mention.features_congr rules hsame]
    rw [Evidence.mem_walk_iff h, Evidence.mem_walk_iff fun s hs => h s ((hss s).1 hs),
      ImportScope.mem_features_congr rules hsame]
    simp only [hss, husage]

/-! ## A name that stands twice -/

namespace TwiceNamed

/-- A field of type `Optional` that begins at byte `i`. -/
def field (i : Nat) : Node :=
  ⟨"field_declaration", true, false, i, i + 11, [],
    [⟨"type_identifier", true, false, i, i + 8, ["type"], []⟩,
     ⟨"variable_declarator", true, false, i + 9, i + 10, [],
      [⟨"identifier", true, false, i + 9, i + 10, ["name"], []⟩]⟩,
     ⟨";", false, false, i + 10, i + 11, [], []⟩]⟩

def tree : SyntaxTree where
  source := "import java.util.*; class A \x7b Optional a; Optional b; \x7d"
  root := ⟨"program", true, false, 0, 55, [],
    [⟨"import_declaration", true, false, 0, 19, [],
      [⟨"import", false, false, 0, 6, [], []⟩,
       ⟨"scoped_identifier", true, false, 7, 16, [],
        [⟨"identifier", true, false, 7, 11, [], []⟩, ⟨".", false, false, 11, 12, [], []⟩,
         ⟨"identifier", true, false, 12, 16, ["name"], []⟩]⟩,
       ⟨".", false, false, 16, 17, [], []⟩, ⟨"asterisk", true, false, 17, 18, [], []⟩,
       ⟨";", false, false, 18, 19, [], []⟩]⟩,
     ⟨"class_declaration", true, false, 20, 55, [],
      [⟨"class", false, false, 20, 25, [], []⟩, ⟨"identifier", true, false, 26, 27, ["name"], []⟩,
       ⟨"class_body", true, false, 28, 55, [],
        [⟨"\x7b", false, false, 28, 29, [], []⟩, field 30, field 42,
         ⟨"\x7d", false, false, 54, 55, [], []⟩]⟩]⟩]⟩

def scope : ImportScope := .ofProgram tree.source tree.root

theorem features_reversed : tree.PlainTypeNames ∧ .optional ∈ tree.features .builtin ∧
    Feature.canonical (tree.sites.reverse.foldl (Evidence.add .builtin scope tree.source)
      ⟨.none, scope.features .builtin⟩).features = tree.features .builtin := by
  have hplain : tree.PlainTypeNames := by
    unfold SyntaxTree.PlainTypeNames
    decide +kernel
  obtain ⟨hfresh, horder⟩ := SyntaxTree.features_eq_afresh hplain .builtin
  refine ⟨hplain, ?_, horder scope.imports tree.sites.reverse (fun _ => Iff.rfl)
    fun _ => List.mem_reverse⟩
  have hmention : .simple "Optional" ∈ tree.sites.flatMap (Mention.ofSite tree.source) := by
    decide +kernel
  have hhides : scope.hides "Optional" = false := by decide +kernel
  have hoptional : .optional ∈ Mention.features .builtin scope (.simple "Optional") := by
    rw [Mention.features, hhides, if_neg Bool.false_ne_true, RuleTable.builtin,
      RuleTable.simpleFeatures_ofRules]
    decide +kernel
  obtain ⟨s, hs, hm⟩ := List.mem_flatMap.1 hmention
  rw [hfresh, Feature.mem_canonical]
  exact List.mem_append_right _
    (List.mem_flatMap.2 ⟨s, hs, List.mem_flatMap.2 ⟨_, hm, hoptional⟩⟩)

end TwiceNamed

end MinimumRelease
