import MinimumRelease.Proofs.Detect.Dispatch
import MinimumRelease.Proofs.Detect.Resolution
import MinimumRelease.Proofs.Text.Segments

/-! # Which imports hide a bare name

An import of a single name hides the types of that name in the packages that
are imported on demand. So does a static on-demand import, which names a type
without importing it: `import static a.C.*` hides every `C`. No other import
does. A bare type name that no import hides shows all that the packages
imported on demand have under this name, wherever it stands. -/

namespace MinimumRelease

/-! ## Forms of imports -/

/-- The node declares an import, not one of a module, of a name whose last segment is `last`. -/
def Node.ImportsNamed (source : String) (n : Node) (last : String) : Prop :=
  n.kind = "import_declaration" ∧ n.isModuleImport = false ∧
    (n.importName? source).bind (fun name => (Text.segments name.toList).getLast?) =
      some last.toList

theorem Node.importsNamed_iff {source last : String} {n : Node} : n.ImportsNamed source last ↔
    n.kind = "import_declaration" ∧ n.isModuleImport = false ∧
      ∃ name, n.importName? source = some name ∧ Text.lastSegment name.toList = last.toList := by
  simp only [ImportsNamed, Option.bind_eq_some_iff, Text.getLast?_segments, Option.some.injEq]

namespace SyntaxTree

/-- Some import names this one name alone. -/
def ImportsByItself (t : SyntaxTree) (name : String) : Prop :=
  ∃ n ∈ t.root.significant, n.ImportsNamed t.source name ∧ n.isOnDemandImport = false

/-- Some static import names all members of a type of this name. -/
def ImportsMembersOf (t : SyntaxTree) (name : String) : Prop :=
  ∃ n ∈ t.root.significant, n.ImportsNamed t.source name ∧ n.isOnDemandImport = true ∧
    n.isStaticImport = true

/-- Some import names all types of the package. -/
def ImportsOnDemand (t : SyntaxTree) (package : String) : Prop :=
  ∃ n ∈ t.root.significant, n.kind = "import_declaration" ∧ n.isModuleImport = false ∧
    n.importName? t.source = some package ∧ n.isOnDemandImport = true ∧ n.isStaticImport = false

end SyntaxTree

theorem Import.ofNode?_eq_some_iff {source : String} {n : Node} {i : Import} :
    ofNode? source n = some i ↔ n.kind = "import_declaration" ∧ n.isModuleImport = false ∧
      ∃ name, n.importName? source = some name ∧
        i = if n.isOnDemandImport && !n.isStaticImport then .onDemand name else .single name := by
  unfold ofNode?
  split
  · next hdeclares =>
    simp only [Bool.and_eq_true, decide_eq_true_eq, Bool.not_eq_true'] at hdeclares
    rw [Option.map_eq_some_iff]
    simp only [hdeclares, true_and, eq_comm]
  · next hdeclares =>
    simp only [Bool.and_eq_true, decide_eq_true_eq, Bool.not_eq_true', not_and] at hdeclares
    simp only [reduceCtorEq, false_iff, not_and]
    exact fun hkind hmodule => absurd hmodule (hdeclares hkind)

namespace ImportScope

theorem hides_iff {scope : ImportScope} {name : String} : scope.hides name = true ↔
    ∃ full, .single full ∈ scope.imports ∧ Text.lastSegment full.toList = name.toList := by
  rw [hides, List.any_eq_true]
  constructor
  · intro h
    obtain ⟨i, hi, hname⟩ := h
    cases i with
    | single full => exact ⟨full, hi, of_decide_eq_true hname⟩
    | onDemand package => cases hname
  · intro h
    obtain ⟨full, hi, hname⟩ := h
    exact ⟨_, hi, decide_eq_true hname⟩

theorem mem_packages_iff {scope : ImportScope} {package : String} :
    package ∈ scope.packages ↔ package = implicitPackage ∨ .onDemand package ∈ scope.imports := by
  rw [packages, List.mem_cons, List.mem_filterMap]
  refine or_congr_right ⟨fun h => ?_, fun h => ⟨_, h, rfl⟩⟩
  obtain ⟨i, hi, hpackage⟩ := h
  cases i with
  | single full => cases hpackage
  | onDemand p =>
    cases hpackage
    exact hi

variable {t : SyntaxTree}

theorem single_mem_ofProgram_iff {full : String} :
    .single full ∈ (ofProgram t.source t.root).imports ↔ ∃ n ∈ t.root.significant,
      n.kind = "import_declaration" ∧ n.isModuleImport = false ∧
        n.importName? t.source = some full ∧
        (n.isOnDemandImport = false ∨ n.isStaticImport = true) := by
  rw [ofProgram, List.mem_filterMap]
  refine exists_congr fun n => and_congr_right fun _ => ?_
  rw [Import.ofNode?_eq_some_iff]
  refine and_congr_right fun _ => and_congr_right fun _ => ?_
  cases n.isOnDemandImport <;> cases n.isStaticImport <;> simp [eq_comm]

theorem onDemand_mem_ofProgram_iff {package : String} :
    .onDemand package ∈ (ofProgram t.source t.root).imports ↔ t.ImportsOnDemand package := by
  rw [ofProgram, List.mem_filterMap]
  refine exists_congr fun n => and_congr_right fun _ => ?_
  rw [Import.ofNode?_eq_some_iff]
  refine and_congr_right fun _ => and_congr_right fun _ => ?_
  cases n.isOnDemandImport <;> cases n.isStaticImport <;> simp [eq_comm]

/-- A name is hidden by an import of it alone, or by a static import of all members of a type of
that name. -/
theorem hides_ofProgram_iff {name : String} :
    (ofProgram t.source t.root).hides name = true ↔
      t.ImportsByItself name ∨ t.ImportsMembersOf name := by
  simp only [hides_iff, single_mem_ofProgram_iff]
  constructor
  · intro h
    obtain ⟨full, ⟨n, hn, hkind, hmodule, hfull, hform⟩, hname⟩ := h
    have hnamed : n.ImportsNamed t.source name :=
      Node.importsNamed_iff.2 ⟨hkind, hmodule, full, hfull, hname⟩
    cases hdemand : n.isOnDemandImport with
    | false => exact .inl ⟨n, hn, hnamed, hdemand⟩
    | true =>
      rw [hdemand] at hform
      exact .inr ⟨n, hn, hnamed, hdemand, hform.resolve_left Bool.false_ne_true.symm⟩
  · intro h
    obtain ⟨n, hn, hnamed, hform⟩ : ∃ n ∈ t.root.significant, n.ImportsNamed t.source name ∧
          (n.isOnDemandImport = false ∨ n.isStaticImport = true) := by
      rcases h with ⟨n, hn, hnamed, hsingle⟩ | ⟨n, hn, hnamed, -, hstatic⟩
      · exact ⟨n, hn, hnamed, .inl hsingle⟩
      · exact ⟨n, hn, hnamed, .inr hstatic⟩
    obtain ⟨hkind, hmodule, full, hfull, hname⟩ := Node.importsNamed_iff.1 hnamed
    exact ⟨full, ⟨n, hn, hkind, hmodule, hfull, hform⟩, hname⟩

end ImportScope

/-! ## A name that is looked up once -/

/-- The first mention under a name is looked up. If it is the only one, its features are found. -/
theorem Sightings.mem_lookUpAll_of_only {rules : RuleTable} {scope : ImportScope} {f : Feature}
    {m : Mention} {name : String} (hkey : m.key? = some name) (hf : f ∈ m.features rules scope)
    {ms : List Mention} (hm : m ∈ ms) (honly : ∀ m' ∈ ms, m'.key? = some name → m' = m)
    {seen : Sightings} (hnew : name ∉ seen.names) : f ∈ (seen.lookUpAll rules scope ms).1 := by
  induction ms generalizing seen with
  | nil => cases hm
  | cons a ms ih =>
    have honly' : ∀ m' ∈ ms, m'.key? = some name → m' = m := fun m' hm' =>
      honly m' (List.mem_cons_of_mem _ hm')
    rw [mem_lookUpAll_cons]
    by_cases hsame : a.key? = some name
    · obtain rfl := honly a List.mem_cons_self hsame
      rcases lookUp_cases rules scope seen a with ⟨hnone, -⟩ | ⟨k, hk, hseen, -⟩ | ⟨k, hk, -, heq⟩
      · rw [hkey] at hnone
        cases hnone
      · rw [hkey] at hk
        cases hk
        exact absurd hseen hnew
      · rw [heq]
        exact .inl hf
    · -- another name is seen, and the one looked for stays new
      have hmem : m ∈ ms := by
        rcases List.mem_cons.1 hm with rfl | hm
        · exact absurd hkey hsame
        · exact hm
      right
      rcases lookUp_cases rules scope seen a with ⟨-, heq⟩ | ⟨k, -, -, heq⟩ | ⟨k, hk, -, heq⟩ <;>
        rw [heq]
      · exact ih hmem honly' hnew
      · exact ih hmem honly' hnew
      · refine ih hmem honly' fun hseen => ?_
        rcases List.mem_cons.1 hseen with rfl | hseen
        · exact hsame hk
        · exact hnew hseen

/-! ## Bare type names -/

namespace Mention

variable {source name : String} {s : Site}

/-- A type identifier that stands by itself mentions its text as a bare name. -/
theorem ofSite_typeIdentifier (hkind : s.kind = "type_identifier")
    (hbare : s.isUnder "scoped_type_identifier" = false) (hvar : s.node.text source ≠ "var") :
    ofSite source s = [.simple (s.node.text source)] := by
  have hlink : isLink s = false := by simp [isLink, hkind]
  simp [ofSite, hlink, hkind, hbare, hvar]

/-- No bare name is ever mentioned as a qualified one. -/
theorem dot_mem_of_qualified (h : .qualified name ∈ ofSite source s) : '.' ∈ name.toList := by
  by_cases hkind : s.kind = "type_identifier"
  · have hlink : isLink s = false := by simp [isLink, hkind]
    simp only [ofSite, hlink, hkind, Bool.false_eq_true, if_false, if_true] at h
    split at h
    · cases h
    · cases List.mem_singleton.1 h
  · exact proper_of_mem_ofSite (fun h => absurd h hkind) h

end Mention

namespace SyntaxTree

variable {t : SyntaxTree} {name : String}

/-- A bare name that no import hides shows what the packages imported on demand have under it. -/
theorem mem_features_of_simple {f : Feature} {rules : RuleTable} {s : Site} (hs : s ∈ t.sites)
    (hmention : .simple name ∈ Mention.ofSite t.source s) (hdot : '.' ∉ name.toList)
    (hhides : (ImportScope.ofProgram t.source t.root).hides name = false)
    (hf : f ∈ rules.simpleFeatures name (ImportScope.ofProgram t.source t.root).packages) :
    f ∈ t.features rules := by
  have hfound : f ∈ (Mention.simple name).features rules
      (ImportScope.ofProgram t.source t.root) := by
    rwa [Mention.features, hhides, if_neg Bool.false_ne_true]
  refine (t.mem_features_iff rules).2 (.inr (.inr ?_))
  refine Sightings.mem_lookUpAll_of_only rfl hfound (List.mem_flatMap.2 ⟨s, hs, hmention⟩) ?_
    List.not_mem_nil
  intro m hm hkey
  obtain ⟨s', -, hm⟩ := List.mem_flatMap.1 hm
  cases m with
  | qualified q =>
    cases hkey
    exact absurd (Mention.dot_mem_of_qualified hm) hdot
  | simple q =>
    cases hkey
    rfl
  | call receiver method => cases hkey

/-- **A bare type name shows all that the on-demand imports have under it, unless an import hides
it.** Imports of this one name hide it, and so do static imports of all members of a type of this
name; no other import does. Each name is looked up once, and no qualified name takes the place of
one without a dot. -/
theorem features_of_bareName (t : SyntaxTree) (rules : RuleTable) (name : String) :
    let scope := ImportScope.ofProgram t.source t.root
    (scope.hides name = true ↔ t.ImportsByItself name ∨ t.ImportsMembersOf name) ∧
    (∀ package, package ∈ scope.packages ↔ package = "java.lang" ∨ t.ImportsOnDemand package) ∧
    ∀ s ∈ t.sites, s.kind = "type_identifier" → s.isUnder "scoped_type_identifier" = false →
      s.node.text t.source = name → name ≠ "var" →
      (scope.hides name = true → s.usageFeatures rules scope t.source = []) ∧
      (¬ t.ImportsByItself name → ¬ t.ImportsMembersOf name →
        s.usageFeatures rules scope t.source = rules.simpleFeatures name scope.packages ∧
        ('.' ∉ name.toList → ∀ f ∈ rules.simpleFeatures name scope.packages,
          f ∈ t.features rules)) := by
  intro scope
  refine ⟨ImportScope.hides_ofProgram_iff, fun package => ?_, ?_⟩
  · rw [ImportScope.mem_packages_iff, ImportScope.onDemand_mem_ofProgram_iff]
    rfl
  · intro s hs hkind hbare htext hvar
    have hmentions := Mention.ofSite_typeIdentifier hkind hbare (htext ▸ hvar)
    rw [htext] at hmentions
    rw [Site.usageFeatures, hmentions, List.flatMap_singleton, Mention.features]
    refine ⟨fun hhides => if_pos hhides, fun hself hmembers => ?_⟩
    have hhides : scope.hides name = false := by
      rw [← Bool.not_eq_true, ImportScope.hides_ofProgram_iff, not_or]
      exact ⟨hself, hmembers⟩
    refine ⟨if_neg (Bool.eq_false_iff.1 hhides), fun hdot f hf => ?_⟩
    have hmention : .simple name ∈ Mention.ofSite t.source s := by
      rw [hmentions]
      exact List.mem_singleton_self _
    exact mem_features_of_simple hs hmention hdot hhides hf

end SyntaxTree

/-! ## A type of which only the members are imported -/

theorem mem_simpleFeatures_optional :
    .optional ∈ RuleTable.builtin.simpleFeatures "Optional" ["java.lang", "java.util"] := by
  rw [RuleTable.builtin, RuleTable.simpleFeatures_ofRules]
  decide +kernel

namespace TwiceNamed

theorem shows_optional : ¬ tree.ImportsByItself "Optional" ∧ ¬ tree.ImportsMembersOf "Optional" ∧
    .optional ∈ RuleTable.builtin.simpleFeatures "Optional" scope.packages ∧
    .optional ∈ tree.features .builtin := by
  obtain ⟨-, -, hbare⟩ := tree.features_of_bareName .builtin "Optional"
  have hsite : ∃ s ∈ tree.sites, s.kind = "type_identifier" ∧
      s.isUnder "scoped_type_identifier" = false ∧ s.node.text tree.source = "Optional" := by
    decide +kernel
  have hself : ¬ tree.ImportsByItself "Optional" := by
    unfold SyntaxTree.ImportsByItself Node.ImportsNamed
    decide +kernel
  have hmembers : ¬ tree.ImportsMembersOf "Optional" := by
    unfold SyntaxTree.ImportsMembersOf Node.ImportsNamed
    decide +kernel
  have hpackages : scope.packages = ["java.lang", "java.util"] := by decide +kernel
  have hoptional : .optional ∈ RuleTable.builtin.simpleFeatures "Optional" scope.packages :=
    hpackages ▸ mem_simpleFeatures_optional
  obtain ⟨s, hs, hkind, hunder, htext⟩ := hsite
  exact ⟨hself, hmembers, hoptional,
    ((hbare s hs hkind hunder htext (by decide)).2 hself hmembers).2 (by decide) _ hoptional⟩

end TwiceNamed

namespace MembersOnly

def tree : SyntaxTree where
  source := "import static a.Optional.*; import java.util.*; class A \x7b Optional a; \x7d"
  root := ⟨"program", true, false, 0, 71, [],
    [⟨"import_declaration", true, false, 0, 27, [],
      [⟨"import", false, false, 0, 6, [], []⟩, ⟨"static", false, false, 7, 13, [], []⟩,
       ⟨"scoped_identifier", true, false, 14, 24, [],
        [⟨"identifier", true, false, 14, 15, [], []⟩, ⟨".", false, false, 15, 16, [], []⟩,
         ⟨"identifier", true, false, 16, 24, ["name"], []⟩]⟩,
       ⟨".", false, false, 24, 25, [], []⟩, ⟨"asterisk", true, false, 25, 26, [], []⟩,
       ⟨";", false, false, 26, 27, [], []⟩]⟩,
     ⟨"import_declaration", true, false, 28, 47, [],
      [⟨"import", false, false, 28, 34, [], []⟩,
       ⟨"scoped_identifier", true, false, 35, 44, [],
        [⟨"identifier", true, false, 35, 39, [], []⟩, ⟨".", false, false, 39, 40, [], []⟩,
         ⟨"identifier", true, false, 40, 44, ["name"], []⟩]⟩,
       ⟨".", false, false, 44, 45, [], []⟩, ⟨"asterisk", true, false, 45, 46, [], []⟩,
       ⟨";", false, false, 46, 47, [], []⟩]⟩,
     ⟨"class_declaration", true, false, 48, 71, [],
      [⟨"class", false, false, 48, 53, [], []⟩, ⟨"identifier", true, false, 54, 55, ["name"], []⟩,
       ⟨"class_body", true, false, 56, 71, [],
        [⟨"\x7b", false, false, 56, 57, [], []⟩, TwiceNamed.field 58,
         ⟨"\x7d", false, false, 70, 71, [], []⟩]⟩]⟩]⟩

def scope : ImportScope := .ofProgram tree.source tree.root

/-- `Optional` is imported on demand and by no single import, and still it is hidden. -/
theorem hides_optional : ¬ tree.ImportsByItself "Optional" ∧ scope.hides "Optional" = true ∧
    .optional ∈ RuleTable.builtin.simpleFeatures "Optional" scope.packages ∧
    .optional ∉ tree.features .builtin := by
  have hhides : scope.hides "Optional" = true := by decide +kernel
  have himports : scope.imports = [.single "a.Optional", .onDemand "java.util"] := by
    decide +kernel
  have hpackages : scope.packages = ["java.lang", "java.util"] := by decide +kernel
  have hmentions : tree.sites.flatMap (Mention.ofSite tree.source) = [.simple "Optional"] := by
    decide +kernel
  refine ⟨?_, hhides, hpackages ▸ mem_simpleFeatures_optional, fun h => ?_⟩
  · unfold SyntaxTree.ImportsByItself Node.ImportsNamed
    decide +kernel
  · rcases (tree.mem_features_iff _).1 h with h | ⟨s, -, h⟩ | h
    · change _ ∈ scope.features .builtin at h
      rw [ImportScope.features, himports, RuleTable.builtin] at h
      simp only [List.flatMap_cons, List.flatMap_nil, Import.features,
        RuleTable.importFeatures_ofRules, RuleTable.onDemandFeatures_ofRules] at h
      revert h
      decide +kernel
    · cases Site.isLibrary_of_mem_formFeatures h
    · obtain ⟨m, hm, h⟩ := Sightings.exists_of_mem_lookUpAll h
      rw [hmentions, List.mem_singleton] at hm
      subst hm
      change _ ∈ (Mention.simple "Optional").features .builtin scope at h
      rw [Mention.features, if_pos hhides] at h
      cases h

end MembersOnly

end MinimumRelease
