import MinimumRelease.Proofs.Detect.Dispatch
import MinimumRelease.Proofs.Detect.Evidence
import MinimumRelease.Proofs.Grammar.Search
import MinimumRelease.Proofs.Report.AsWritten

/-! # The grammar and the visitor agree

The release of a tree is found in two ways: by the oldest grammar profile that
accepts it, and by the newest feature that the visitor finds in it. Each
construct has a language feature of the same release, which shows wherever the
construct occurs. So the visitor never asks for less than the grammar does. -/

namespace MinimumRelease

/-- The language feature that an occurrence of the construct shows. -/
def Construct.feature : Construct → Feature
  | .moduleDeclarations => .modules
  | .privateInterfaceMethods => .privateInterfaceMethods
  | .diamondWithAnonymousClass => .diamondWithAnonymous
  | .effectivelyFinalResources => .tryWithEffectivelyFinal
  | .localVariableTypeInference => .var
  | .varLambdaParameters => .varInLambda
  | .switchExpressions => .switchExpressions
  | .multipleCaseLabels => .switchMultipleLabels
  | .yieldStatements => .yield
  | .textBlocks => .textBlocks
  | .records => .records
  | .instanceofPatterns => .patternMatchingInstanceof
  | .localInterfaces => .localInterfaces
  | .localEnums => .localEnums
  | .sealedTypes => .sealedClasses
  | .recordPatterns => .recordPatterns
  | .switchPatterns => .switchPatternMatching
  | .caseNull => .switchNullDefault
  | .unnamedVariables => .unnamedVariables
  | .moduleImports => .moduleImports
  | .flexibleConstructorBodies => .flexibleConstructorBodies
  | .compactSourceFiles => .compactSourceFiles

namespace Site

variable {source : String} {s : Site}

theorem kind_of_varPosition? {p : VarPosition} (h : s.varPosition? source = some p) :
    s.kind = "type_identifier" := by
  unfold varPosition? at h
  split at h
  · next hc => grind
  · cases h

theorem kind_of_isSealedDeclaration (h : s.node.isSealedDeclaration = true) :
    s.kind = "class_declaration" ∨ s.kind = "interface_declaration" := by
  simp only [Node.isSealedDeclaration, Bool.and_eq_true, Bool.or_eq_true, decide_eq_true_eq] at h
  exact h.1

end Site

namespace Construct

theorem release_feature (c : Construct) : c.feature.release = c.allowedSince := by
  cases c <;> rfl

theorem isLibrary_feature (c : Construct) : c.feature.isLibrary = false := by
  cases c <;> rfl

variable {c : Construct} {source : String} {s : Site}

/-- A construct occurs only at nodes where its feature can show. -/
theorem kind_of_occursAt (h : c.occursAt source s = true) : s.kind ∈ c.feature.kinds := by
  cases c with
  | localVariableTypeInference | varLambdaParameters =>
    exact List.mem_singleton.2 (Site.kind_of_varPosition? (of_decide_eq_true h))
  | _ =>
    -- each shape asks for the kind first
    simp only [occursAt, Site.kind, Site.isInterfaceMethod, Site.isSwitchExpression,
      Site.isLateConstructorCall, Site.isCompactSourceMember, Node.hasAnonymousBody,
      Node.isDiamondWithBody, Node.isVariableResource, Node.isArrowRule, Node.hasSeveralLabels,
      Node.isTextBlock, Node.isPatternInstanceof, Node.isSealedDeclaration, Node.hasPatternLabel,
      Node.hasNullLabel, Node.isUnnamed, Bool.and_eq_true, Bool.or_eq_true, decide_eq_true_eq] at h
    simp only [feature, Feature.kinds, Site.kind, List.mem_cons, List.not_mem_nil, or_false]
    grind

/-- A construct occurs if and only if its feature shows. What is `sealed` shows in modifier lists
too. -/
theorem shows_feature_iff (hc : c ≠ .sealedTypes) :
    s.shows source c.feature = true ↔ c.occursAt source s = true := by
  rw [Site.shows_iff]
  refine ⟨fun ⟨hkind, hmeets⟩ => ?_, fun h => ⟨kind_of_occursAt h, ?_⟩⟩
  · cases c with
    | sealedTypes => exact absurd rfl hc
    | moduleDeclarations | yieldStatements | records | recordPatterns =>
      -- the kind says it all
      exact decide_eq_true (List.mem_singleton.1 hkind)
    | localInterfaces | localEnums | moduleImports =>
      exact Bool.and_eq_true_iff.2 ⟨decide_eq_true (List.mem_singleton.1 hkind), hmeets⟩
    | _ => exact hmeets
  · cases c with
    | sealedTypes => exact absurd rfl hc
    | moduleDeclarations | yieldStatements | records | recordPatterns => rfl
    | localInterfaces | localEnums | moduleImports => exact (Bool.and_eq_true_iff.1 h).2
    | _ => exact h

/-- The feature of a construct shows wherever the construct occurs. -/
theorem shows_feature (h : c.occursAt source s = true) : s.shows source c.feature = true := by
  by_cases hc : c = .sealedTypes
  · subst hc
    have hmeets := (Site.meets_of_type source (Site.kind_of_isSealedDeclaration h)).2
    exact Site.shows_iff.2 ⟨kind_of_occursAt h, hmeets.trans h⟩
  · exact (shows_feature_iff hc).2 h

/-- **The arm for a node looks for the feature of every construct that occurs at the node.** -/
theorem feature_mem_formFeatures (h : c.occursAt source s = true) :
    c.feature ∈ s.formFeatures source :=
  Site.mem_formFeatures.2 (shows_feature h)

/-- A construct that occurs is found as a language feature of its release. -/
theorem exists_feature {t : SyntaxTree} (rules : RuleTable) (h : t.Holds c) :
    ∃ f ∈ t.features rules, f.isLibrary = false ∧ f.release = c.allowedSince := by
  obtain ⟨s, hs, ho⟩ := h
  exact ⟨c.feature, t.mem_features_of_form rules hs (feature_mem_formFeatures ho),
    isLibrary_feature c, release_feature c⟩

end Construct

/-! ## The newest release -/

theorem Feature.le_requiredRelease {f : Feature} {fs : List Feature} (floor : Int)
    (h : f ∈ fs) : f.release ≤ Feature.requiredRelease floor fs := by
  have hmem : f.release ∈ fs.map Feature.release := List.mem_map_of_mem h
  obtain ⟨r, hr⟩ : ∃ r, (fs.map Feature.release).max? = some r := by
    rw [← Option.isSome_iff_exists, List.isSome_max?_iff]
    exact List.ne_nil_of_mem hmem
  rw [Feature.requiredRelease, hr]
  exact (List.max?_eq_some_iff.1 hr).2 _ hmem

/-- The language features of a list that has any: their newest release belongs to one of them. -/
theorem Feature.exists_requiredLanguageRelease? {f : Feature} {fs : List Feature} (h : f ∈ fs)
    (hl : f.isLibrary = false) : ∃ f' ∈ fs, f.release ≤ f'.release ∧
      Feature.requiredLanguageRelease? fs = some f'.release := by
  have hmem : f.release ∈ (fs.filter (!·.isLibrary)).map Feature.release :=
    List.mem_map_of_mem (List.mem_filter.2 ⟨h, by simp [hl]⟩)
  obtain ⟨r, hr⟩ : ∃ r, Feature.requiredLanguageRelease? fs = some r := by
    rw [← Option.isSome_iff_exists, Feature.requiredLanguageRelease?, List.isSome_max?_iff]
    exact List.ne_nil_of_mem hmem
  obtain ⟨hin, hle⟩ := List.max?_eq_some_iff.1 hr
  obtain ⟨f', hf', rfl⟩ := List.mem_map.1 hin
  exact ⟨f', (List.mem_filter.1 hf').1, hle _ hmem, hr⟩

theorem SyntaxTree.le_requiredLanguageRelease {t : SyntaxTree} {g : Int} (rules : RuleTable)
    (h : Profiles.builtin.minimumRelease t = .release g) (hg : g ≠ baselineRelease) :
    ∃ f ∈ t.features rules, f.isLibrary = false ∧ g ≤ f.release := by
  obtain ⟨c, hc, hle⟩ := Profiles.exists_construct_of_minimumRelease h hg
  obtain ⟨f, hf, hl, hr⟩ := Construct.exists_feature rules hc
  exact ⟨f, hf, hl, hr ▸ hle⟩

/-- **The visitor asks for no less than the grammar.** At every node where a construct occurs, the
arm of the dispatch that the node falls into finds a language feature of its release. The walk over
a tree keeps it, with any rule table. So a verdict above the baseline is no newer than the newest
language feature, and a report on an unchanged text requires at least the release of its
verdict. -/
theorem language_features_cover_constructs :
    (∀ (source : String) (s : Site) (c : Construct), c.occursAt source s = true →
      ∃ f ∈ s.formFeatures source, f.isLibrary = false ∧ f.release = c.allowedSince) ∧
    (∀ (rules : RuleTable) (t : SyntaxTree) (c : Construct), t.Holds c →
      ∃ f ∈ t.features rules, f.isLibrary = false ∧ f.release = c.allowedSince) ∧
    (∀ (rules : RuleTable) (t : SyntaxTree) (g : Int),
      Profiles.builtin.minimumRelease t = .release g → 8 < g →
        ∃ r, Feature.requiredLanguageRelease? (t.features rules) = some r ∧ g ≤ r) ∧
    (∀ (parser : Parser) (s : AnalysisSettings) (path source : String) (report : FileReport),
      parser.analyze s path source = .ok report → report.recovery.isEmpty = true →
        ∃ g, report.grammarRelease = .release g ∧
          (g = 8 ∨ ∃ r, report.detection.requiredLanguageRelease? = some r ∧ g ≤ r ∧
            r ≤ report.detection.required)) := by
  refine ⟨?_, fun rules t c h => Construct.exists_feature rules h, ?_, ?_⟩
  · intro source s c h
    exact ⟨c.feature, c.feature_mem_formFeatures h, c.isLibrary_feature, c.release_feature⟩
  · intro rules t g h hg
    obtain ⟨f, hf, hl, hle⟩ := SyntaxTree.le_requiredLanguageRelease rules h (Int.ne_of_gt hg)
    obtain ⟨f', -, hff', hr⟩ := Feature.exists_requiredLanguageRelease? hf hl
    exact ⟨f'.release, hr, Int.le_trans hle hff'⟩
  · intro parser s path source report h hempty
    rw [Parser.analyze_eq] at h
    split at h
    · cases h
    · next tree trace hparse =>
      cases h
      obtain ⟨g, hg⟩ := Profiles.exists_builtin_minimumRelease tree
      refine ⟨g, ?_, ?_⟩
      · show (if trace.isEmpty then _ else _) = _
        rw [show trace.isEmpty = true from hempty, if_pos rfl, hg]
      · by_cases hbase : g = 8
        · exact .inl hbase
        · obtain ⟨f, hf, hl, hle⟩ := SyntaxTree.le_requiredLanguageRelease .builtin hg hbase
          have hmem : f ∈ Feature.canonical (tree.features .builtin ++ trace.features) :=
            Feature.mem_canonical.2 (List.mem_append_left _ hf)
          obtain ⟨f', hf', hff', hr⟩ := Feature.exists_requiredLanguageRelease? hmem hl
          exact .inr ⟨f'.release, hr, Int.le_trans hle hff', Feature.le_requiredRelease _ hf'⟩

/-! ## A module -/

namespace ModuleFile

def tree : SyntaxTree where
  source := "module m \x7b \x7d"
  root := ⟨"program", true, false, 0, 12, [],
    [⟨"module_declaration", true, false, 0, 12, [],
      [⟨"module", false, false, 0, 6, [], []⟩,
       ⟨"identifier", true, false, 7, 8, ["name"], []⟩,
       ⟨"module_body", true, false, 9, 12, [],
        [⟨"\x7b", false, false, 9, 10, [], []⟩, ⟨"\x7d", false, false, 11, 12, [], []⟩]⟩]⟩]⟩

def parser : Parser := fun text => if text = tree.source then .ok tree.root else .error .noTree

theorem requires_release_nine :
    (∃ s ∈ tree.sites, s.kind = "module_declaration" ∧
      ∃ f ∈ s.formFeatures tree.source, f.isLibrary = false ∧ f.release = 9) ∧
    (∃ f ∈ tree.features .builtin, f.isLibrary = false ∧ f.release = 9) ∧
    (∃ r, Feature.requiredLanguageRelease? (tree.features .builtin) = some r ∧ 9 ≤ r) ∧
    ∃ report, parser.analyze {} "module-info.java" tree.source = .ok report ∧
      report.recovery.isEmpty = true ∧ ∃ g, report.grammarRelease = .release g ∧
        (g = 8 ∨ ∃ r, report.detection.requiredLanguageRelease? = some r ∧ g ≤ r ∧
          r ≤ report.detection.required) := by
  obtain ⟨hsite, hfeature, hverdict, hreport⟩ := language_features_cover_constructs
  obtain ⟨s, hs, ho⟩ : tree.Holds .moduleDeclarations := by
    have hany : tree.sites.any
        (fun s => Construct.occursAt tree.source s .moduleDeclarations) = true := by
      decide +kernel
    exact List.any_eq_true.1 hany
  refine ⟨⟨s, hs, of_decide_eq_true ho, hsite tree.source s .moduleDeclarations ho⟩,
    hfeature .builtin tree .moduleDeclarations ⟨s, hs, ho⟩,
    hverdict .builtin tree 9 (by decide +kernel) (by decide), ?_⟩
  · have hok : (parser.analyze {} "module-info.java" tree.source).toOption.map
        (·.recovery.isEmpty) = some true := by decide +kernel
    cases h : parser.analyze {} "module-info.java" tree.source with
    | error e =>
      rw [h] at hok
      cases hok
    | ok report =>
      rw [h] at hok
      have hempty : report.recovery.isEmpty = true := Option.some.inj hok
      exact ⟨report, rfl, hempty, hreport parser {} _ _ report h hempty⟩

end ModuleFile

end MinimumRelease
