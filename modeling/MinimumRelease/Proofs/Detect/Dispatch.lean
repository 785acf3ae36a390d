import MinimumRelease.Detect.Form

/-! # Where each feature shows

The visitor goes by the kind of a node: the first arm for the kind says which
features to look for. The table here goes the other way. It says for each
feature at which kinds of node it can show (`Feature.kinds`) and what else has
to hold there (`Site.meets`). An arm that takes a kind away from a later one, or
that forgets a feature, would make the two differ. They agree on every node
(`Site.mem_formFeatures`): the arms are gone through one by one, and each looks
for just the features of its kind. -/

namespace MinimumRelease

open Feature (shown)

namespace Feature

/-- The kinds of the nodes at which a feature can show. No form shows a library feature. -/
def kinds : Feature → List String
  | .innerClasses => ["class_declaration", "interface_declaration", "object_creation_expression"]
  | .reflection => ["class_literal"]
  | .strictfp | .repeatingAnnotations => ["modifiers"]
  | .assert => ["assert_statement"]
  | .generics => ["type_parameters", "type_arguments"]
  | .enums | .localEnums => ["enum_declaration"]
  | .annotations => ["annotation_type_declaration", "annotation", "marker_annotation"]
  | .varargs => ["spread_parameter"]
  | .forEach => ["enhanced_for_statement"]
  | .staticImport | .moduleImports => ["import_declaration"]
  | .autoboxing => ["variable_declarator", "method_invocation"]
  | .diamondOperator => ["type_arguments"]
  | .tryWithResources => ["try_with_resources_statement"]
  | .multiCatch => ["catch_type"]
  | .binaryLiterals | .underscoresInLiterals => integerLiterals
  | .stringsInSwitch | .switchMultipleLabels | .switchNullDefault => ["switch_label"]
  | .lambdas => ["lambda_expression"]
  | .methodReferences => ["method_reference"]
  | .defaultInterfaceMethods | .staticInterfaceMethods | .privateInterfaceMethods =>
    ["method_declaration"]
  | .typeAnnotations => ["annotation", "marker_annotation"]
  | .modules => ["module_declaration"]
  | .tryWithEffectivelyFinal => ["resource"]
  | .diamondWithAnonymous => ["object_creation_expression"]
  | .var | .varInLambda => ["type_identifier"]
  | .switchExpressions => ["switch_expression", "switch_rule"]
  | .yield => ["yield_statement"]
  | .textBlocks => ["text_block", "string_literal"]
  | .records | .localRecords => ["record_declaration"]
  | .patternMatchingInstanceof => ["instanceof_expression"]
  | .localInterfaces => ["interface_declaration"]
  | .sealedClasses => ["class_declaration", "interface_declaration", "modifiers"]
  | .recordPatterns => ["record_pattern"]
  | .switchPatternMatching => ["switch_label", "guard"]
  | .unnamedVariables => ["underscore_pattern", "identifier"]
  | .markdownDocComments => ["line_comment"]
  | .flexibleConstructorBodies => ["explicit_constructor_invocation"]
  | .compactSourceFiles => ["method_declaration", "field_declaration"]
  | _ => []

/-- The features that can show at nodes of a kind. -/
def ofKind (kind : String) : List Feature := all.filter (kind ∈ ·.kinds)

/-- The table turned around: what there is to look for at each kind with an arm of its own. -/
theorem ofKind_arms :
    ofKind "class_declaration" = [.innerClasses, .sealedClasses] ∧
    ofKind "interface_declaration" = [.innerClasses, .localInterfaces, .sealedClasses] ∧
    ofKind "enum_declaration" = [.enums, .localEnums] ∧
    ofKind "record_declaration" = [.records, .localRecords] ∧
    ofKind "annotation_type_declaration" = [.annotations] ∧
    ofKind "module_declaration" = [.modules] ∧
    ofKind "object_creation_expression" = [.innerClasses, .diamondWithAnonymous] ∧
    ofKind "modifiers" = [.strictfp, .repeatingAnnotations, .sealedClasses] ∧
    ofKind "method_declaration" = [.defaultInterfaceMethods, .staticInterfaceMethods,
      .privateInterfaceMethods, .compactSourceFiles] ∧
    ofKind "field_declaration" = [.compactSourceFiles] ∧
    ofKind "explicit_constructor_invocation" = [.flexibleConstructorBodies] ∧
    ofKind "import_declaration" = [.staticImport, .moduleImports] ∧
    ofKind "class_literal" = [.reflection] ∧
    ofKind "assert_statement" = [.assert] ∧
    ofKind "type_parameters" = [.generics] ∧
    ofKind "type_arguments" = [.generics, .diamondOperator] ∧
    ofKind "marker_annotation" = [.annotations, .typeAnnotations] ∧
    ofKind "annotation" = [.annotations, .typeAnnotations] ∧
    ofKind "spread_parameter" = [.varargs] ∧
    ofKind "enhanced_for_statement" = [.forEach] ∧
    ofKind "variable_declarator" = [.autoboxing] ∧
    ofKind "method_invocation" = [.autoboxing] ∧
    ofKind "try_with_resources_statement" = [.tryWithResources] ∧
    ofKind "resource" = [.tryWithEffectivelyFinal] ∧
    ofKind "catch_type" = [.multiCatch] ∧
    ofKind "lambda_expression" = [.lambdas] ∧
    ofKind "method_reference" = [.methodReferences] ∧
    ofKind "type_identifier" = [.var, .varInLambda] ∧
    ofKind "switch_expression" = [.switchExpressions] ∧
    ofKind "switch_rule" = [.switchExpressions] ∧
    ofKind "switch_label" = [.stringsInSwitch, .switchMultipleLabels, .switchPatternMatching,
      .switchNullDefault] ∧
    ofKind "guard" = [.switchPatternMatching] ∧
    ofKind "yield_statement" = [.yield] ∧
    ofKind "instanceof_expression" = [.patternMatchingInstanceof] ∧
    ofKind "record_pattern" = [.recordPatterns] ∧
    ofKind "line_comment" = [.markdownDocComments] := by
  decide +kernel

theorem mem_shown {f : Feature} {rows : List (Feature × Bool)} :
    f ∈ shown rows ↔ (f, true) ∈ rows := by
  simp [shown]

end Feature

namespace Site

/-- What has to hold for a feature to show, beside the kind of the node. -/
def meets (source : String) (s : Site) : Feature → Bool
  | .innerClasses =>
    if s.kind = "object_creation_expression" then s.node.hasAnonymousBody else !s.isTopLevel
  | .strictfp => s.node.hasChild "strictfp"
  | .generics => !s.node.isDiamond
  | .staticImport => s.node.isStaticImport
  | .autoboxing => s.isBoxingDeclarator source || s.node.isBoxingCall source
  | .diamondOperator => s.node.isDiamond
  | .multiCatch => s.node.isMultiCatch
  | .binaryLiterals => s.node.isBinaryLiteral source
  | .underscoresInLiterals => s.node.hasLiteralUnderscore source
  | .stringsInSwitch => s.node.hasStringLabel
  | .defaultInterfaceMethods => s.isInterfaceMethod && s.node.hasModifier "default"
  | .staticInterfaceMethods => s.isInterfaceMethod && s.node.hasModifier "static"
  | .repeatingAnnotations => s.node.hasRepeatedAnnotations source
  | .typeAnnotations => s.isTypeUseMarkup
  | .privateInterfaceMethods => s.isInterfaceMethod && s.node.hasModifier "private"
  | .tryWithEffectivelyFinal => s.node.isVariableResource
  | .diamondWithAnonymous => s.node.isDiamondWithBody
  | .var => s.varPosition? source = some .localVariable
  | .varInLambda => s.varPosition? source = some .lambdaParameter
  | .switchExpressions => s.isSwitchExpression || s.node.isArrowRule
  | .switchMultipleLabels => s.node.hasSeveralLabels
  | .textBlocks => s.node.isTextBlock source
  | .patternMatchingInstanceof => s.node.isPatternInstanceof
  | .localInterfaces | .localEnums | .localRecords => s.isInExecutableCode
  | .sealedClasses =>
    if s.kind = "modifiers" then s.node.hasChild "sealed" || s.node.hasChild "non-sealed"
    else s.node.isSealedDeclaration
  | .switchPatternMatching => s.node.hasPatternLabel || s.kind = "guard"
  | .switchNullDefault => s.node.hasNullLabel
  | .unnamedVariables => s.node.isUnnamed source
  | .markdownDocComments => s.node.isMarkdownComment source
  | .moduleImports => s.node.isModuleImport
  | .flexibleConstructorBodies => s.isLateConstructorCall
  | .compactSourceFiles => s.isCompactSourceMember
  | _ => true

/-- Whether the form of the node at a site shows a feature. -/
def shows (source : String) (s : Site) (f : Feature) : Bool :=
  f.kinds.contains s.kind && s.meets source f

variable {source : String} {s : Site} {f : Feature}

theorem shows_iff : s.shows source f = true ↔ s.kind ∈ f.kinds ∧ s.meets source f = true := by
  simp [shows]

/-- At a node of a given kind, the features of that kind show if their conditions hold. -/
theorem shows_iff_of_kind {kind : String} {fs : List Feature} (hk : s.kind = kind)
    (hfs : Feature.ofKind kind = fs) :
    s.shows source f = true ↔ f ∈ fs ∧ s.meets source f = true := by
  rw [shows_iff, hk, ← hfs, Feature.ofKind, List.mem_filter, decide_eq_true_iff]
  simp only [f.mem_all, true_and]

/-- An arm with one feature that nothing else is asked of. -/
theorem mem_single {kind : String} {g : Feature} (hk : s.kind = kind)
    (hg : Feature.ofKind kind = [g]) (hmeets : s.meets source g = true) :
    f ∈ [g] ↔ s.shows source f = true := by
  rw [shows_iff_of_kind hk hg, List.mem_singleton]
  exact ⟨fun h => ⟨h, h ▸ hmeets⟩, And.left⟩

/-- An arm that looks for the features of its kind, each with its condition. -/
theorem mem_rows {kind : String} {fs : List Feature} (hk : s.kind = kind)
    (hfs : Feature.ofKind kind = fs) {rows : List (Feature × Bool)}
    (hrows : fs.map (fun g => (g, s.meets source g)) = rows) :
    f ∈ shown rows ↔ s.shows source f = true := by
  rw [shows_iff_of_kind hk hfs, Feature.mem_shown, ← hrows, List.mem_map]
  constructor
  · intro ⟨g, hg, heq⟩
    obtain ⟨rfl, hmeets⟩ := Prod.mk.inj heq
    exact ⟨hg, hmeets⟩
  · intro ⟨hf, hmeets⟩
    exact ⟨f, hf, by rw [hmeets]⟩

/-! ## Arms whose conditions depend on the kind -/

theorem meets_of_type (source : String)
    (hk : s.kind = "class_declaration" ∨ s.kind = "interface_declaration") :
    s.meets source .innerClasses = !s.isTopLevel ∧
      s.meets source .sealedClasses = s.node.isSealedDeclaration := by
  constructor
  · exact if_neg (by rcases hk with hk | hk <;> simp [hk])
  · exact if_neg (by rcases hk with hk | hk <;> simp [hk])

theorem mem_class (hk : s.kind = "class_declaration")
    (hfs : Feature.ofKind "class_declaration" = [.innerClasses, .sealedClasses]) :
    f ∈ shown [(.innerClasses, !s.isTopLevel), (.sealedClasses, s.node.isSealedDeclaration),
        (.localInterfaces, s.kind = "interface_declaration" && s.isInExecutableCode)] ↔
      s.shows source f = true := by
  obtain ⟨hinner, hsealed⟩ := meets_of_type source (.inl hk)
  rw [← mem_rows hk hfs rfl]
  simp [Feature.mem_shown, hinner, hsealed, hk]

theorem mem_interface (hk : s.kind = "interface_declaration")
    (hfs : Feature.ofKind "interface_declaration" = [.innerClasses, .localInterfaces,
      .sealedClasses]) :
    f ∈ shown [(.innerClasses, !s.isTopLevel), (.sealedClasses, s.node.isSealedDeclaration),
        (.localInterfaces, s.kind = "interface_declaration" && s.isInExecutableCode)] ↔
      s.shows source f = true := by
  obtain ⟨hinner, hsealed⟩ := meets_of_type source (.inr hk)
  have hlocal : s.meets source .localInterfaces = s.isInExecutableCode := rfl
  rw [← mem_rows hk hfs rfl]
  simp [Feature.mem_shown, hinner, hsealed, hlocal, hk, or_comm]

theorem mem_creation (hk : s.kind = "object_creation_expression")
    (hfs : Feature.ofKind "object_creation_expression" = [.innerClasses, .diamondWithAnonymous]) :
    f ∈ shown [(.innerClasses, s.node.hasAnonymousBody),
        (.diamondWithAnonymous, s.node.isDiamondWithBody)] ↔ s.shows source f = true := by
  have hinner : s.meets source .innerClasses = s.node.hasAnonymousBody := if_pos hk
  exact mem_rows hk hfs (congrArg (fun b => [(_, b), _]) hinner)

theorem mem_typeArguments (hk : s.kind = "type_arguments")
    (hfs : Feature.ofKind "type_arguments" = [.generics, .diamondOperator]) :
    (f ∈ if s.node.isDiamond then [Feature.diamondOperator] else [.generics]) ↔
      s.shows source f = true := by
  rw [← mem_rows hk hfs rfl, Feature.mem_shown]
  show _ ↔ (f, true) ∈ [(_, !s.node.isDiamond), (_, s.node.isDiamond)]
  cases s.node.isDiamond <;> simp

theorem mem_typeParameters (hk : s.kind = "type_parameters")
    (hfs : Feature.ofKind "type_parameters" = [.generics]) :
    f ∈ [Feature.generics] ↔ s.shows source f = true := by
  have hdiamond : s.node.isDiamond = false := by
    simp [Node.isDiamond, show s.node.kind = _ from hk]
  exact mem_single hk hfs (congrArg (!·) hdiamond)

theorem mem_declarator (hk : s.kind = "variable_declarator")
    (hfs : Feature.ofKind "variable_declarator" = [.autoboxing]) :
    f ∈ shown [(.autoboxing, s.isBoxingDeclarator source)] ↔ s.shows source f = true := by
  have hcall : s.node.isBoxingCall source = false := by
    simp [Node.isBoxingCall, show s.node.kind = _ from hk]
  have hmeets : s.meets source .autoboxing = s.isBoxingDeclarator source := by
    show (_ || _) = _
    rw [hcall, Bool.or_false]
  exact mem_rows hk hfs (congrArg (fun b => [(_, b)]) hmeets)

theorem mem_call (hk : s.kind = "method_invocation")
    (hfs : Feature.ofKind "method_invocation" = [.autoboxing]) :
    f ∈ shown [(.autoboxing, s.node.isBoxingCall source)] ↔ s.shows source f = true := by
  have hmeets : s.meets source .autoboxing = s.node.isBoxingCall source := by
    show (s.isBoxingDeclarator source || _) = _
    simp [isBoxingDeclarator, hk]
  exact mem_rows hk hfs (congrArg (fun b => [(_, b)]) hmeets)

theorem mem_typeIdentifier (hk : s.kind = "type_identifier")
    (hfs : Feature.ofKind "type_identifier" = [.var, .varInLambda]) :
    (f ∈ match s.varPosition? source with
      | some .localVariable => [Feature.var]
      | some .lambdaParameter => [.varInLambda]
      | none => []) ↔ s.shows source f = true := by
  rw [← mem_rows hk hfs rfl, Feature.mem_shown]
  show _ ↔ (f, true) ∈ [(_, decide (s.varPosition? source = _)),
    (_, decide (s.varPosition? source = _))]
  cases s.varPosition? source with
  | none => simp
  | some position => cases position <;> simp

theorem mem_switch (hk : s.kind = "switch_expression")
    (hfs : Feature.ofKind "switch_expression" = [.switchExpressions]) :
    f ∈ shown [(.switchExpressions, s.isSwitchExpression)] ↔ s.shows source f = true := by
  have hmeets : s.meets source .switchExpressions = s.isSwitchExpression := by
    show (_ || s.node.isArrowRule) = _
    simp [Node.isArrowRule, show s.node.kind = _ from hk]
  exact mem_rows hk hfs (congrArg (fun b => [(_, b)]) hmeets)

theorem mem_rule (hk : s.kind = "switch_rule")
    (hfs : Feature.ofKind "switch_rule" = [.switchExpressions]) :
    f ∈ [Feature.switchExpressions] ↔ s.shows source f = true := by
  refine mem_single hk hfs ?_
  show (_ || s.node.isArrowRule) = true
  simp [Node.isArrowRule, show s.node.kind = _ from hk]

theorem mem_label (hk : s.kind = "switch_label")
    (hfs : Feature.ofKind "switch_label" = [.stringsInSwitch, .switchMultipleLabels,
      .switchPatternMatching, .switchNullDefault]) :
    f ∈ s.node.labelFeatures ↔ s.shows source f = true := by
  have hmeets : s.meets source .switchPatternMatching = s.node.hasPatternLabel := by
    show (_ || decide (s.kind = "guard")) = _
    simp [hk]
  exact mem_rows hk hfs (congrArg (fun b => [_, _, (_, b), _]) hmeets)

theorem mem_guard (hk : s.kind = "guard")
    (hfs : Feature.ofKind "guard" = [.switchPatternMatching]) :
    f ∈ [Feature.switchPatternMatching] ↔ s.shows source f = true := by
  refine mem_single hk hfs ?_
  show (_ || decide (s.kind = "guard")) = true
  rw [hk, decide_eq_true rfl, Bool.or_true]

/-! ## Modifiers -/

theorem mem_keywordFeatures {n : Node} : f ∈ n.keywordFeatures ↔
    (f = .strictfp ∧ n.kind = "strictfp") ∨
      (f = .sealedClasses ∧ (n.kind = "sealed" ∨ n.kind = "non-sealed")) := by
  unfold Node.keywordFeatures
  split <;> simp_all

/-- The loop over the modifiers finds each keyword wherever it stands. -/
theorem mem_modifierFeatures {n : Node} : f ∈ n.modifierFeatures source ↔
    (f = .strictfp ∧ n.hasChild "strictfp" = true) ∨
      (f = .sealedClasses ∧ (n.hasChild "sealed" = true ∨ n.hasChild "non-sealed" = true)) ∨
      (f = .repeatingAnnotations ∧ n.hasRepeatedAnnotations source = true) := by
  have hloop : ∀ ns : List Node, f ∈ ns.flatMap Node.keywordFeatures ↔
      (f = .strictfp ∧ ns.any (·.kind = "strictfp") = true) ∨
        (f = .sealedClasses ∧
          (ns.any (·.kind = "sealed") = true ∨ ns.any (·.kind = "non-sealed") = true)) := by
    intro ns
    induction ns with
    | nil => simp
    | cons n ns ih =>
      rw [List.flatMap_cons, List.mem_append, mem_keywordFeatures, ih]
      simp only [List.any_cons, Bool.or_eq_true, decide_eq_true_eq]
      grind
  rw [Node.modifierFeatures, List.mem_append, hloop, Feature.mem_shown, or_assoc]
  simp [Node.hasChild]

theorem mem_modifiers (hk : s.kind = "modifiers")
    (hfs : Feature.ofKind "modifiers" = [.strictfp, .repeatingAnnotations, .sealedClasses]) :
    f ∈ s.node.modifierFeatures source ↔ s.shows source f = true := by
  have hsealed : s.meets source .sealedClasses =
      (s.node.hasChild "sealed" || s.node.hasChild "non-sealed") := if_pos hk
  have hstrict : s.meets source .strictfp = s.node.hasChild "strictfp" := rfl
  have hrepeated : s.meets source .repeatingAnnotations =
      s.node.hasRepeatedAnnotations source := rfl
  rw [← mem_rows hk hfs rfl, mem_modifierFeatures, Feature.mem_shown]
  simp [hsealed, hstrict, hrepeated, or_comm]

/-! ## All other nodes -/

/-- The kinds that have an arm of their own. -/
def armKinds : List String :=
  ["class_declaration", "interface_declaration", "enum_declaration", "record_declaration",
   "annotation_type_declaration", "module_declaration", "object_creation_expression", "modifiers",
   "method_declaration", "field_declaration", "explicit_constructor_invocation",
   "import_declaration", "class_literal", "assert_statement", "type_parameters", "type_arguments",
   "marker_annotation", "annotation", "spread_parameter", "enhanced_for_statement",
   "variable_declarator", "method_invocation", "try_with_resources_statement", "resource",
   "catch_type", "lambda_expression", "method_reference", "type_identifier", "switch_expression",
   "switch_rule", "switch_label", "guard", "yield_statement", "instanceof_expression",
   "record_pattern", "line_comment"]

/-- The features that show at nodes without an arm of their own. -/
def plainFeatures : List Feature :=
  [.binaryLiterals, .underscoresInLiterals, .textBlocks, .unnamedVariables]

theorem kinds_subset_armKinds : ∀ g ∈ Feature.all, g ∉ plainFeatures → g.kinds ⊆ armKinds := by
  decide +kernel

theorem kind_of_isTextBlock (h : s.node.isTextBlock source = true) :
    s.kind ∈ Feature.textBlocks.kinds := by
  show s.node.kind ∈ ["text_block", "string_literal"]
  simp only [Node.isTextBlock, Bool.or_eq_true, Bool.and_eq_true, decide_eq_true_eq] at h
  rcases h with h | h <;> simp [h]

theorem kind_of_isUnnamed (h : s.node.isUnnamed source = true) :
    s.kind ∈ Feature.unnamedVariables.kinds := by
  show s.node.kind ∈ ["underscore_pattern", "identifier"]
  simp only [Node.isUnnamed, Bool.or_eq_true, Bool.and_eq_true, decide_eq_true_eq] at h
  rcases h with h | h <;> simp [h]

theorem mem_plain (hk : s.kind ∉ armKinds) :
    f ∈ shown [(.textBlocks, s.node.isTextBlock source),
        (.unnamedVariables, s.node.isUnnamed source),
        (.binaryLiterals, integerLiterals.contains s.kind && s.node.isBinaryLiteral source),
        (.underscoresInLiterals,
          integerLiterals.contains s.kind && s.node.hasLiteralUnderscore source)] ↔
      s.shows source f = true := by
  rw [shows_iff, Feature.mem_shown]
  constructor
  · intro h
    simp only [List.mem_cons, Prod.mk.injEq, List.not_mem_nil, or_false, Bool.true_eq,
      Bool.and_eq_true, List.contains_iff_mem] at h
    rcases h with ⟨rfl, h⟩ | ⟨rfl, h⟩ | ⟨rfl, h⟩ | ⟨rfl, h⟩
    · exact ⟨kind_of_isTextBlock h, h⟩
    · exact ⟨kind_of_isUnnamed h, h⟩
    · exact h
    · exact h
  · intro ⟨hkind, hmeets⟩
    have hf : f ∈ plainFeatures := by
      refine Decidable.byContradiction fun hf => hk ?_
      exact kinds_subset_armKinds f f.mem_all hf hkind
    simp only [plainFeatures, List.mem_cons, List.not_mem_nil, or_false] at hf
    rcases hf with rfl | rfl | rfl | rfl
    · simp [show s.kind ∈ integerLiterals from hkind,
        show s.node.isBinaryLiteral source = true from hmeets]
    · simp [show s.kind ∈ integerLiterals from hkind,
        show s.node.hasLiteralUnderscore source = true from hmeets]
    · simp [show s.node.isTextBlock source = true from hmeets]
    · simp [show s.node.isUnnamed source = true from hmeets]

/-! ## The dispatch as a whole -/

/-- **The dispatch finds each feature where the table says that it shows**, and no other. -/
theorem mem_formFeatures : f ∈ s.formFeatures source ↔ s.shows source f = true := by
  obtain ⟨hclass, hinterface, henum, hrecord, hannotationType, hmodule, hcreation, hmodifiers,
      hmethod, hfield, hconstructorCall, himport, hclassLiteral, hassert, htypeParameters,
      htypeArguments, hmarker, hannotation, hspread, hforEach, hdeclarator, hcall, htryWith,
      hresource, hcatch, hlambda, hreference, htypeIdentifier, hswitch, hrule, hlabel, hguard,
      hyield, hinstanceof, hrecordPattern, hcomment⟩ := Feature.ofKind_arms
  unfold formFeatures
  split
  · next hk => exact mem_class hk hclass
  · next hk => exact mem_interface hk hinterface
  · next hk => exact mem_rows hk henum rfl
  · next hk => exact mem_rows hk hrecord rfl
  · next hk => exact mem_single hk hannotationType rfl
  · next hk => exact mem_single hk hmodule rfl
  · next hk => exact mem_creation hk hcreation
  · next hk => exact mem_modifiers hk hmodifiers
  · next hk => exact mem_rows hk hmethod rfl
  · next hk => exact mem_rows hk hfield rfl
  · next hk => exact mem_rows hk hconstructorCall rfl
  · next hk => exact mem_rows hk himport rfl
  · next hk => exact mem_single hk hclassLiteral rfl
  · next hk => exact mem_single hk hassert rfl
  · next hk => exact mem_typeParameters hk htypeParameters
  · next hk => exact mem_typeArguments hk htypeArguments
  · next hk => exact mem_rows hk hmarker rfl
  · next hk => exact mem_rows hk hannotation rfl
  · next hk => exact mem_single hk hspread rfl
  · next hk => exact mem_single hk hforEach rfl
  · next hk => exact mem_declarator hk hdeclarator
  · next hk => exact mem_call hk hcall
  · next hk => exact mem_single hk htryWith rfl
  · next hk => exact mem_rows hk hresource rfl
  · next hk => exact mem_rows hk hcatch rfl
  · next hk => exact mem_single hk hlambda rfl
  · next hk => exact mem_single hk hreference rfl
  · next hk => exact mem_typeIdentifier hk htypeIdentifier
  · next hk => exact mem_switch hk hswitch
  · next hk => exact mem_rule hk hrule
  · next hk => exact mem_label hk hlabel
  · next hk => exact mem_guard hk hguard
  · next hk => exact mem_single hk hyield rfl
  · next hk => exact mem_rows hk hinstanceof rfl
  · next hk => exact mem_single hk hrecordPattern rfl
  · next hk => exact mem_rows hk hcomment rfl
  · refine mem_plain ?_
    simp only [armKinds, List.mem_cons, List.not_mem_nil, or_false, not_or]
    and_intros <;> assumption

/-- No form shows a library feature. -/
theorem isLibrary_of_mem_formFeatures (h : f ∈ s.formFeatures source) : f.isLibrary = false := by
  have hnone : ∀ f ∈ Feature.all, f.isLibrary = true → f.kinds = [] := by decide
  have hkind := (shows_iff.1 (mem_formFeatures.1 h)).1
  cases hf : f.isLibrary with
  | false => rfl
  | true =>
    rw [hnone f f.mem_all hf] at hkind
    cases hkind

end Site

end MinimumRelease
