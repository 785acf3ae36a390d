import MinimumRelease.Feature
import MinimumRelease.Tree.Shape

/-!
# Features shown by form

Language features show in the shape of the tree. Each node is judged on its own: its kind selects
what is looked for, and its children and where it stands decide.
-/

namespace MinimumRelease

/-- The features whose conditions hold. -/
def Feature.shown (rows : List (Feature × Bool)) : List Feature := (rows.filter (·.2)).map (·.1)

open Feature (shown)

/-- What a modifier shows by its keyword. -/
def Node.keywordFeatures (modifier : Node) : List Feature :=
  match modifier.kind with
  | "strictfp" => [.strictfp]
  | "sealed" | "non-sealed" => [.sealedClasses]
  | _ => []

/-- The features that a modifier list shows: those of its keywords, and a repeated annotation. -/
def Node.modifierFeatures (source : String) (modifiers : Node) : List Feature :=
  modifiers.children.flatMap keywordFeatures ++
    shown [(.repeatingAnnotations, modifiers.hasRepeatedAnnotations source)]

/-- The features that the label of a switch shows. -/
def Node.labelFeatures (label : Node) : List Feature :=
  shown [(.stringsInSwitch, label.hasStringLabel), (.switchMultipleLabels, label.hasSeveralLabels),
    (.switchPatternMatching, label.hasPatternLabel), (.switchNullDefault, label.hasNullLabel)]

/-- The features that the form of a node shows. The first arm for its kind counts; nodes without an
arm of their own may be literals or names. -/
def Site.formFeatures (source : String) (s : Site) : List Feature :=
  match s.kind with
  | "class_declaration" | "interface_declaration" =>
    shown [(.innerClasses, !s.isTopLevel), (.sealedClasses, s.node.isSealedDeclaration),
      (.localInterfaces, s.kind = "interface_declaration" && s.isInExecutableCode)]
  | "enum_declaration" => shown [(.enums, true), (.localEnums, s.isInExecutableCode)]
  | "record_declaration" => shown [(.records, true), (.localRecords, s.isInExecutableCode)]
  | "annotation_type_declaration" => [.annotations]
  | "module_declaration" => [.modules]
  | "object_creation_expression" =>
    shown [(.innerClasses, s.node.hasAnonymousBody),
      (.diamondWithAnonymous, s.node.isDiamondWithBody)]
  | "modifiers" => s.node.modifierFeatures source
  | "method_declaration" =>
    shown [(.defaultInterfaceMethods, s.isInterfaceMethod && s.node.hasModifier "default"),
      (.staticInterfaceMethods, s.isInterfaceMethod && s.node.hasModifier "static"),
      (.privateInterfaceMethods, s.isInterfaceMethod && s.node.hasModifier "private"),
      (.compactSourceFiles, s.isCompactSourceMember)]
  | "field_declaration" => shown [(.compactSourceFiles, s.isCompactSourceMember)]
  | "explicit_constructor_invocation" =>
    shown [(.flexibleConstructorBodies, s.isLateConstructorCall)]
  | "import_declaration" =>
    shown [(.staticImport, s.node.isStaticImport), (.moduleImports, s.node.isModuleImport)]
  | "class_literal" => [.reflection]
  | "assert_statement" => [.assert]
  | "type_parameters" => [.generics]
  | "type_arguments" => if s.node.isDiamond then [.diamondOperator] else [.generics]
  | "marker_annotation" | "annotation" =>
    shown [(.annotations, true), (.typeAnnotations, s.isTypeUseMarkup)]
  | "spread_parameter" => [.varargs]
  | "enhanced_for_statement" => [.forEach]
  | "variable_declarator" => shown [(.autoboxing, s.isBoxingDeclarator source)]
  | "method_invocation" => shown [(.autoboxing, s.node.isBoxingCall source)]
  | "try_with_resources_statement" => [.tryWithResources]
  | "resource" => shown [(.tryWithEffectivelyFinal, s.node.isVariableResource)]
  | "catch_type" => shown [(.multiCatch, s.node.isMultiCatch)]
  | "lambda_expression" => [.lambdas]
  | "method_reference" => [.methodReferences]
  | "type_identifier" =>
    match s.varPosition? source with
    | some .localVariable => [.var]
    | some .lambdaParameter => [.varInLambda]
    | none => []
  | "switch_expression" => shown [(.switchExpressions, s.isSwitchExpression)]
  | "switch_rule" => [.switchExpressions]
  | "switch_label" => s.node.labelFeatures
  | "guard" => [.switchPatternMatching]
  | "yield_statement" => [.yield]
  | "instanceof_expression" =>
    shown [(.patternMatchingInstanceof, s.node.isPatternInstanceof)]
  | "record_pattern" => [.recordPatterns]
  | "line_comment" => shown [(.markdownDocComments, s.node.isMarkdownComment source)]
  | kind =>
    shown [(.textBlocks, s.node.isTextBlock source), (.unnamedVariables, s.node.isUnnamed source),
      (.binaryLiterals, integerLiterals.contains kind && s.node.isBinaryLiteral source),
      (.underscoresInLiterals, integerLiterals.contains kind && s.node.hasLiteralUnderscore source)]

end MinimumRelease
