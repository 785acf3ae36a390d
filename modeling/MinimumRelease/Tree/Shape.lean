import MinimumRelease.Text.Uppercase
import MinimumRelease.Tree.Basic

/-!
# Shapes of nodes

Predicates that tell what a node is from its kind, its children and where it stands. One kind of
node often serves several forms of the language: a switch statement and a switch expression differ
only in their parents, and a diamond is an argument list without arguments. Each predicate holds
of any node of any kind, so that it can be asked without a check before.
-/

namespace MinimumRelease

/-! ## Classes of node kinds -/

/-- Parents under which a `switch_expression` node is a statement. -/
def statementContainers : List String :=
  ["program", "block", "constructor_body", "switch_block_statement_group", "labeled_statement",
   "expression_statement", "if_statement", "while_statement", "for_statement",
   "enhanced_for_statement", "do_statement"]

/-- Ancestors that put a declaration inside executable code. -/
def executableScopes : List String :=
  ["block", "constructor_body", "switch_block_statement_group", "switch_rule",
   "lambda_expression"]

/-- Ancestors that put a declaration into a type body or at top level. -/
def declarationScopes : List String :=
  ["class_body", "interface_body", "enum_body", "enum_body_declarations", "annotation_type_body",
   "program"]

/-- Kinds of integer literals. -/
def integerLiterals : List String :=
  ["decimal_integer_literal", "hex_integer_literal", "octal_integer_literal",
   "binary_integer_literal"]

/-- Kinds of literals that denote a primitive value. -/
def primitiveLiterals : List String :=
  integerLiterals ++
    ["decimal_floating_point_literal", "hex_floating_point_literal", "character_literal", "true",
     "false"]

/-- The classes that wrap a primitive value. -/
def wrapperTypes : List String :=
  ["Integer", "Long", "Short", "Byte", "Double", "Float", "Character", "Boolean"]

/-- Methods of collections that box a primitive argument. -/
def boxingMethods : List String := ["asList", "of", "add", "put", "addAll", "contains"]

/-- Kinds of patterns. -/
def patternKinds : List String := ["pattern", "type_pattern", "record_pattern"]

/-! ## Names -/

/-- Whether a name looks qualified by a package: it has a dot and begins with a small ASCII
letter. -/
def looksQualified (name : String) : Bool :=
  name.toList.contains '.' && name.toList.head?.any Char.isLower

/-- Whether a name begins with an uppercase character of any script. -/
def startsUppercase (name : String) : Bool := name.toList.head?.any Text.isUppercase

namespace Node

/-! ## Declarations -/

/-- The modifier list of a declaration. -/
def modifiers? (n : Node) : Option Node := n.children.find? (·.kind = "modifiers")

/-- Whether the modifier list of a declaration contains a keyword. -/
def hasModifier (n : Node) (keyword : String) : Bool := n.modifiers?.any (·.hasChild keyword)

/-- A class or interface that is sealed, non-sealed or lists what it permits. -/
def isSealedDeclaration (n : Node) : Bool :=
  (n.kind = "class_declaration" || n.kind = "interface_declaration") &&
    (n.hasModifier "sealed" || n.hasModifier "non-sealed" || n.hasChild "permits")

/-! ## Imports -/

/-- The dotted name that an import declaration names. -/
def importName? (source : String) (n : Node) : Option String :=
  (n.significant.find? fun c => c.kind = "scoped_identifier" || c.kind = "identifier").map
    (·.text source)

/-- `import static …` -/
def isStaticImport (n : Node) : Bool := n.hasChild "static"

/-- `import ….*` -/
def isOnDemandImport (n : Node) : Bool := n.hasChild "asterisk"

/-- `import module …` -/
def isModuleImport (n : Node) : Bool := n.hasChild "module"

/-! ## Generics -/

/-- `<>` -/
def isDiamond (n : Node) : Bool := n.kind = "type_arguments" && n.significant.isEmpty

/-- `<A, …>` -/
def hasTypeArguments (n : Node) : Bool := n.kind = "type_arguments" && !n.significant.isEmpty

/-- `new A(…) { … }` -/
def hasAnonymousBody (n : Node) : Bool :=
  n.kind = "object_creation_expression" && n.hasChild "class_body"

/-- `new A<>(…) { … }`, where diamond and body belong to the same expression. -/
def isDiamondWithBody (n : Node) : Bool :=
  n.hasAnonymousBody &&
    (((n.child? "type").filter (·.kind = "generic_type")).bind fun type =>
      type.significant.find? (·.kind = "type_arguments")).any isDiamond

/-! ## Statements -/

/-- A resource that names a variable instead of declaring one. -/
def isVariableResource (n : Node) : Bool :=
  n.kind = "resource" && (n.child? "type").isNone &&
    match n.significant with
    | [c] => c.kind = "identifier" || c.kind = "field_access"
    | _ => false

/-- `catch (A | B …)` -/
def isMultiCatch (n : Node) : Bool := n.kind = "catch_type" && 2 ≤ n.significant.length

/-! ## Switch labels -/

/-- `case … ->` -/
def isArrowRule (n : Node) : Bool := n.kind = "switch_rule"

/-- A pattern or a guard. -/
def isPatternPart (n : Node) : Bool := patternKinds.contains n.kind || n.kind = "guard"

/-- The values of a label: everything but patterns and guards. -/
def labelValues (n : Node) : List Node := n.significant.filter (!·.isPatternPart)

/-- `case 1, 2` -/
def hasSeveralLabels (n : Node) : Bool := n.kind = "switch_label" && 2 ≤ n.labelValues.length

/-- `case "a"` -/
def hasStringLabel (n : Node) : Bool :=
  n.kind = "switch_label" && n.labelValues.any (·.kind = "string_literal")

/-- `case A a` or `case A a when …` -/
def hasPatternLabel (n : Node) : Bool :=
  n.kind = "switch_label" && n.significant.any isPatternPart

/-- `case null`, alone or with `default`. -/
def hasNullLabel (n : Node) : Bool :=
  n.kind = "switch_label" &&
    (n.labelValues.any (·.kind = "null_literal") || (n.hasChild "case" && n.hasChild "default"))

/-! ## Patterns -/

/-- `a instanceof B b` or with a record pattern. -/
def isPatternInstanceof (n : Node) : Bool :=
  n.kind = "instanceof_expression" &&
    ((n.child? "name").isSome || (n.child? "pattern").isSome ||
      n.significant.any fun c => patternKinds.contains c.kind)

/-- `_` as the name of a variable or as a pattern. -/
def isUnnamed (source : String) (n : Node) : Bool :=
  n.kind = "underscore_pattern" || (n.kind = "identifier" && n.text source = "_")

/-! ## Literals and comments -/

/-- Whether the text of the node begins with `lead`. -/
def beginsWith (source : String) (n : Node) (lead : String) : Bool :=
  lead.toList.isPrefixOf (n.text source).toList

/-- `"""…"""` -/
def isTextBlock (source : String) (n : Node) : Bool :=
  n.kind = "text_block" || (n.kind = "string_literal" && n.beginsWith source "\"\"\"")

/-- `0b…` -/
def isBinaryLiteral (source : String) (n : Node) : Bool :=
  n.kind = "binary_integer_literal" ||
    (integerLiterals.contains n.kind && (n.beginsWith source "0b" || n.beginsWith source "0B"))

/-- An integer literal with an underscore. -/
def hasLiteralUnderscore (source : String) (n : Node) : Bool :=
  integerLiterals.contains n.kind && (n.text source).toList.contains '_'

/-- A line that begins with exactly three slashes. -/
def isMarkdownComment (source : String) (n : Node) : Bool :=
  n.kind = "line_comment" && n.beginsWith source "///" && !n.beginsWith source "////"

/-! ## Annotations -/

/-- `@A` or `@A(…)` -/
def isAnnotationNode (n : Node) : Bool := n.kind = "annotation" || n.kind = "marker_annotation"

/-- Whether a list has the same element twice. -/
def hasRepetition : List String → Bool
  | [] => false
  | a :: as => as.contains a || hasRepetition as

/-- Whether the same annotation stands twice among the children. -/
def hasRepeatedAnnotations (source : String) (n : Node) : Bool :=
  hasRepetition <|
    (n.significant.filter isAnnotationNode).filterMap fun a => (a.child? "name").map (·.text source)

/-! ## Boxing -/

/-- A literal that denotes a primitive value. -/
def isPrimitiveLiteral (n : Node) : Bool := primitiveLiterals.contains n.kind

/-- `list.add(1)`: a call of a boxing method with a primitive literal among its arguments. -/
def isBoxingCall (source : String) (n : Node) : Bool :=
  n.kind = "method_invocation" &&
    (n.child? "name").any (fun name => boxingMethods.contains (name.text source)) &&
    (n.child? "arguments").any (fun arguments => arguments.significant.any isPrimitiveLiteral)

/-! ## Member chains -/

/-- The dotted name that a chain of member accesses spells, if it is made of identifiers only.
Type arguments and annotations are left out. -/
def memberChain? (source : String) (n : Node) : Option String :=
  if n.kind = "identifier" || n.kind = "type_identifier" then some (n.text source)
  else if n.kind = "field_access" then
    match _h : n.child? "object", n.child? "field" with
    | some object, some field =>
      (object.memberChain? source).map (· ++ "." ++ field.text source)
    | _, _ => none
  else if n.kind = "scoped_identifier" || n.kind = "scoped_type_identifier" then
    match _h : n.significant.filter (!·.isAnnotationNode) with
    | scope :: next :: more =>
      (scope.memberChain? source).map (· ++ "." ++ ((next :: more).getLastD next).text source)
    | _ => none
  else if n.kind = "generic_type" then
    match _h : n.significant with
    | base :: _ => base.memberChain? source
    | [] => none
  else none
termination_by n.size
decreasing_by
  · exact size_lt_of_mem (mem_of_child? _h)
  · have : scope ∈ n.significant.filter (!·.isAnnotationNode) := by rw [_h]; simp
    exact size_lt_of_mem (mem_of_mem_significant (List.mem_filter.1 this).1)
  · exact size_lt_of_mem (mem_of_mem_significant (by rw [_h]; simp))

end Node

/-- Where the reserved name `var` stands for an inferred type. -/
inductive VarPosition where
  /-- A local variable, a loop variable or a resource. -/
  | localVariable
  | lambdaParameter
deriving DecidableEq

namespace Site

/-- Directly in the compilation unit. -/
def isTopLevel (s : Site) : Bool := s.isUnder "program"

/-- Whether the nearest ancestor that decides puts the node into executable code. -/
def isInExecutableCode (s : Site) : Bool :=
  ((s.above.map (·.kind)).find? fun k =>
    executableScopes.contains k || declarationScopes.contains k).any executableScopes.contains

/-- A method of an interface. -/
def isInterfaceMethod (s : Site) : Bool :=
  s.kind = "method_declaration" && s.isUnder "interface_body"

/-- A method or field directly in the compilation unit. -/
def isCompactSourceMember (s : Site) : Bool :=
  (s.kind = "method_declaration" || s.kind = "field_declaration") && s.isTopLevel

/-- `this(…)` or `super(…)` behind another statement of the constructor. -/
def isLateConstructorCall (s : Site) : Bool :=
  s.kind = "explicit_constructor_invocation" && s.isUnder "constructor_body" &&
    s.before.any fun n => n.named && !n.isComment

/-- A switch whose value is used. -/
def isSwitchExpression (s : Site) : Bool :=
  s.kind = "switch_expression" && s.parentKind?.any (!statementContainers.contains ·)

/-- An annotation of the use of a type rather than of a declaration. -/
def isTypeUseMarkup (s : Site) : Bool :=
  s.node.isAnnotationNode &&
    s.parentKind?.any
      (["annotated_type", "type_parameter", "scoped_type_identifier", "dimensions"].contains ·)

/-- Where the node is `var` in place of a type. -/
def varPosition? (source : String) (s : Site) : Option VarPosition :=
  if s.kind = "type_identifier" && s.node.text source = "var" && s.isHeldAs "type" then
    match s.above.map (·.kind) with
    | "local_variable_declaration" :: _ => some .localVariable
    | "enhanced_for_statement" :: _ => some .localVariable
    | "resource" :: _ => some .localVariable
    | "formal_parameter" :: "formal_parameters" :: "lambda_expression" :: _ =>
      some .lambdaParameter
    | _ => none
  else none

/-- `Integer x = 5`: a wrapper type and a primitive literal. -/
def isBoxingDeclarator (source : String) (s : Site) : Bool :=
  s.kind = "variable_declarator" &&
    (s.node.child? "value").any (·.isPrimitiveLiteral) &&
    (s.parent?.bind (·.child? "type")).any fun type => wrapperTypes.contains (type.text source)

end Site

end MinimumRelease
