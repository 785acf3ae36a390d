import MinimumRelease.Tree.Shape

/-!
# Constructs that older grammars refuse

A construct is a form of the language with the first release whose grammar accepts it. Where it
occurs in a tree is decided by the shapes of the nodes.
-/

namespace MinimumRelease

/-- A form that some older grammar refuses. The constructors stand in ascending order of release. -/
inductive Construct where
  | moduleDeclarations | privateInterfaceMethods | diamondWithAnonymousClass
  | effectivelyFinalResources | localVariableTypeInference | varLambdaParameters
  | switchExpressions | multipleCaseLabels | yieldStatements | textBlocks | records
  | instanceofPatterns | localInterfaces | localEnums | sealedTypes | recordPatterns
  | switchPatterns | caseNull | unnamedVariables | moduleImports | flexibleConstructorBodies
  | compactSourceFiles
deriving DecidableEq

namespace Construct

/-- Every construct, in declaration order. -/
def all : List Construct :=
  [.moduleDeclarations, .privateInterfaceMethods, .diamondWithAnonymousClass,
   .effectivelyFinalResources, .localVariableTypeInference, .varLambdaParameters,
   .switchExpressions, .multipleCaseLabels, .yieldStatements, .textBlocks, .records,
   .instanceofPatterns, .localInterfaces, .localEnums, .sealedTypes, .recordPatterns,
   .switchPatterns, .caseNull, .unnamedVariables, .moduleImports, .flexibleConstructorBodies,
   .compactSourceFiles]

/-- First release whose grammar accepts the construct. -/
def allowedSince : Construct → Int
  | .moduleDeclarations | .privateInterfaceMethods | .diamondWithAnonymousClass
  | .effectivelyFinalResources => 9
  | .localVariableTypeInference => 10
  | .varLambdaParameters => 11
  | .switchExpressions | .multipleCaseLabels | .yieldStatements => 14
  | .textBlocks => 15
  | .records | .instanceofPatterns | .localInterfaces | .localEnums => 16
  | .sealedTypes => 17
  | .recordPatterns | .switchPatterns | .caseNull => 21
  | .unnamedVariables => 22
  | .moduleImports | .flexibleConstructorBodies | .compactSourceFiles => 25

/-- What the construct is called in messages. -/
def name : Construct → String
  | .moduleDeclarations => "module declaration"
  | .privateInterfaceMethods => "private interface method"
  | .diamondWithAnonymousClass => "diamond with anonymous class"
  | .effectivelyFinalResources => "effectively final resource"
  | .localVariableTypeInference => "'var' local variable"
  | .varLambdaParameters => "'var' lambda parameter"
  | .switchExpressions => "switch expression"
  | .multipleCaseLabels => "multiple case labels"
  | .yieldStatements => "yield statement"
  | .textBlocks => "text block"
  | .records => "record declaration"
  | .instanceofPatterns => "instanceof pattern"
  | .localInterfaces => "local interface"
  | .localEnums => "local enum"
  | .sealedTypes => "sealed type"
  | .recordPatterns => "record pattern"
  | .switchPatterns => "switch pattern"
  | .caseNull => "case null"
  | .unnamedVariables => "unnamed variable"
  | .moduleImports => "module import"
  | .flexibleConstructorBodies => "statement before this()/super()"
  | .compactSourceFiles => "top-level method or field"

/-- The construct with the given name. -/
def ofName? (name : String) : Option Construct := all.find? (·.name = name)

/-- Whether the node at a site is an occurrence of the construct. -/
def occursAt (source : String) (s : Site) : Construct → Bool
  | .moduleDeclarations => s.kind = "module_declaration"
  | .privateInterfaceMethods => s.isInterfaceMethod && s.node.hasModifier "private"
  | .diamondWithAnonymousClass => s.node.isDiamondWithBody
  | .effectivelyFinalResources => s.node.isVariableResource
  | .localVariableTypeInference => s.varPosition? source = some .localVariable
  | .varLambdaParameters => s.varPosition? source = some .lambdaParameter
  | .switchExpressions => s.isSwitchExpression || s.node.isArrowRule
  | .multipleCaseLabels => s.node.hasSeveralLabels
  | .yieldStatements => s.kind = "yield_statement"
  | .textBlocks => s.node.isTextBlock source
  | .records => s.kind = "record_declaration"
  | .instanceofPatterns => s.node.isPatternInstanceof
  | .localInterfaces => s.kind = "interface_declaration" && s.isInExecutableCode
  | .localEnums => s.kind = "enum_declaration" && s.isInExecutableCode
  | .sealedTypes => s.node.isSealedDeclaration
  | .recordPatterns => s.kind = "record_pattern"
  | .switchPatterns => s.node.hasPatternLabel || s.kind = "guard"
  | .caseNull => s.node.hasNullLabel
  | .unnamedVariables => s.node.isUnnamed source
  | .moduleImports => s.kind = "import_declaration" && s.node.isModuleImport
  | .flexibleConstructorBodies => s.isLateConstructorCall
  | .compactSourceFiles => s.isCompactSourceMember

theorem mem_all (c : Construct) : c ∈ all := by cases c <;> decide

end Construct

end MinimumRelease
