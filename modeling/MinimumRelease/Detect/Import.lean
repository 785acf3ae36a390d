import MinimumRelease.Rule.Table
import MinimumRelease.Tree.Shape

/-!
# Imports

What a compilation unit imports decides what its bare type names mean. A name that is imported by
itself hides every type of that name from the packages imported on demand. A static on-demand
declaration names a type, and so counts as one that imports this type by itself.
-/

namespace MinimumRelease

/-- What an import declaration names. -/
inductive Import where
  /-- A type, a member of a type, or the type of a static on-demand import. -/
  | single (name : String)
  /-- A package whose types are all imported on demand. -/
  | onDemand (package : String)
deriving DecidableEq

namespace Import

/-- The import that a node declares. Module imports name neither types nor packages. -/
def ofNode? (source : String) (n : Node) : Option Import :=
  if n.kind = "import_declaration" && !n.isModuleImport then
    (n.importName? source).map fun name =>
      if n.isOnDemandImport && !n.isStaticImport then .onDemand name else .single name
  else none

/-- The features that an import shows by itself. -/
def features (rules : RuleTable) : Import → List Feature
  | .single name => rules.importFeatures name
  | .onDemand package => rules.onDemandFeatures package

end Import

/-- The imports of a compilation unit, in order. -/
structure ImportScope where
  imports : List Import

namespace ImportScope

/-- The package that every compilation unit imports on demand. -/
def implicitPackage : String := "java.lang"

/-- The imports among the children of a program. -/
def ofProgram (source : String) (program : Node) : ImportScope :=
  ⟨program.significant.filterMap (Import.ofNode? source)⟩

/-- Whether a name is imported by itself, which hides it from the packages imported on demand. -/
def hides (scope : ImportScope) (name : String) : Bool :=
  scope.imports.any fun
    | .single full => Text.lastSegment full.toList = name.toList
    | .onDemand _ => false

/-- The packages imported on demand. -/
def packages (scope : ImportScope) : List String :=
  implicitPackage :: scope.imports.filterMap fun
    | .single _ => none
    | .onDemand package => some package

/-- The distinct packages imported on demand, in ascending order. -/
def sortedPackages (scope : ImportScope) : List String :=
  (scope.packages.eraseDups).mergeSort (· ≤ ·)

/-- The features that the imports show by themselves. -/
def features (rules : RuleTable) (scope : ImportScope) : List Feature :=
  scope.imports.flatMap (·.features rules)

end ImportScope

end MinimumRelease
