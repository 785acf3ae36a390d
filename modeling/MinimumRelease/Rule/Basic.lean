import MinimumRelease.Feature
import MinimumRelease.Text.Dotted

/-!
# Rules

A rule says that a package of the platform library, or some of its types, belong to a feature.
A name in a source file can meet a rule in four ways: it is imported by itself, its package is
imported on demand, it is a bare type name, or it is a qualified name in the code. Dots bound the
segments of a name, so a package never meets a rule for a sibling that merely shares its first
letters.
-/

namespace MinimumRelease

/-- What a rule covers: every symbol below its package, or the listed types directly in it. -/
inductive Scope where
  | package
  | types (names : List String)
deriving DecidableEq

/-- A package, or some of its types, stand for a feature. -/
structure Rule where
  package : String
  scope : Scope
  feature : Feature
deriving DecidableEq

namespace Rule

/-- The rule for everything below a package. -/
def ofPackage (package : String) (feature : Feature) : Rule := ⟨package, .package, feature⟩

/-- The rule for the listed types of a package. -/
def ofTypes (package : String) (names : List String) (feature : Feature) : Rule :=
  ⟨package, .types names, feature⟩

/-- Whether the rule covers everything below its package. -/
def isPackageLevel (r : Rule) : Bool := r.scope = .package

/-- The types a rule lists; none for a package rule. -/
def typeNames (r : Rule) : List String :=
  match r.scope with
  | .package => []
  | .types names => names

/-- Whether importing `name` by itself meets the rule. A package rule takes the package and all
below it. A type rule takes one of its types, a member of it, or a class nested in it. -/
def coversImport (r : Rule) (name : String) : Bool :=
  match Text.after? r.package.toList name.toList with
  | none => false
  | some rest =>
    match r.scope with
    | .package => Text.endsOrMeets ['.'] rest
    | .types names =>
      match rest with
      | '.' :: member => names.any fun type =>
          match Text.after? type.toList member with
          | some tail => Text.endsOrMeets ['.', '$'] tail
          | none => false
      | _ => false

/-- Whether a qualified name in the code meets the rule: exactly as an import of it would. -/
def coversQualified (r : Rule) (name : String) : Bool := r.coversImport name

/-- Whether importing a package on demand reaches the rule: the package is the rule's own or one
above it. -/
def coversOnDemand (r : Rule) (package : String) : Bool :=
  match Text.after? package.toList r.package.toList with
  | some rest => Text.endsOrMeets ['.'] rest
  | none => false

/-- Whether a bare type name meets the rule in a file that imports `packages` on demand. Package
rules abstain. -/
def coversSimple (r : Rule) (name : String) (packages : List String) : Bool :=
  match r.scope with
  | .package => false
  | .types names => packages.contains r.package && names.contains name

end Rule

end MinimumRelease
