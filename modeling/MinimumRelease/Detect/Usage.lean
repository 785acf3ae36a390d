import MinimumRelease.Detect.Import
import MinimumRelease.Rule.EntryPoint

/-!
# Features shown by names

Library features show in the names that the code mentions. A qualified name is looked up as it
stands. A bare type name is looked up in the packages imported on demand, unless it is imported by
itself. Names are looked up once per file: what a name shows does not depend on where it stands.
-/

namespace MinimumRelease

/-- A name that the code mentions. -/
inductive Mention where
  /-- A name with its package before it. -/
  | qualified (name : String)
  /-- A bare type name. -/
  | simple (name : String)
  /-- A call of a method on a named receiver. -/
  | call (receiver method : String)
deriving DecidableEq

namespace Mention

/-- What a member chain mentions: a qualified name, or the type at its head. -/
def ofChain (chain : String) : List Mention :=
  if looksQualified chain then [.qualified chain]
  else
    let head := String.ofList (Text.firstSegment chain.toList)
    if startsUppercase head then [.simple head] else []

/-- Parents whose dotted names are declared rather than used. -/
def declaringKinds : List String :=
  ["import_declaration", "package_declaration", "module_declaration",
   "requires_module_directive", "exports_module_directive", "opens_module_directive"]

/-- Whether a node is a link of a member chain. -/
def isLink (s : Site) : Bool :=
  s.kind = "scoped_type_identifier" || s.kind = "scoped_identifier" || s.kind = "field_access"

/-- Only the outermost link of a chain counts, and only where the name is used. -/
def isOutermostLink (s : Site) : Bool :=
  isLink s && !s.isUnder s.kind && !s.parentKind?.any declaringKinds.contains

/-- What a method call mentions: the call itself, and the receiver if that is a single name. A
receiver that is a chain is a site of its own. -/
def ofCall (source : String) (n : Node) : List Mention :=
  match n.child? "object" with
  | none => []
  | some object =>
    match object.memberChain? source with
    | none => []
    | some receiver =>
      ((n.child? "name").toList.map fun name => .call receiver (name.text source)) ++
        if object.kind = "identifier" then ofChain receiver else []

/-- What the node at a site mentions. -/
def ofSite (source : String) (s : Site) : List Mention :=
  if isLink s then
    if isOutermostLink s then ((s.node.memberChain? source).toList.flatMap ofChain) else []
  else if s.kind = "type_identifier" then
    let name := s.node.text source
    if s.isUnder "scoped_type_identifier" || name = "var" then [] else [.simple name]
  else if s.kind = "method_invocation" then ofCall source s.node
  else if s.kind = "method_reference" then
    ((s.node.significant.head?.bind (·.memberChain? source)).toList.flatMap ofChain)
  else []

/-- The features that a mention shows in a file with the given imports. -/
def features (rules : RuleTable) (scope : ImportScope) : Mention → List Feature
  | .qualified name => rules.qualifiedFeatures name
  | .simple name => if scope.hides name then [] else rules.simpleFeatures name scope.packages
  | .call receiver method => (EntryPoint.featureOf? receiver method).toList

/-- The name under which a mention is looked up once. Calls are looked up every time. -/
def key? : Mention → Option String
  | .qualified name => some name
  | .simple name => some name
  | .call _ _ => none

end Mention

/-- The names that were seen so far. -/
structure Sightings where
  names : List String

namespace Sightings

/-- No name was seen. -/
def none : Sightings := ⟨[]⟩

/-- Whether a name is seen for the first time, and the names seen after it. -/
def see (seen : Sightings) (name : String) : Bool × Sightings :=
  if seen.names.contains name then (false, seen) else (true, ⟨name :: seen.names⟩)

/-- Looks a mention up, unless its name was seen before. -/
def lookUp (rules : RuleTable) (scope : ImportScope) (seen : Sightings) (m : Mention) :
    List Feature × Sightings :=
  match m.key? with
  | .none => (m.features rules scope, seen)
  | some name =>
    match seen.see name with
    | (true, seen) => (m.features rules scope, seen)
    | (false, seen) => ([], seen)

/-- Looks up several mentions in order. -/
def lookUpAll (rules : RuleTable) (scope : ImportScope) (seen : Sightings) :
    List Mention → List Feature × Sightings
  | [] => ([], seen)
  | m :: ms =>
    let (found, seen) := seen.lookUp rules scope m
    let (more, seen) := lookUpAll rules scope seen ms
    (found ++ more, seen)

end Sightings

end MinimumRelease
