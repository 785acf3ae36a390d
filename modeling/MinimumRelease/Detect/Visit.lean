import MinimumRelease.Detect.Form
import MinimumRelease.Detect.Usage
import MinimumRelease.Tree.Walk

/-!
# The features of a tree

One walk over the tree finds what its nodes show by their form and by the names they mention. Its
imports are read before the walk, so that a name means the same wherever it stands.
-/

namespace MinimumRelease

/-- What a walk has found: names seen and features shown. -/
structure Evidence where
  seen : Sightings
  features : List Feature

/-- Adds what the node at a site shows. -/
def Evidence.add (rules : RuleTable) (scope : ImportScope) (source : String) (e : Evidence)
    (s : Site) : Evidence :=
  let (found, seen) := e.seen.lookUpAll rules scope (Mention.ofSite source s)
  ⟨seen, s.formFeatures source ++ found ++ e.features⟩

/-- Every feature that the tree shows, in catalog order. -/
def SyntaxTree.features (rules : RuleTable) (t : SyntaxTree) : List Feature :=
  let scope := ImportScope.ofProgram t.source t.root
  let found := t.root.foldSites (Evidence.add rules scope t.source) ⟨.none, scope.features rules⟩
  Feature.canonical found.features

end MinimumRelease
