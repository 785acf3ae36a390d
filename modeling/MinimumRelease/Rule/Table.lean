import Std.Data.HashMap
import MinimumRelease.Rule.Basic

/-!
# Rule tables

A table of rules, indexed by package and by type name so that a query looks only at the rules
that can answer it. A rule that covers an imported name has a package that ends at a dot of that
name, or is all of it, so the query for a name visits exactly those leading parts, shortest first.
-/

namespace MinimumRelease

/-- Rules in table order, with an index by package and one by type name. Each index keeps table
order. -/
structure RuleTable where
  rules : List Rule
  byPackage : Std.HashMap String (List Rule)
  byTypeName : Std.HashMap String (List Rule)

namespace RuleTable

/-- Puts `r` before the rules filed under `key`. -/
def file (key : String) (r : Rule) (index : Std.HashMap String (List Rule)) :
    Std.HashMap String (List Rule) :=
  index.insert key (r :: index.getD key [])

/-- The table of the given rules. -/
def ofRules (rules : List Rule) : RuleTable where
  rules := rules
  byPackage := rules.foldr (fun r index => file r.package r index) ∅
  byTypeName := rules.foldr (fun r index => r.typeNames.foldr (fun type => file type r) index) ∅

/-- The features of the accepted rules, each at its first occurrence. -/
def featuresOf (accept : Rule → Bool) (rules : List Rule) : List Feature :=
  ((rules.filter accept).map (·.feature)).eraseDups

/-- The rules whose package is a leading part of `name`, shortest package first. -/
def underLeads (t : RuleTable) (name : String) : List Rule :=
  (Text.dottedLeads name.toList).flatMap fun lead => t.byPackage.getD (String.ofList lead) []

/-- Features of a single-name import. -/
def importFeatures (t : RuleTable) (name : String) : List Feature :=
  featuresOf (·.coversImport name) (t.underLeads name)

/-- Features of a qualified name in the code. -/
def qualifiedFeatures (t : RuleTable) (name : String) : List Feature :=
  featuresOf (·.coversQualified name) (t.underLeads name)

/-- Features that an on-demand import shows by itself. Only rules for the whole of exactly that
package count; type rules wait until a bare name uses them. -/
def onDemandFeatures (t : RuleTable) (package : String) : List Feature :=
  featuresOf (fun r => r.isPackageLevel && r.coversOnDemand package) (t.byPackage.getD package [])

/-- Features of a bare type name in a file that imports `packages` on demand. -/
def simpleFeatures (t : RuleTable) (name : String) (packages : List String) : List Feature :=
  featuresOf (·.coversSimple name packages) (t.byTypeName.getD name [])

end RuleTable

end MinimumRelease
