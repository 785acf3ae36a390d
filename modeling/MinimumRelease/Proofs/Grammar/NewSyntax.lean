import MinimumRelease.Proofs.Detect.Resolution
import MinimumRelease.Proofs.Grammar.Agreement
import MinimumRelease.Proofs.Grammar.NewestConstruct
import MinimumRelease.Proofs.Tree.Layout

/-! # What the visitor sees and the grammar does not

A language feature that is newer than the baseline shows in the tree only where
a construct of its release occurs, with two exceptions. A rule may stand for any
feature, and then a mere name shows it. And `sealed` shows in every modifier
list, while the grammar looks at those of classes and interfaces only. Apart
from that, and from comments, the newest of these features is the verdict of
the grammar. -/

namespace MinimumRelease

/-- Language features that are newer than the baseline grammar. Comments are no part of any
grammar. -/
def Feature.isNewSyntax (f : Feature) : Bool :=
  !f.isLibrary && baselineRelease < f.release && f ≠ .markdownDocComments

theorem Feature.isNewSyntax_iff {f : Feature} : f.isNewSyntax = true ↔
    f.isLibrary = false ∧ baselineRelease < f.release ∧ f ≠ .markdownDocComments := by
  simp [isNewSyntax, and_assoc]

/-! ## Features that come from rules -/

namespace RuleTable

variable {rules : List Rule} {f : Feature}

/-- What is listed for some rules of a table stands in one of its rules. -/
theorem exists_rule_of_listed {found : List Rule} (hfound : ∀ r ∈ found, r ∈ rules)
    (h : f ∈ (found.map (·.feature)).eraseDups) : ∃ r ∈ rules, r.feature = f := by
  obtain ⟨r, hr, hf⟩ := List.mem_map.1 (List.mem_eraseDups.1 h)
  exact ⟨r, hfound r hr, hf⟩

/-- The built-in rules stand for library features and for old syntax only. -/
theorem isNewSyntax_of_mem_builtinRules : ∀ r ∈ builtinRules, r.feature.isNewSyntax = false := by
  decide +kernel

theorem exists_rule_of_mem_importFeatures {name : String}
    (h : f ∈ (ofRules rules).importFeatures name) : ∃ r ∈ rules, r.feature = f := by
  rw [importFeatures_ofRules, byPackageLength] at h
  exact exists_rule_of_listed (fun r hr => (List.mem_filter.1 (List.mem_mergeSort.1 hr)).1) h

theorem exists_rule_of_mem_onDemandFeatures {package : String}
    (h : f ∈ (ofRules rules).onDemandFeatures package) : ∃ r ∈ rules, r.feature = f := by
  rw [onDemandFeatures_ofRules] at h
  exact exists_rule_of_listed (fun r hr => (List.mem_filter.1 hr).1) h

theorem exists_rule_of_mem_simpleFeatures {name : String} {packages : List String}
    (h : f ∈ (ofRules rules).simpleFeatures name packages) : ∃ r ∈ rules, r.feature = f := by
  rw [simpleFeatures_ofRules] at h
  exact exists_rule_of_listed (fun r hr => (List.mem_filter.1 hr).1) h

end RuleTable

theorem EntryPoint.isLibrary_of_featureOf? {receiver method : String} {f : Feature}
    (h : featureOf? receiver method = some f) : f.isLibrary = true := by
  have hall : ∀ e ∈ all, e.feature.isLibrary = true := by decide
  obtain ⟨e, he, rfl⟩ := Option.map_eq_some_iff.1 h
  exact hall e (List.mem_of_find?_eq_some he)

theorem ImportScope.exists_rule_of_mem_features {scope : ImportScope} {rules : List Rule}
    {f : Feature} (h : f ∈ scope.features (.ofRules rules)) : ∃ r ∈ rules, r.feature = f := by
  obtain ⟨i, -, hf⟩ := List.mem_flatMap.1 h
  cases i with
  | single name => exact RuleTable.exists_rule_of_mem_importFeatures hf
  | onDemand package => exact RuleTable.exists_rule_of_mem_onDemandFeatures hf

/-- A name shows the features of rules, and a call those of the library. -/
theorem Mention.exists_rule_of_mem_features {m : Mention} {scope : ImportScope}
    {rules : List Rule} {f : Feature} (hf : f.isLibrary = false)
    (h : f ∈ m.features (.ofRules rules) scope) : ∃ r ∈ rules, r.feature = f := by
  cases m with
  | qualified name => exact RuleTable.exists_rule_of_mem_importFeatures h
  | simple name =>
    rw [features] at h
    split at h
    · cases h
    · exact RuleTable.exists_rule_of_mem_simpleFeatures h
  | call receiver method =>
    rw [features, Option.mem_toList] at h
    rw [EntryPoint.isLibrary_of_featureOf? h] at hf
    cases hf

namespace SyntaxTree

/-- An import or another name in the tree shows the feature. -/
def ShownByName (t : SyntaxTree) (rules : RuleTable) (f : Feature) : Prop :=
  let scope := ImportScope.ofProgram t.source t.root
  f ∈ scope.features rules ∨ ∃ s ∈ t.sites, f ∈ s.usageFeatures rules scope t.source

variable {t : SyntaxTree} {f : Feature}

theorem exists_rule_of_shownByName {rules : List Rule} (hf : f.isLibrary = false)
    (h : t.ShownByName (.ofRules rules) f) : ∃ r ∈ rules, r.feature = f := by
  rcases h with h | ⟨s, -, h⟩
  · exact ImportScope.exists_rule_of_mem_features h
  · obtain ⟨m, -, hm⟩ := List.mem_flatMap.1 h
    exact Mention.exists_rule_of_mem_features hf hm

/-- What a tree shows it shows by a name or by the form of a node. -/
theorem shownByName_or_form {rules : RuleTable} (h : f ∈ t.features rules) :
    t.ShownByName rules f ∨ ∃ s ∈ t.sites, f ∈ s.formFeatures t.source := by
  rcases (t.mem_features_iff rules).1 h with h | h | h
  · exact .inl (.inl h)
  · exact .inr h
  · obtain ⟨m, hm, hf⟩ := Sightings.exists_of_mem_lookUpAll h
    obtain ⟨s, hs, hm⟩ := List.mem_flatMap.1 hm
    exact .inl (.inr ⟨s, hs, List.mem_flatMap.2 ⟨m, hm, hf⟩⟩)

end SyntaxTree

/-! ## Features that show by form -/

/-- Every new syntax has its construct, except that a local record is a record. -/
theorem Feature.exists_construct {f : Feature} (h : f.isNewSyntax = true) :
    f = .localRecords ∨ ∃ c : Construct, c.feature = f := by
  have hall : ∀ f ∈ all, f.isNewSyntax = true →
      f = .localRecords ∨ ∃ c ∈ Construct.all, c.feature = f := by decide +kernel
  refine (hall f (mem_all f) h).imp_right ?_
  rintro ⟨c, -, hc⟩
  exact ⟨c, hc⟩

namespace Site

/-- A modifier list with `sealed` or `non-sealed` in it. -/
def isSealing (s : Site) : Bool :=
  s.kind = "modifiers" && (s.node.hasChild "sealed" || s.node.hasChild "non-sealed")

/-- The modifier list of a class or an interface. -/
def isTypeModifiers (s : Site) : Bool :=
  s.kind = "modifiers" && (s.isUnder "class_declaration" || s.isUnder "interface_declaration") &&
    s.before.all (·.kind ≠ "modifiers")

/-- Of the two arms that find `sealed`, one looks at types and the other at modifier lists. -/
theorem sealedClasses_mem_formFeatures {source : String} {s : Site} :
    .sealedClasses ∈ s.formFeatures source ↔
      s.node.isSealedDeclaration = true ∨ s.isSealing = true := by
  rw [mem_formFeatures, shows_iff]
  constructor
  · intro ⟨hkind, hmeets⟩
    by_cases hk : s.kind = "modifiers"
    · have hseal : (s.node.hasChild "sealed" || s.node.hasChild "non-sealed") = true :=
        (if_pos hk).symm.trans hmeets
      exact .inr (Bool.and_eq_true_iff.2 ⟨decide_eq_true hk, hseal⟩)
    · exact .inl ((if_neg hk).symm.trans hmeets)
  · rintro (h | h)
    · exact shows_iff.1 (Construct.sealedTypes.shows_feature h)
    · obtain ⟨hk, hseal⟩ := Bool.and_eq_true_iff.1 h
      have hk : s.kind = "modifiers" := of_decide_eq_true hk
      refine ⟨?_, (if_pos hk).trans hseal⟩
      rw [hk]
      decide

end Site

/-- No method, field or other declaration is called sealed: all modifier lists that say so are those
of classes and interfaces. -/
def SyntaxTree.SealsTypes (t : SyntaxTree) : Prop :=
  ∀ s ∈ t.sites, s.isSealing = true → s.isTypeModifiers = true

/-- The declaration that a sealing modifier list belongs to is sealed. -/
theorem Node.isSealedDeclaration_of_isSealing {root p : Node} {s : Site} (hs : s ∈ root.sites)
    (hp : s.parent? = some p) (hseal : s.isSealing = true) (htype : s.isTypeModifiers = true) :
    p.isSealedDeclaration = true := by
  obtain ⟨back, hchildren⟩ := Node.children_of_mem_sites hs hp
  simp only [Site.isTypeModifiers, Site.isUnder, Site.parentKind?, hp, Option.map_some,
    Bool.and_eq_true, Bool.or_eq_true, decide_eq_true_eq, Option.some.injEq] at htype
  obtain ⟨⟨hkind, hparent⟩, hbefore⟩ := htype
  have hfirst : p.modifiers? = some s.node := by
    refine List.find?_eq_some_iff_append.2 ⟨decide_eq_true hkind, s.before.reverse, back,
      hchildren, fun n hn => ?_⟩
    simpa using List.all_eq_true.1 hbefore n (List.mem_reverse.1 hn)
  rw [Site.isSealing, Bool.and_eq_true, Bool.or_eq_true] at hseal
  simp only [isSealedDeclaration, hasModifier, hfirst, Option.any_some, Bool.and_eq_true,
    Bool.or_eq_true, decide_eq_true_eq]
  exact ⟨hparent, .inl hseal.2⟩

theorem SyntaxTree.holds_sealedTypes {t : SyntaxTree} (ht : t.SealsTypes) {s : Site}
    (hs : s ∈ t.sites) (h : .sealedClasses ∈ s.formFeatures t.source) : t.Holds .sealedTypes := by
  rcases Site.sealedClasses_mem_formFeatures.1 h with h | hseal
  · exact ⟨s, hs, h⟩
  · have htype := ht s hs hseal
    obtain ⟨p, hp⟩ : ∃ p, s.parent? = some p := by
      cases hp : s.parent? with
      | some p => exact ⟨p, rfl⟩
      | none => simp [Site.isTypeModifiers, Site.isUnder, Site.parentKind?, hp] at htype
    have hwithin := (Node.within_of_mem_sites hs).2 p (List.mem_of_mem_head? hp)
    obtain ⟨site, hsite, rfl⟩ := Node.exists_mem_sites hwithin
    exact ⟨site, hsite, Node.isSealedDeclaration_of_isSealing hs hp hseal htype⟩

/-- New syntax that shows at a site is a construct of its release, somewhere in the tree. -/
theorem SyntaxTree.exists_construct_of_form {t : SyntaxTree} {f : Feature}
    (hf : f.isNewSyntax = true) (hseal : f = .sealedClasses → t.SealsTypes) {s : Site}
    (hs : s ∈ t.sites) (h : f ∈ s.formFeatures t.source) :
    ∃ c, t.Holds c ∧ c.allowedSince = f.release := by
  have hshows := Site.mem_formFeatures.1 h
  rcases Feature.exists_construct hf with rfl | ⟨c, rfl⟩
  · have hkind : s.kind = "record_declaration" := List.mem_singleton.1 (Site.shows_iff.1 hshows).1
    exact ⟨.records, ⟨s, hs, decide_eq_true hkind⟩, rfl⟩
  · refine ⟨c, ?_, c.release_feature.symm⟩
    by_cases hc : c = .sealedTypes
    · subst hc
      exact t.holds_sealedTypes (hseal rfl) hs h
    · exact ⟨s, hs, (Construct.shows_feature_iff hc).1 hshows⟩

/-! ## The verdict of the grammar -/

namespace Profiles

/-- The verdict is the newest release of a construct that occurs, or the baseline. -/
theorem minimumRelease_bounds {t : SyntaxTree} {g : Int}
    (h : builtin.minimumRelease t = .release g) :
    baselineRelease ≤ g ∧ ∀ c, t.Holds c → c.allowedSince ≤ g := by
  obtain ⟨as, p, bs, hsplit, rfl, hacc, -⟩ := minimumRelease_eq_release h
  have hp : p ∈ builtin.toList := by simp [hsplit]
  exact ⟨baseline_le_builtin hp, fun c hc => Int.not_lt.1 fun hlt =>
    Profile.accepts_iff.1 hacc c ((exact_builtin hp c).2 hlt) hc⟩

end Profiles

/-- The new syntax that a tree shows. -/
def SyntaxTree.newSyntax (t : SyntaxTree) (rules : RuleTable) : List Feature :=
  (t.features rules).filter (·.isNewSyntax)

theorem SyntaxTree.mem_newSyntax_of_form {t : SyntaxTree} {f : Feature} (rules : RuleTable)
    (hf : f.isNewSyntax = true) (h : ∃ s ∈ t.sites, f ∈ s.formFeatures t.source) :
    f ∈ t.newSyntax rules := by
  obtain ⟨s, hs, hform⟩ := h
  exact List.mem_filter.2 ⟨t.mem_features_of_form rules hs hform, hf⟩

theorem Construct.mem_newSyntax {t : SyntaxTree} {c : Construct} (rules : RuleTable)
    (h : t.Holds c) : c.feature ∈ t.newSyntax rules := by
  obtain ⟨s, hs, ho⟩ := h
  exact t.mem_newSyntax_of_form rules (by cases c <;> decide) ⟨s, hs, feature_mem_formFeatures ho⟩

theorem Feature.requiredRelease_cases (floor : Int) (fs : List Feature) :
    requiredRelease floor fs = floor ∨ ∃ f ∈ fs, requiredRelease floor fs = f.release := by
  unfold requiredRelease
  cases hmax : (fs.map release).max? with
  | none => exact .inl rfl
  | some r =>
    obtain ⟨f, hf, rfl⟩ := List.mem_map.1 (List.max?_eq_some_iff.1 hmax).1
    exact .inr ⟨f, hf, rfl⟩

namespace SyntaxTree

theorem baseline_le_newSyntax (t : SyntaxTree) (rules : RuleTable) :
    baselineRelease ≤ Feature.requiredRelease baselineRelease (t.newSyntax rules) := by
  rcases Feature.requiredRelease_cases baselineRelease (t.newSyntax rules) with heq | ⟨f, hf, heq⟩
  · exact Int.le_of_eq heq.symm
  · rw [heq]
    exact Int.le_of_lt (Feature.isNewSyntax_iff.1 (List.mem_filter.1 hf).2).2.1

theorem exists_construct_of_mem_newSyntax {t : SyntaxTree} {rules : RuleTable} {f : Feature}
    (hf : f ∈ t.newSyntax rules) (hname : ¬ t.ShownByName rules f)
    (hseal : f = .sealedClasses → t.SealsTypes) : ∃ c, t.Holds c ∧ c.allowedSince = f.release := by
  obtain ⟨hmem, hnew⟩ := List.mem_filter.1 hf
  rcases shownByName_or_form hmem with h | ⟨s, hs, hform⟩
  · exact absurd h hname
  · exact exists_construct_of_form hnew hseal hs hform

/-- **The visitor sees no newer syntax than the grammar**, but for what names show and for `sealed`
in other places than at types. New syntax that no name shows is a construct of the same release
somewhere in the tree, and a name shows it only if a rule stands for it, as no built-in rule does.
So where no name shows new syntax and only types are called sealed, the verdict of the grammar is the
newest release of the new syntax, or the baseline. -/
theorem newSyntax_is_construct (t : SyntaxTree) (rules : List Rule) :
    (∀ f ∈ t.newSyntax (.ofRules rules), ¬ t.ShownByName (.ofRules rules) f →
      (f = .sealedClasses → t.SealsTypes) → ∃ c, t.Holds c ∧ c.allowedSince = f.release) ∧
    (∀ f, f.isNewSyntax = true → t.ShownByName (.ofRules rules) f → ∃ r ∈ rules, r.feature = f) ∧
    (∀ r ∈ RuleTable.builtinRules, r.feature.isNewSyntax = false) ∧
    ((∀ f, f.isNewSyntax = true → ¬ t.ShownByName (.ofRules rules) f) → t.SealsTypes →
      Profiles.builtin.minimumRelease t =
        .release (Feature.requiredRelease baselineRelease (t.newSyntax (.ofRules rules)))) := by
  refine ⟨fun f hf hname hseal => exists_construct_of_mem_newSyntax hf hname hseal,
    fun f hf hname => exists_rule_of_shownByName (Feature.isNewSyntax_iff.1 hf).1 hname,
    RuleTable.isNewSyntax_of_mem_builtinRules,
    fun hnames hseal => ?_⟩
  obtain ⟨g, hg⟩ := Profiles.exists_builtin_minimumRelease t
  obtain ⟨hbase, hbound⟩ := Profiles.minimumRelease_bounds hg
  rw [hg, Verdict.release.injEq]
  apply Int.le_antisymm
  · by_cases hne : g = baselineRelease
    · rw [hne]
      exact t.baseline_le_newSyntax _
    · obtain ⟨c, hc, hle⟩ := Profiles.exists_construct_of_minimumRelease hg hne
      rw [← c.release_feature] at hle
      exact Int.le_trans hle (Feature.le_requiredRelease _ (Construct.mem_newSyntax _ hc))
  · rcases Feature.requiredRelease_cases baselineRelease (t.newSyntax (.ofRules rules)) with
      heq | ⟨f, hf, heq⟩
    · rw [heq]
      exact hbase
    · have hname := hnames f (List.mem_filter.1 hf).2
      obtain ⟨c, hc, hrelease⟩ := exists_construct_of_mem_newSyntax hf hname fun _ => hseal
      rw [heq, ← hrelease]
      exact hbound c hc

end SyntaxTree

/-! ## Sealed members

A class and a method with the same modifiers. The grammar refuses the class
before release 17, and it has nothing against the method. -/

namespace SealedMember

open LocalEnum (mark named held)

/-- A class with one sealed member that ends at byte `stop`. -/
def program (kind : String) (stop : Nat) (rest : List Node) : Node :=
  named "program" 0 (stop + 2) [named "class_declaration" 0 (stop + 2) [mark "class" 0 5,
    held "identifier" "name" 6 7,
    named "class_body" 8 (stop + 2) [mark "\x7b" 8 9,
      named kind 10 stop (named "modifiers" 10 16 [mark "sealed" 10 16] :: rest),
      mark "\x7d" (stop + 1) (stop + 2)]]]

def typeTree : SyntaxTree where
  source := "class A \x7b sealed class T \x7b \x7d \x7d"
  root := program "class_declaration" 28 [mark "class" 17 22, held "identifier" "name" 23 24,
    named "class_body" 25 28 [mark "\x7b" 25 26, mark "\x7d" 27 28]]

theorem verdict_seventeen : typeTree.SealsTypes ∧ .sealedClasses ∈ typeTree.newSyntax .builtin ∧
    (∃ c, typeTree.Holds c ∧ c.allowedSince = 17) ∧
    Profiles.builtin.minimumRelease typeTree =
      .release (Feature.requiredRelease 8 (typeTree.newSyntax .builtin)) := by
  have hseals : typeTree.SealsTypes := by
    unfold SyntaxTree.SealsTypes
    decide +kernel
  have hsealed : .sealedClasses ∈ typeTree.newSyntax .builtin :=
    typeTree.mem_newSyntax_of_form _ (by decide) (by decide +kernel)
  obtain ⟨hconstruct, hrule, hbuiltin, hverdict⟩ :=
    typeTree.newSyntax_is_construct RuleTable.builtinRules
  have hnames : ∀ f, f.isNewSyntax = true → ¬ typeTree.ShownByName .builtin f := by
    intro f hf hname
    obtain ⟨r, hr, rfl⟩ := hrule f hf hname
    rw [hbuiltin r hr] at hf
    cases hf
  exact ⟨hseals, hsealed, hconstruct _ hsealed (hnames _ (by decide)) fun _ => hseals,
    hverdict hnames hseals⟩

def methodTree : SyntaxTree where
  source := "class A \x7b sealed void f() \x7b \x7d \x7d"
  root := program "method_declaration" 29 [held "void_type" "type" 17 21,
    held "identifier" "name" 22 23,
    named "formal_parameters" 23 25 [mark "(" 23 24, mark ")" 24 25],
    named "block" 26 29 [mark "\x7b" 26 27, mark "\x7d" 28 29]]

/-- An import from the package of a rule. -/
def importTree : SyntaxTree where
  source := "import a.b.C;"
  root := named "program" 0 13 [named "import_declaration" 0 13 [mark "import" 0 6,
    named "scoped_identifier" 7 12 [
      named "scoped_identifier" 7 10 [named "identifier" 7 8 [], mark "." 8 9,
        held "identifier" "name" 9 10],
      mark "." 10 11, held "identifier" "name" 11 12],
    mark ";" 12 13]]

def recordRule : Rule := .ofPackage "a.b" .records

/-- New syntax without a construct: `sealed` at a method, and a record that is only a name. -/
theorem shown_unseen :
    (methodTree.faults.count = 0 ∧ .sealedClasses ∈ methodTree.newSyntax .builtin ∧
      (∀ c, ¬ methodTree.Holds c) ∧ Profiles.builtin.minimumRelease methodTree = .release 8) ∧
    (importTree.faults.count = 0 ∧ .records ∈ importTree.newSyntax (.ofRules [recordRule]) ∧
      (∀ c, ¬ importTree.Holds c) ∧ Profiles.builtin.minimumRelease importTree = .release 8) := by
  have hnone : ∀ {t : SyntaxTree}, Profiles.builtin.oldest.accepts t = true →
      ∀ c, ¬ t.Holds c := fun h c =>
    Profile.accepts_iff.1 h c (by cases c <;> decide)
  refine ⟨⟨by decide +kernel, ?_, hnone (by decide +kernel), by decide +kernel⟩,
    ⟨by decide +kernel, ?_, hnone (by decide +kernel), by decide +kernel⟩⟩
  · exact methodTree.mem_newSyntax_of_form _ (by decide) (by decide +kernel)
  · have himport : .single "a.b.C" ∈
        (ImportScope.ofProgram importTree.source importTree.root).imports := by decide +kernel
    have hrecords : .records ∈ (RuleTable.ofRules [recordRule]).importFeatures "a.b.C" := by
      rw [RuleTable.importFeatures_ofRules]
      decide +kernel
    exact List.mem_filter.2 ⟨(importTree.mem_features_iff _).2
      (.inl (List.mem_flatMap.2 ⟨_, himport, hrecords⟩)), by decide⟩

end SealedMember

end MinimumRelease
