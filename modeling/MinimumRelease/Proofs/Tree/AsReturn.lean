import Mathlib.Data.List.Basic
import MinimumRelease.Proofs.Recovery.Substitution
import MinimumRelease.Proofs.Tree.Layout
import MinimumRelease.Tree.Shape

/-! # The tree after the keyword pass

The tree of a text with some `yield` keywords replaced is the tree of the text
with `yield` statements made `return` statements and every offset moved. The
walk of such a tree is the walk of the original one with every site changed
(`Node.walk_map`). No shape asks for either statement, so shapes that read no
text are the same in both trees. -/

namespace MinimumRelease

/-! ## Trees changed node by node -/

/-- The site in the tree that `f` makes of every node. -/
def Site.map (f : Node → Node) (s : Site) : Site := ⟨f s.node, s.before.map f, s.above.map f⟩

section Map

variable {f : Node → Node} (hf : ∀ n, (f n).children = n.children.map f)

theorem Site.place_map (above before cs : List Node) :
    place (above.map f) (before.map f) (cs.map f) = (place above before cs).map (Site.map f) := by
  induction cs generalizing before with
  | nil => rfl
  | cons c cs ih => exact congrArg (_ :: ·) (ih (c :: before))

theorem Site.depth_map (s : Site) : (s.map f).depth = s.depth := List.length_map f

theorem Walk.visitAll_map {σ : Type} (limit : Option Nat) (visit : σ → Site → ForInStep σ)
    (state : σ) (ss : List Site) :
    visitAll limit visit state (ss.map (Site.map f)) =
      visitAll limit (fun state s => visit state (s.map f)) state ss := by
  induction ss generalizing state with
  | nil => rfl
  | cons s ss ih => simp only [List.map_cons, visitAll, Site.depth_map, ih]

include hf

theorem Site.children_map (s : Site) : (s.map f).children = s.children.map (Site.map f) := by
  have h := Site.place_map (f := f) (s.node :: s.above) [] s.node.children
  rw [← hf] at h
  exact h

theorem Site.below_map (s : Site) : (s.map f).below = s.below.map (Site.map f) := by
  have hchildren : ∀ c ∈ s.children, (c.map f).below = c.below.map (Site.map f) := by
    intro c hc
    have := Node.size_lt_of_mem (place_spec hc).1
    exact below_map c
  rw [below_eq, below_eq s, children_map hf, List.map_cons, List.map_flatMap, List.flatMap_map,
    List.flatMap_congr hchildren]
termination_by s.node.size

theorem Node.sites_map (root : Node) : (f root).sites = root.sites.map (Site.map f) :=
  Site.below_map hf (.ofRoot root)

/-- A walk of the changed tree is a walk of the tree that changes each site before it looks. -/
theorem Node.walk_map {σ : Type} (root : Node) (limit : Option Nat)
    (visit : σ → Site → ForInStep σ) (state : σ) :
    (f root).walk limit visit state =
      root.walk limit (fun state s => visit state (s.map f)) state := by
  rw [walk_eq, walk_eq, sites_map hf, Walk.visitAll_map]

end Map

/-! ## Statements made `return` statements -/

/-- The two statements and their keywords. -/
def statementKinds : List String := ["yield_statement", "yield", "return_statement", "return"]

/-- The kind of a `return` statement, or of its keyword, for that of a `yield` statement. -/
def returnKind (kind : String) : String :=
  if kind = "yield_statement" then "return_statement" else if kind = "yield" then "return" else kind

namespace Node

mutual

/-- The tree of a text after the keywords at `places` are replaced: the `yield` statements that
begin there are `return` statements, and every offset moves by the keywords before it. -/
def asReturn (places : List Nat) : Node → Node
  | ⟨kind, named, missing, start, stop, fields, children⟩ =>
    ⟨if places.contains start then returnKind kind else kind, named, missing,
      Recovery.shift places start, Recovery.shift places stop, fields,
      asReturns places children⟩

/-- Several trees after the keywords are replaced. -/
def asReturns (places : List Nat) : List Node → List Node
  | [] => []
  | n :: ns => n.asReturn places :: asReturns places ns

end

theorem asReturns_eq (places : List Nat) (ns : List Node) :
    asReturns places ns = ns.map (asReturn places) := by
  induction ns with
  | nil => rfl
  | cons n ns ih => rw [asReturns, ih, List.map_cons]

section AsReturn

variable (places : List Nat) (n : Node)

@[simp] theorem asReturn_children :
    (n.asReturn places).children = n.children.map (asReturn places) := by
  cases n
  exact asReturns_eq places _

@[simp] theorem asReturn_named : (n.asReturn places).named = n.named := by cases n; rfl

@[simp] theorem asReturn_missing : (n.asReturn places).missing = n.missing := by cases n; rfl

@[simp] theorem asReturn_fields : (n.asReturn places).fields = n.fields := by cases n; rfl

theorem asReturn_start : (n.asReturn places).start = Recovery.shift places n.start := by
  cases n; rfl

theorem asReturn_stop : (n.asReturn places).stop = Recovery.shift places n.stop := by
  cases n; rfl

theorem asReturn_kind : (n.asReturn places).kind =
    if places.contains n.start then returnKind n.kind else n.kind := by
  cases n; rfl

/-- What does not tell the two statements apart, nor their keywords, is the same of both kinds. -/
theorem asReturn_kind_apply {α : Type} (p : String → α)
    (hstatement : p "return_statement" = p "yield_statement") (hkeyword : p "return" = p "yield") :
    p (n.asReturn places).kind = p n.kind := by
  rw [asReturn_kind, returnKind]
  split
  · split
    · next h => rw [h, hstatement]
    · split
      · next h => rw [h, hkeyword]
      · rfl
  · rfl

@[simp] theorem asReturn_kind_mem {kinds : List String} (h : ∀ k ∈ statementKinds, k ∉ kinds) :
    (n.asReturn places).kind ∈ kinds ↔ n.kind ∈ kinds := by
  refine iff_of_eq (n.asReturn_kind_apply places (· ∈ kinds) ?_ ?_)
  · exact propext (iff_of_false (h _ (by decide)) (h _ (by decide)))
  · exact propext (iff_of_false (h _ (by decide)) (h _ (by decide)))

@[simp] theorem asReturn_kind_eq {kind : String} (h : kind ∉ statementKinds) :
    (n.asReturn places).kind = kind ↔ n.kind = kind := by
  have hmem : (n.asReturn places).kind ∈ [kind] ↔ n.kind ∈ [kind] :=
    n.asReturn_kind_mem places fun k hk hkind => h (List.mem_singleton.1 hkind ▸ hk)
  rwa [List.mem_singleton, List.mem_singleton] at hmem

theorem kind_of_asReturn_yield (h : (n.asReturn places).kind = "yield_statement") :
    n.kind = "yield_statement" := by
  rw [asReturn_kind, returnKind] at h
  grind

@[simp] theorem asReturn_isComment : (n.asReturn places).isComment = n.isComment := by
  simp (disch := decide) [isComment]

@[simp] theorem asReturn_significant :
    (n.asReturn places).significant = n.significant.map (asReturn places) := by
  simp [significant, List.filter_map, Function.comp_def]

/-- A search by what the pass does not change finds the same node. -/
theorem find?_map_asReturn {p q : Node → Bool} (h : ∀ n, p (n.asReturn places) = q n)
    (ns : List Node) : (ns.map (asReturn places)).find? p = (ns.find? q).map (asReturn places) := by
  rw [List.find?_map, show p ∘ asReturn places = q from funext h]

@[simp] theorem asReturn_child? (field : String) :
    (n.asReturn places).child? field = (n.child? field).map (asReturn places) := by
  rw [child?, asReturn_children]
  exact find?_map_asReturn places (fun c => by rw [asReturn_fields]) n.children

@[simp] theorem asReturn_fieldIndex? (field : String) :
    (n.asReturn places).fieldIndex? field = n.fieldIndex? field := by
  simp [fieldIndex?, List.findIdx?_map, Function.comp_def]

@[simp] theorem asReturn_hasChild {kind : String} (h : kind ∉ statementKinds) :
    (n.asReturn places).hasChild kind = n.hasChild kind := by
  simp [hasChild, List.any_map, Function.comp_def, h]

@[simp] theorem asReturn_hasModifier {keyword : String} (h : keyword ∉ statementKinds) :
    (n.asReturn places).hasModifier keyword = n.hasModifier keyword := by
  have hmodifiers : (n.asReturn places).modifiers? = n.modifiers?.map (asReturn places) := by
    rw [modifiers?, asReturn_children]
    exact find?_map_asReturn places (fun c => by simp (disch := decide)) n.children
  simp [hasModifier, hmodifiers, Option.any_map, h]

@[simp] theorem asReturn_isAnnotationNode :
    (n.asReturn places).isAnnotationNode = n.isAnnotationNode := by
  simp (disch := decide) [isAnnotationNode]

@[simp] theorem asReturn_isPrimitiveLiteral :
    (n.asReturn places).isPrimitiveLiteral = n.isPrimitiveLiteral := by
  simp (disch := decide) [isPrimitiveLiteral]

@[simp] theorem asReturn_isPatternPart :
    (n.asReturn places).isPatternPart = n.isPatternPart := by
  simp (disch := decide) [isPatternPart]

@[simp] theorem asReturn_isDiamond : (n.asReturn places).isDiamond = n.isDiamond := by
  simp (disch := decide) [isDiamond]

@[simp] theorem asReturn_labelValues :
    (n.asReturn places).labelValues = n.labelValues.map (asReturn places) := by
  simp [labelValues, List.filter_map, Function.comp_def]

@[simp] theorem asReturn_isVariableResource :
    (n.asReturn places).isVariableResource = n.isVariableResource := by
  rw [isVariableResource, isVariableResource, asReturn_significant]
  rcases n.significant with _ | ⟨c, _ | ⟨d, ds⟩⟩ <;> simp (disch := decide)

@[simp] theorem asReturn_isDiamondWithBody :
    (n.asReturn places).isDiamondWithBody = n.isDiamondWithBody := by
  rw [isDiamondWithBody, isDiamondWithBody, asReturn_child?]
  cases n.child? "type" with
  | none => simp (disch := decide) [hasAnonymousBody]
  | some type =>
    have harguments : (type.significant.map (asReturn places)).find? (·.kind = "type_arguments") =
        (type.significant.find? (·.kind = "type_arguments")).map (asReturn places) :=
      find?_map_asReturn places (fun c => by simp (disch := decide)) type.significant
    simp (disch := decide) only [hasAnonymousBody, asReturn_kind_eq, asReturn_hasChild,
      Option.map_some, Option.filter_some]
    split <;> simp [harguments, Option.any_map]

end AsReturn

end Node

namespace Site

/-- The site in the tree after the keywords at `places` are replaced. -/
abbrev asReturn (places : List Nat) (s : Site) : Site := s.map (Node.asReturn places)

variable (places : List Nat) (s : Site)

@[simp] theorem asReturn_node : (s.asReturn places).node = s.node.asReturn places := rfl

@[simp] theorem asReturn_before :
    (s.asReturn places).before = s.before.map (Node.asReturn places) := rfl

@[simp] theorem asReturn_above :
    (s.asReturn places).above = s.above.map (Node.asReturn places) := rfl

@[simp] theorem asReturn_kind_mem {kinds : List String} (h : ∀ k ∈ statementKinds, k ∉ kinds) :
    (s.asReturn places).kind ∈ kinds ↔ s.kind ∈ kinds :=
  s.node.asReturn_kind_mem places h

@[simp] theorem asReturn_kind_eq {kind : String} (h : kind ∉ statementKinds) :
    (s.asReturn places).kind = kind ↔ s.kind = kind :=
  s.node.asReturn_kind_eq places h

@[simp] theorem asReturn_parent? :
    (s.asReturn places).parent? = s.parent?.map (Node.asReturn places) := by
  simp [parent?]

theorem asReturn_parentKind?_any {p : String → Bool}
    (hstatement : p "return_statement" = p "yield_statement") (hkeyword : p "return" = p "yield") :
    (s.asReturn places).parentKind?.any p = s.parentKind?.any p := by
  rw [parentKind?, parentKind?, asReturn_parent?]
  cases s.parent? with
  | none => rfl
  | some n => exact n.asReturn_kind_apply places p hstatement hkeyword

@[simp] theorem asReturn_isUnder {kind : String} (h : kind ∉ statementKinds) :
    (s.asReturn places).isUnder kind = s.isUnder kind := by
  rw [isUnder, isUnder, parentKind?, parentKind?, asReturn_parent?]
  cases s.parent? with
  | none => rfl
  | some n => simp [h]

@[simp] theorem asReturn_isHeldAs (field : String) :
    (s.asReturn places).isHeldAs field = s.isHeldAs field := by
  rw [isHeldAs, isHeldAs, asReturn_parent?, asReturn_before, List.length_map]
  cases s.parent? with
  | none => rfl
  | some parent => simp

@[simp] theorem asReturn_isInExecutableCode :
    (s.asReturn places).isInExecutableCode = s.isInExecutableCode := by
  simp (disch := decide) [isInExecutableCode, Function.comp_def, Option.any_map]

@[simp] theorem asReturn_isSwitchExpression :
    (s.asReturn places).isSwitchExpression = s.isSwitchExpression := by
  rw [isSwitchExpression, isSwitchExpression, asReturn_parentKind?_any places s rfl rfl]
  simp (disch := decide)

@[simp] theorem asReturn_isTypeUseMarkup :
    (s.asReturn places).isTypeUseMarkup = s.isTypeUseMarkup := by
  rw [isTypeUseMarkup, isTypeUseMarkup, asReturn_parentKind?_any places s rfl rfl]
  simp

@[simp] theorem asReturn_isLateConstructorCall :
    (s.asReturn places).isLateConstructorCall = s.isLateConstructorCall := by
  simp (disch := decide) [isLateConstructorCall, Function.comp_def]

end Site

end MinimumRelease
