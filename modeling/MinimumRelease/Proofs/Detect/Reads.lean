import MinimumRelease.Detect.Visit
import MinimumRelease.Proofs.Tree.Layout

/-! # What the visitor reads

Most shapes are told from kinds and fields alone. The visitor reads the text of
few nodes: names, literals and line comments, the parts of member chains, the
names of annotations and imports, and the type of a boxed variable
(`SyntaxTree.readNodes`). Each of them is a node of the tree, and none is a bare
keyword. -/

namespace MinimumRelease

namespace Node

/-! ## Member chains -/

/-- The chain inside a link, and the name that the link adds behind a dot. A type with arguments
adds none. -/
def link? (n : Node) : Option (Node × Option Node) :=
  if n.kind = "field_access" then
    match n.child? "object", n.child? "field" with
    | some object, some field => some (object, some field)
    | _, _ => none
  else if n.kind = "scoped_identifier" || n.kind = "scoped_type_identifier" then
    match n.significant.filter (!·.isAnnotationNode) with
    | scope :: next :: more => some (scope, some ((next :: more).getLastD next))
    | _ => none
  else if n.kind = "generic_type" then n.significant.head?.map (·, none)
  else none

/-- The parent holds the node under a field, or the node is named. A bare keyword is neither. -/
def IsHeld (n parent : Node) : Prop :=
  n ∈ parent.children ∧ (n.fields ≠ [] ∨ n.named = true)

theorem isHeld_of_child? {n parent : Node} {field : String} (h : parent.child? field = some n) :
    n.IsHeld parent := by
  refine ⟨mem_of_child? h, .inl ?_⟩
  have hcontains := List.find?_some h
  intro hnil
  rw [hnil] at hcontains
  cases hcontains

theorem isHeld_of_mem_significant {n parent : Node} (h : n ∈ parent.significant) :
    n.IsHeld parent := by
  refine ⟨mem_of_mem_significant h, .inr ?_⟩
  exact (Bool.and_eq_true_iff.1 (List.mem_filter.1 h).2).1

theorem link?_spec {n inner : Node} {added : Option Node} (h : n.link? = some (inner, added)) :
    inner.IsHeld n ∧ ∀ name, added = some name → name.IsHeld n := by
  unfold link? at h
  split at h
  · split at h
    · next object field hobject hfield =>
      cases h
      refine ⟨isHeld_of_child? hobject, fun name hname => ?_⟩
      cases hname
      exact isHeld_of_child? hfield
    · cases h
  · split at h
    · split at h
      · next scope next more hparts =>
        cases h
        have hmem : ∀ c ∈ inner :: next :: more, c.IsHeld n := fun c hc =>
          isHeld_of_mem_significant (List.mem_filter.1 (hparts ▸ hc)).1
        refine ⟨hmem inner List.mem_cons_self, fun name hname => ?_⟩
        cases hname
        refine hmem _ (List.mem_cons_of_mem _ ?_)
        rw [List.getLastD_eq_getLast?, List.getLast?_eq_some_getLast (List.cons_ne_nil _ _)]
        exact List.getLast_mem _
      · cases h
    · split at h
      · obtain ⟨base, hbase, heq⟩ := Option.map_eq_some_iff.1 h
        cases heq
        refine ⟨isHeld_of_mem_significant (List.mem_of_head? hbase), fun name hname => ?_⟩
        cases hname
      · cases h

/-- The names that a member chain is made of: the first one, and those behind the dots. -/
def chainParts? (n : Node) : Option (Node × List Node) :=
  if n.kind = "identifier" || n.kind = "type_identifier" then some (n, [])
  else
    match _h : n.link? with
    | some (inner, added) =>
      inner.chainParts?.map fun parts => (parts.1, parts.2 ++ added.toList)
    | none => none
termination_by n.size
decreasing_by exact size_lt_of_mem (link?_spec _h).1.1

theorem chainParts?_eq_link? (n : Node)
    (h : ¬ (n.kind = "identifier" || n.kind = "type_identifier") = true) :
    n.chainParts? = n.link?.bind fun link =>
      link.1.chainParts?.map fun parts => (parts.1, parts.2 ++ link.2.toList) := by
  rw [chainParts?, if_neg h]
  split
  · next inner added hlink => rw [hlink, Option.bind_some]
  · next hlink => rw [hlink, Option.bind_none]

/-- The dotted name that the parts of a chain spell. -/
def dotted (source : String) (parts : Node × List Node) : String :=
  parts.2.foldl (fun name part => name ++ "." ++ part.text source) (parts.1.text source)

theorem memberChain?_eq_link? (source : String) (n : Node)
    (h : ¬ (n.kind = "identifier" || n.kind = "type_identifier") = true) :
    n.memberChain? source = n.link?.bind fun link => (link.1.memberChain? source).map fun chain =>
      link.2.elim chain (chain ++ "." ++ ·.text source) := by
  unfold link?
  rw [memberChain?, if_neg h]
  split
  · split
    · next object field hobject hfield =>
      rw [hobject, hfield]
      rfl
    · next hnone =>
      split
      · next object field hobject hfield => exact (hnone object field hobject hfield).elim
      · rfl
  · split
    · split
      · next scope next more hparts =>
        rw [hparts]
        rfl
      · next hnone =>
        split
        · next scope next more hparts => exact (hnone scope next more hparts).elim
        · rfl
    · split
      · split
        · next base more hbase =>
          rw [hbase]
          exact Option.map_id'.symm
        · next hnone =>
          rw [hnone]
          rfl
      · rfl

/-- The visitor reads a chain part by part. -/
theorem memberChain?_eq (source : String) (n : Node) :
    n.memberChain? source = n.chainParts?.map (dotted source) := by
  fun_induction chainParts? n with
  | case1 n h =>
    rw [memberChain?, if_pos h]
    rfl
  | case2 n h inner added hlink ih =>
    rw [memberChain?_eq_link? source n h, hlink, Option.bind_some, ih,
      Option.map_map, Option.map_map]
    cases added with
    | none => simp [dotted, Function.comp_def]
    | some name => simp [dotted, Function.comp_def]
  | case3 n h hlink =>
    rw [memberChain?_eq_link? source n h, hlink]
    rfl

/-- The nodes that are read for the name of a chain. -/
def chainNodes (n : Node) : List Node :=
  match n.chainParts? with
  | some (first, more) => first :: more
  | none => []

/-- A node of the tree below `root` that is no bare keyword. -/
def IsText (n root : Node) : Prop := n.Within root ∧ ∀ start, n.isYieldToken start = false

theorem IsHeld.isText {root n parent : Node} (h : n.IsHeld parent) (hparent : parent.Within root) :
    n.IsText root := by
  refine ⟨(within_of_mem_children h.1).trans hparent, fun start => ?_⟩
  rcases h.2 with hfields | hnamed
  · simp [isYieldToken, hfields]
  · simp [isYieldToken, hnamed]

theorem isText_of_kind {root n : Node} (h : n.Within root) (hkind : n.kind ≠ "yield") :
    n.IsText root :=
  ⟨h, fun start => by simp [isYieldToken, hkind]⟩

theorem isText_of_mem_chainNodes {root n c : Node} (hn : n.Within root) (hc : c ∈ n.chainNodes) :
    c.IsText root := by
  unfold chainNodes at hc
  fun_induction chainParts? n with
  | case1 n h =>
    obtain rfl := List.mem_singleton.1 hc
    refine isText_of_kind hn fun hkind => ?_
    rw [hkind] at h
    cases h
  | case2 n h inner added hlink ih =>
    obtain ⟨hinner, hadded⟩ := link?_spec hlink
    cases hparts : inner.chainParts? with
    | none =>
      rw [hparts] at hc
      cases hc
    | some parts =>
      simp only [hparts, Option.map_some, ← List.cons_append, List.mem_append,
        Option.mem_toList] at hc
      rcases hc with hc | hc
      · exact ih (hinner.isText hn).1 (by simpa only [hparts] using hc)
      · exact (hadded c hc).isText hn
  | case3 n h hlink => cases hc

/-! ## Names beside a node -/

/-- The names of the annotations among the children. -/
def annotationNames (n : Node) : List Node :=
  (n.significant.filter isAnnotationNode).filterMap (·.child? "name")

theorem hasRepeatedAnnotations_eq (source : String) (n : Node) :
    n.hasRepeatedAnnotations source = hasRepetition (n.annotationNames.map (·.text source)) := by
  rw [hasRepeatedAnnotations, annotationNames, List.map_filterMap]

theorem isText_of_mem_annotationNames {root n c : Node} (hn : n.Within root)
    (hc : c ∈ n.annotationNames) : c.IsText root := by
  obtain ⟨a, ha, hname⟩ := List.mem_filterMap.1 hc
  have hheld := isHeld_of_mem_significant (List.mem_filter.1 ha).1
  exact (isHeld_of_child? hname).isText (hheld.isText hn).1

/-- The name that an import declaration names. A module import is not looked at. -/
def importNode? (n : Node) : Option Node :=
  if n.kind = "import_declaration" && !n.isModuleImport then
    n.significant.find? fun c => c.kind = "scoped_identifier" || c.kind = "identifier"
  else none

end Node

theorem Import.ofNode?_eq (source : String) (n : Node) : Import.ofNode? source n =
    n.importNode?.map fun name =>
      if n.isOnDemandImport && !n.isStaticImport then .onDemand (name.text source)
      else .single (name.text source) := by
  rw [Import.ofNode?, Node.importNode?, Node.importName?]
  split
  · rw [Option.map_map]
    rfl
  · rfl

theorem Node.isText_of_importNode? {root n c : Node} (hn : n.Within root)
    (hc : n.importNode? = some c) : c.IsText root := by
  unfold importNode? at hc
  split at hc
  · exact (isHeld_of_mem_significant (List.mem_of_find?_eq_some hc)).isText hn
  · cases hc

/-! ## All that is read -/

/-- Kinds of nodes whose own text is read. -/
def textKinds : List String :=
  ["identifier", "type_identifier", "string_literal", "line_comment"] ++ integerLiterals

namespace Site

/-- The type of a variable that is declared with a primitive literal as its value. -/
def boxedType? (s : Site) : Option Node :=
  if s.kind = "variable_declarator" && (s.node.child? "value").any (·.isPrimitiveLiteral) then
    s.parent?.bind (·.child? "type")
  else none

theorem isBoxingDeclarator_eq (source : String) (s : Site) : s.isBoxingDeclarator source =
    s.boxedType?.any fun type => wrapperTypes.contains (type.text source) := by
  rw [isBoxingDeclarator, boxedType?]
  split
  · next h => rw [h, Bool.true_and]
  · next h => rw [Bool.eq_false_iff.2 h, Bool.false_and]; rfl

/-- The nodes whose text the visitor reads at a site. -/
def readNodes (s : Site) : List Node :=
  (if textKinds.contains s.kind then [s.node] else []) ++
  (if s.kind = "modifiers" then s.node.annotationNames else []) ++
  s.boxedType?.toList ++
  (if s.kind = "method_invocation" then
    (s.node.child? "name").toList ++ (s.node.child? "object").toList.flatMap Node.chainNodes
  else []) ++
  (if Mention.isOutermostLink s then s.node.chainNodes else []) ++
  (if s.kind = "method_reference" then s.node.significant.head?.toList.flatMap Node.chainNodes
  else [])

end Site

/-- The nodes whose text the visitor reads: those of imports, and those of each site. -/
def SyntaxTree.readNodes (t : SyntaxTree) : List Node :=
  t.root.significant.filterMap Node.importNode? ++ t.sites.flatMap Site.readNodes

theorem Site.isText_of_mem_readNodes {root n : Node} {s : Site} (hs : s ∈ root.sites)
    (h : n ∈ s.readNodes) : n.IsText root := by
  obtain ⟨hnode, habove⟩ := Node.within_of_mem_sites hs
  have hchain : ∀ {c : Node}, c ∈ s.node.children → n ∈ c.chainNodes → n.IsText root :=
    fun hc hn => Node.isText_of_mem_chainNodes ((Node.within_of_mem_children hc).trans hnode) hn
  simp only [readNodes, List.mem_append, List.mem_ite_nil_right, List.mem_singleton,
    List.mem_flatMap, Option.mem_toList] at h
  rcases h with ((((⟨hkind, rfl⟩ | ⟨-, h⟩) | h) | ⟨-, h | ⟨c, hc, h⟩⟩) | ⟨-, h⟩) | ⟨-, c, hc, h⟩
  · refine Node.isText_of_kind hnode fun hyield => ?_
    rw [Site.kind, hyield] at hkind
    cases hkind
  · exact Node.isText_of_mem_annotationNames hnode h
  · unfold boxedType? at h
    split at h
    · obtain ⟨parent, hparent, htype⟩ := Option.bind_eq_some_iff.1 h
      exact (Node.isHeld_of_child? htype).isText (habove parent (List.mem_of_head? hparent))
    · cases h
  · exact (Node.isHeld_of_child? h).isText hnode
  · exact hchain (Node.mem_of_child? hc) h
  · exact Node.isText_of_mem_chainNodes hnode h
  · exact hchain (Node.mem_of_mem_significant (List.mem_of_head? hc)) h

/-- **What the visitor reads are nodes of the tree, and no bare keywords.** -/
theorem SyntaxTree.isText_of_mem_readNodes {t : SyntaxTree} {n : Node} (h : n ∈ t.readNodes) :
    n.IsText t.root := by
  rcases List.mem_append.1 h with h | h
  · obtain ⟨c, hc, hname⟩ := List.mem_filterMap.1 h
    have hwithin := Node.within_of_mem_children (Node.mem_of_mem_significant hc)
    exact Node.isText_of_importNode? hwithin hname
  · obtain ⟨s, hs, hn⟩ := List.mem_flatMap.1 h
    exact Site.isText_of_mem_readNodes hs hn

end MinimumRelease
