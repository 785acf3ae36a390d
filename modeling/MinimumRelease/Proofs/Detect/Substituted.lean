import MinimumRelease.Proofs.Detect.Reads
import MinimumRelease.Proofs.Grammar.Agreement
import MinimumRelease.Proofs.Tree.AsReturn

/-! # Features of the tree after the keyword pass

As long as the nodes that the visitor reads keep their text, it sees in the
changed tree what it sees in the tree, site by site, but for the statements that
are no longer `yield` statements. The features are then the same, and `yield` is
the only one that can be lost (`SyntaxTree.mem_features_asReturn`). -/

namespace MinimumRelease

/-- The nodes read the same after the replacement of the keywords at `places`. -/
def ReadAlike (places : List Nat) (source changed : String) (ns : List Node) : Prop :=
  ∀ n ∈ ns, (n.asReturn places).text changed = n.text source

variable {places : List Nat} {source changed : String}

namespace Node

/-! ## Names -/

theorem asReturn_link? (n : Node) : (n.asReturn places).link? =
    n.link?.map (Prod.map (asReturn places) (Option.map (asReturn places))) := by
  have hparts : (n.asReturn places).significant.filter (!·.isAnnotationNode) =
      (n.significant.filter (!·.isAnnotationNode)).map (asReturn places) := by
    simp [List.filter_map, Function.comp_def]
  rw [link?, link?, hparts]
  simp (disch := decide) only [asReturn_kind_eq, asReturn_child?, asReturn_significant]
  split
  · cases n.child? "object" <;> cases n.child? "field" <;> rfl
  · split
    · generalize n.significant.filter (!·.isAnnotationNode) = parts
      rcases parts with _ | ⟨scope, _ | ⟨next, more⟩⟩
      · rfl
      · rfl
      · simp only [List.map_cons, Option.map_some, Prod.map, List.getLastD_eq_getLast?]
        rw [← List.map_cons, List.getLast?_map, Option.getD_map]
    · split
      · simp [Function.comp_def]
      · rfl

theorem asReturn_chainParts? (n : Node) : (n.asReturn places).chainParts? =
    n.chainParts?.map (Prod.map (asReturn places) (List.map (asReturn places))) := by
  fun_induction chainParts? n with
  | case1 n h =>
    rw [chainParts?, if_pos (by simpa (disch := decide) using h)]
    rfl
  | case2 n h inner added hlink ih =>
    rw [chainParts?_eq_link? _ (by simpa (disch := decide) using h), asReturn_link?, hlink]
    show (asReturn places inner).chainParts?.map _ = _
    rw [ih, Option.map_map, Option.map_map]
    cases added <;> simp [Function.comp_def]
  | case3 n h hlink =>
    rw [chainParts?_eq_link? _ (by simpa (disch := decide) using h), asReturn_link?, hlink]
    rfl

theorem asReturn_memberChain? {n : Node} (h : ReadAlike places source changed n.chainNodes) :
    (n.asReturn places).memberChain? changed = n.memberChain? source := by
  rw [memberChain?_eq, memberChain?_eq, asReturn_chainParts?]
  unfold chainNodes at h
  cases hparts : n.chainParts? with
  | none => rfl
  | some parts =>
    rw [hparts] at h
    have hfirst := h parts.1 List.mem_cons_self
    have hmore := List.foldl_ext
      (fun name (part : Node) => name ++ "." ++ (part.asReturn places).text changed)
      (fun name part => name ++ "." ++ part.text source) (parts.1.text source)
      fun name part hpart => by rw [h part (List.mem_cons_of_mem _ hpart)]
    rw [Option.map_map, Option.map_some, Option.map_some, Function.comp_apply, dotted, dotted,
      Prod.map, List.foldl_map, hfirst, hmore]

theorem asReturn_annotationNames (n : Node) :
    (n.asReturn places).annotationNames = n.annotationNames.map (asReturn places) := by
  simp [annotationNames, List.filter_map, List.filterMap_map, List.map_filterMap,
    Function.comp_def]

theorem asReturn_importNode? (n : Node) :
    (n.asReturn places).importNode? = n.importNode?.map (asReturn places) := by
  rw [importNode?, importNode?, isModuleImport, isModuleImport]
  simp (disch := decide) only [asReturn_kind_eq, asReturn_hasChild, asReturn_significant]
  split
  · exact Node.find?_map_asReturn places (fun c => by simp (disch := decide)) n.significant
  · rfl

end Node

theorem Import.ofNode?_asReturn {n : Node}
    (h : ReadAlike places source changed n.importNode?.toList) :
    Import.ofNode? changed (n.asReturn places) = Import.ofNode? source n := by
  rw [ofNode?_eq, ofNode?_eq, Node.asReturn_importNode?]
  cases hname : n.importNode? with
  | none => rfl
  | some name =>
    have htext := h name (by simp [hname])
    simp (disch := decide) [Node.isOnDemandImport, Node.isStaticImport, htext]

namespace Site

/-! ## Forms -/

theorem asReturn_boxedType? (s : Site) :
    (s.asReturn places).boxedType? = s.boxedType?.map (Node.asReturn places) := by
  rw [boxedType?, boxedType?]
  simp (disch := decide) only [asReturn_kind_eq, asReturn_node, Node.asReturn_child?,
    Option.any_map, Node.asReturn_isPrimitiveLiteral, asReturn_parent?]
  split
  · cases s.parent? with
    | none => rfl
    | some parent => simp
  · rfl

theorem asReturn_text {s : Site} (hr : ReadAlike places source changed s.readNodes)
    (hkind : s.kind ∈ textKinds) :
    (s.node.asReturn places).text changed = s.node.text source := by
  apply hr
  simp [readNodes, hkind]

theorem asReturn_isBoxingDeclarator {s : Site}
    (hr : ReadAlike places source changed s.readNodes) :
    (s.asReturn places).isBoxingDeclarator changed = s.isBoxingDeclarator source := by
  rw [isBoxingDeclarator_eq, isBoxingDeclarator_eq, asReturn_boxedType?]
  cases htype : s.boxedType? with
  | none => rfl
  | some type =>
    have htext := hr type (by simp [readNodes, htype])
    simp [htext]

theorem asReturn_isBoxingCall {s : Site} (hr : ReadAlike places source changed s.readNodes) :
    (s.node.asReturn places).isBoxingCall changed = s.node.isBoxingCall source := by
  rw [Node.isBoxingCall, Node.isBoxingCall]
  by_cases hkind : s.node.kind = "method_invocation"
  · cases hname : s.node.child? "name" with
    | none => simp [hname]
    | some name =>
      have htext := hr name (by simp [readNodes, Site.kind, hkind, hname])
      simp (disch := decide) [hname, htext, Option.any_map, List.any_map, Function.comp_def]
  · simp (disch := decide) [hkind]

/-- Parents under which a type is that of a local variable, a loop variable or a resource. -/
def localTypeParents : List String :=
  ["local_variable_declaration", "enhanced_for_statement", "resource"]

/-- The nearest ancestors of the type of a lambda parameter. -/
def lambdaTypeScope : List String := ["formal_parameter", "formal_parameters", "lambda_expression"]

/-- The kinds of the ancestors decide where a type stands. -/
theorem varPosition?_eq (source : String) (s : Site) : s.varPosition? source =
    if s.kind = "type_identifier" && s.node.text source = "var" && s.isHeldAs "type" then
      if (s.above.map (·.kind)).head?.any localTypeParents.contains then some .localVariable
      else if (s.above.map (·.kind)).take 3 = lambdaTypeScope then some .lambdaParameter
      else none
    else none := by
  rw [varPosition?]
  split
  · generalize s.above.map (·.kind) = kinds
    split
    · rfl
    · rfl
    · rfl
    · rfl
    · next hlocal hloop hresource hlambda =>
      cases kinds with
      | nil => rfl
      | cons kind kinds =>
        have hhead : kind ≠ "local_variable_declaration" ∧ kind ≠ "enhanced_for_statement" ∧
            kind ≠ "resource" :=
          ⟨fun h => hlocal kinds (by rw [h]), fun h => hloop kinds (by rw [h]),
            fun h => hresource kinds (by rw [h])⟩
        have htake : (kind :: kinds).take 3 ≠ lambdaTypeScope := by
          intro h
          have hsplit := List.take_append_drop 3 (kind :: kinds)
          rw [h] at hsplit
          exact hlambda _ hsplit.symm
        rw [if_neg (by simp [localTypeParents, hhead]), if_neg htake]
  · rfl

theorem asReturn_varPosition? {s : Site} (hr : ReadAlike places source changed s.readNodes) :
    (s.asReturn places).varPosition? changed = s.varPosition? source := by
  rw [varPosition?_eq, varPosition?_eq]
  by_cases hkind : s.kind = "type_identifier"
  · have htext := asReturn_text hr (by rw [hkind]; decide)
    have hhead : ((s.above.map (Node.asReturn places)).map (·.kind)).head?.any
        localTypeParents.contains = (s.above.map (·.kind)).head?.any localTypeParents.contains := by
      cases s.above <;> simp (disch := decide)
    have htake : ((s.above.map (Node.asReturn places)).map (·.kind)).take 3 = lambdaTypeScope ↔
        (s.above.map (·.kind)).take 3 = lambdaTypeScope := by
      rcases s.above with _ | ⟨a, _ | ⟨b, _ | ⟨c, ns⟩⟩⟩ <;>
        simp (disch := decide) [lambdaTypeScope]
    simp (disch := decide) only [asReturn_kind_eq, asReturn_node, htext, asReturn_isHeldAs,
      asReturn_above, hhead, htake]
  · simp (disch := decide) [hkind]

/-- What a site has to meet for a feature to show there does not depend on the pass. -/
theorem asReturn_meets {s : Site} {f : Feature} (hk : s.kind ∈ f.kinds)
    (hr : ReadAlike places source changed s.readNodes) :
    (s.asReturn places).meets changed f = s.meets source f := by
  cases f with
  | autoboxing =>
    show (_ || _) = (_ || _)
    rw [asReturn_isBoxingDeclarator hr, asReturn_node, asReturn_isBoxingCall hr]
  | binaryLiterals | underscoresInLiterals | textBlocks | unnamedVariables
  | markdownDocComments =>
    -- the node is read, or its kind already decides
    by_cases hkind : s.kind ∈ textKinds
    · simp (disch := decide) [meets, Node.isBinaryLiteral, Node.hasLiteralUnderscore,
        Node.isTextBlock, Node.isUnnamed, Node.isMarkdownComment, Node.beginsWith,
        asReturn_text hr hkind]
    · simp only [Site.kind, textKinds, integerLiterals, List.cons_append, List.nil_append,
        List.mem_cons, List.not_mem_nil, not_or] at hkind
      simp (disch := decide) [meets, Node.isBinaryLiteral, Node.hasLiteralUnderscore,
        Node.isTextBlock, Node.isUnnamed, Node.isMarkdownComment, integerLiterals, hkind]
  | repeatingAnnotations =>
    have hkind : s.kind = "modifiers" := List.mem_singleton.1 hk
    have htexts : s.node.annotationNames.map ((·.text changed) ∘ Node.asReturn places) =
        s.node.annotationNames.map (·.text source) :=
      List.map_congr_left fun n hn => hr n (by simp [readNodes, hkind, hn])
    show Node.hasRepeatedAnnotations _ _ = Node.hasRepeatedAnnotations _ _
    simp [Node.hasRepeatedAnnotations_eq, Node.asReturn_annotationNames, htexts]
  | var =>
    show decide _ = decide _
    rw [asReturn_varPosition? hr]
  | varInLambda =>
    show decide _ = decide _
    rw [asReturn_varPosition? hr]
  | _ =>
    -- told from kinds and fields alone
    simp (disch := decide) [meets, isTopLevel, isInterfaceMethod, isCompactSourceMember,
      Node.hasAnonymousBody, Node.isStaticImport, Node.isModuleImport, Node.isMultiCatch,
      Node.isArrowRule, Node.hasSeveralLabels, Node.hasStringLabel, Node.hasPatternLabel,
      Node.hasNullLabel, Node.isPatternInstanceof, Node.isSealedDeclaration, List.any_map,
      Function.comp_def]

/-- What a site shows does not depend on the pass, unless it is a `yield` statement. -/
theorem asReturn_shows {s : Site} {f : Feature} (hf : f ≠ .yield)
    (hr : ReadAlike places source changed s.readNodes) :
    (s.asReturn places).shows changed f = s.shows source f := by
  have hkinds : ∀ f ∈ Feature.all, f ≠ .yield → ∀ k ∈ statementKinds, k ∉ f.kinds := by
    decide +kernel
  rw [Bool.eq_iff_iff, shows_iff, shows_iff, asReturn_kind_mem _ _ (hkinds f f.mem_all hf)]
  exact and_congr_right fun hk => by rw [asReturn_meets hk hr]

theorem shows_of_asReturn {s : Site} {f : Feature}
    (hr : ReadAlike places source changed s.readNodes)
    (h : (s.asReturn places).shows changed f = true) : s.shows source f = true := by
  by_cases hf : f = .yield
  · subst hf
    have hkind := List.mem_singleton.1 (shows_iff.1 h).1
    exact shows_iff.2 ⟨List.mem_singleton.2 (s.node.kind_of_asReturn_yield places hkind), rfl⟩
  · rwa [asReturn_shows hf hr] at h

end Site

namespace Mention

/-! ## Mentions -/

theorem isLink_asReturn (s : Site) : isLink (s.asReturn places) = isLink s := by
  simp (disch := decide) [isLink]

theorem isOutermostLink_asReturn (s : Site) :
    isOutermostLink (s.asReturn places) = isOutermostLink s := by
  rw [isOutermostLink, isOutermostLink, isLink_asReturn,
    Site.asReturn_parentKind?_any places s rfl rfl]
  cases hlink : isLink s with
  | false => rfl
  | true =>
    have hkinds : s.kind ∉ statementKinds := by
      simp only [isLink, Bool.or_eq_true, decide_eq_true_eq] at hlink
      rcases hlink with (h | h) | h <;> rw [h] <;> decide
    rw [(Site.asReturn_kind_eq places s hkinds).2 rfl, Site.asReturn_isUnder places s hkinds]

theorem ofCall_asReturn {s : Site} (hkind : s.kind = "method_invocation")
    (hr : ReadAlike places source changed s.readNodes) :
    ofCall changed (s.node.asReturn places) = ofCall source s.node := by
  rw [ofCall, ofCall, Node.asReturn_child?, Node.asReturn_child?]
  cases hobject : s.node.child? "object" with
  | none => rfl
  | some object =>
    have hchain : (object.asReturn places).memberChain? changed = object.memberChain? source :=
      Node.asReturn_memberChain? fun n hn => hr n (by simp [Site.readNodes, hkind, hobject, hn])
    simp (disch := decide) only [Option.map_some, hchain, Node.asReturn_kind_eq]
    cases hname : s.node.child? "name" with
    | none => rfl
    | some name =>
      have htext := hr name (by simp [Site.readNodes, hkind, hname])
      simp [htext]

/-- What a site mentions does not depend on the pass. -/
theorem ofSite_asReturn {s : Site} (hr : ReadAlike places source changed s.readNodes) :
    ofSite changed (s.asReturn places) = ofSite source s := by
  rw [ofSite, ofSite, isLink_asReturn, isOutermostLink_asReturn]
  split
  · split
    · next houter =>
      have hchain : (s.node.asReturn places).memberChain? changed = s.node.memberChain? source :=
        Node.asReturn_memberChain? fun n hn => hr n (by simp [Site.readNodes, houter, hn])
      rw [Site.asReturn_node, hchain]
    · rfl
  · simp (disch := decide) only [Site.asReturn_kind_eq, Site.asReturn_node, Site.asReturn_isUnder]
    split
    · next hkind => simp only [Site.asReturn_text hr (by rw [hkind]; decide)]
    · split
      · next hkind => exact ofCall_asReturn hkind hr
      · split
        · next hkind =>
          rw [Node.asReturn_significant]
          cases hhead : s.node.significant with
          | nil => rfl
          | cons target more =>
            have hchain : (target.asReturn places).memberChain? changed =
                target.memberChain? source :=
              Node.asReturn_memberChain? fun n hn =>
                hr n (by simp [Site.readNodes, hkind, hhead, hn])
            rw [List.map_cons, List.head?_cons, List.head?_cons, Option.bind_some,
              Option.bind_some, hchain]
        · rfl

end Mention

/-! ## The tree as a whole -/

namespace SyntaxTree

/-- The tree of the text `changed`, in which the keywords at `places` are replaced. -/
def asReturn (places : List Nat) (changed : String) (t : SyntaxTree) : SyntaxTree :=
  ⟨changed, t.root.asReturn places⟩

variable {t : SyntaxTree}

theorem asReturn_source (t : SyntaxTree) : (t.asReturn places changed).source = changed := rfl

theorem asReturn_root (t : SyntaxTree) :
    (t.asReturn places changed).root = t.root.asReturn places := rfl

theorem sites_asReturn (t : SyntaxTree) :
    (t.asReturn places changed).sites = t.sites.map (Site.asReturn places) :=
  Node.sites_map (Node.asReturn_children places) t.root

theorem readAlike_site (hr : ReadAlike places t.source changed t.readNodes) {s : Site}
    (hs : s ∈ t.sites) : ReadAlike places t.source changed s.readNodes := fun n hn =>
  hr n (List.mem_append_right _ (List.mem_flatMap.2 ⟨s, hs, hn⟩))

theorem ofProgram_asReturn (hr : ReadAlike places t.source changed t.readNodes) :
    ImportScope.ofProgram changed (t.root.asReturn places) =
      ImportScope.ofProgram t.source t.root := by
  rw [ImportScope.ofProgram, ImportScope.ofProgram, Node.asReturn_significant,
    List.filterMap_map]
  congr 1
  refine List.filterMap_congr fun n hn => Import.ofNode?_asReturn fun name hname => ?_
  exact hr name (List.mem_append_left _ (List.mem_filterMap.2 ⟨n, hn, by simpa using hname⟩))

theorem mentions_asReturn (hr : ReadAlike places t.source changed t.readNodes) :
    (t.asReturn places changed).sites.flatMap (Mention.ofSite changed) =
      t.sites.flatMap (Mention.ofSite t.source) := by
  rw [sites_asReturn, List.flatMap_map]
  exact List.flatMap_congr fun s hs => Mention.ofSite_asReturn (readAlike_site hr hs)

/-- **The keyword pass adds no feature to a tree, and can only take `yield` away.** -/
theorem mem_features_asReturn (hr : ReadAlike places t.source changed t.readNodes)
    (rules : RuleTable) {f : Feature} :
    (f ∈ (t.asReturn places changed).features rules → f ∈ t.features rules) ∧
      (f ≠ .yield → f ∈ t.features rules → f ∈ (t.asReturn places changed).features rules) := by
  rw [mem_features_iff, mem_features_iff, asReturn_source, asReturn_root, mentions_asReturn hr,
    sites_asReturn, ofProgram_asReturn hr]
  constructor
  · rintro (himport | ⟨s', hs', hform⟩ | hmention)
    · exact .inl himport
    · obtain ⟨s, hs, rfl⟩ := List.mem_map.1 hs'
      have hshows := Site.shows_of_asReturn (readAlike_site hr hs) (Site.mem_formFeatures.1 hform)
      exact .inr (.inl ⟨s, hs, Site.mem_formFeatures.2 hshows⟩)
    · exact .inr (.inr hmention)
  · rintro hf (himport | ⟨s, hs, hform⟩ | hmention)
    · exact .inl himport
    · refine .inr (.inl ⟨s.asReturn places, List.mem_map_of_mem hs, ?_⟩)
      rwa [Site.mem_formFeatures, Site.asReturn_shows hf (readAlike_site hr hs),
        ← Site.mem_formFeatures]
    · exact .inr (.inr hmention)

/-! ## Constructs -/

theorem holds_of_asReturn {c : Construct} (hr : ReadAlike places t.source changed t.readNodes)
    (h : (t.asReturn places changed).Holds c) : t.Holds c := by
  obtain ⟨s', hs', hoccurs⟩ := h
  rw [sites_asReturn] at hs'
  obtain ⟨s, hs, rfl⟩ := List.mem_map.1 hs'
  refine ⟨s, hs, ?_⟩
  by_cases hc : c = .sealedTypes
  · -- the declaration itself, not its modifiers
    subst hc
    have hsealed : (s.node.asReturn places).isSealedDeclaration = true := hoccurs
    show s.node.isSealedDeclaration = true
    simpa (disch := decide) [Node.isSealedDeclaration] using hsealed
  · rw [← Construct.shows_feature_iff hc] at hoccurs ⊢
    exact Site.shows_of_asReturn (readAlike_site hr hs) hoccurs

theorem accepts_asReturn {p : Profile} (hr : ReadAlike places t.source changed t.readNodes)
    (h : p.accepts t = true) : p.accepts (t.asReturn places changed) = true := by
  rw [Profile.accepts_iff] at h ⊢
  exact fun c hc hholds => h c hc (holds_of_asReturn hr hholds)

end SyntaxTree

end MinimumRelease
