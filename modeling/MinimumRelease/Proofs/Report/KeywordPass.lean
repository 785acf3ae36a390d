import MinimumRelease.Proofs.Detect.Substituted
import MinimumRelease.Proofs.Parse.Outcome
import MinimumRelease.Proofs.Report.ParserLimit

/-! # The keyword pass leaves the report as it is

The pass replaces the keywords of `yield` statements. What the visitor reads is
apart from them, so it reads the same in the changed text, and the features of
the two trees differ at most by `yield`, which the trace records. The verdict is
on the source in any case. So the pass can be switched off and on, and what is
detected stays the same (`Parser.analyze_keywordSubstitution`). -/

namespace MinimumRelease

open Recovery

/-! ## What the pass replaces -/

/-- What the keyword pass makes of the text of a tree. -/
def SyntaxTree.rewriting (t : SyntaxTree) : Substitution :=
  substituteYield t.source (t.yieldStarts.contains ·)

namespace SyntaxTree

variable {t : SyntaxTree}

theorem yieldStarts_eq (t : SyntaxTree) : t.yieldStarts =
    (t.sites.filter (·.kind = "yield_statement")).map (·.node.start) := by
  have hfold : ∀ (ss : List Site) (starts : List Nat), ss.foldl
      (fun starts s => if s.kind = "yield_statement" then starts ++ [s.node.start] else starts)
      starts = starts ++ (ss.filter (·.kind = "yield_statement")).map (·.node.start) := by
    intro ss
    induction ss with
    | nil => simp
    | cons s ss ih =>
      intro starts
      rw [List.foldl_cons, ih]
      by_cases hkind : s.kind = "yield_statement" <;> simp [hkind]
  rw [yieldStarts, Node.foldSites_eq, hfold, List.nil_append]
  rfl

/-- The pass replaces a keyword only where a `yield` statement begins. -/
theorem exists_of_mem_offsets {p : Nat} (h : p ∈ t.rewriting.offsets) :
    ∃ s ∈ t.sites, s.kind = "yield_statement" ∧ s.node.start = p := by
  have hstart := List.contains_iff_mem.1 (List.mem_filter.1 h).2
  rw [yieldStarts_eq] at hstart
  obtain ⟨s, hs, hp⟩ := List.mem_map.1 hstart
  obtain ⟨hs, hkind⟩ := List.mem_filter.1 hs
  exact ⟨s, hs, of_decide_eq_true hkind, hp⟩

/-- What does not hold a `yield` statement reads the same after the pass. -/
theorem text_rewriting {n : Node} (hlaid : ∀ m : Node, m.Within t.root → m.LaidOut)
    (hn : n.IsText t.root) (hfree : ∀ y : Node, y.Within n → y.kind ≠ "yield_statement") :
    (n.asReturn t.rewriting.offsets).text t.rewriting.text = n.text t.source := by
  have hasc : t.rewriting.offsets.Pairwise (· < ·) :=
    (yieldCandidates_ascending t.source).filter _
  have hkeyword : ∀ p ∈ t.rewriting.offsets, KeywordAt 0 0 p t.source.toList := fun p hp =>
    keywordAt_of_mem_yieldCandidates (List.mem_filter.1 hp).1
  have hout : ∀ p ∈ t.rewriting.offsets, n.stop ≤ p ∨ p + 5 ≤ n.start := by
    intro p hp
    obtain ⟨s, hs, hkind, rfl⟩ := exists_of_mem_offsets hp
    exact hn.1.apart_of_yield hlaid (Node.within_of_mem_sites hs).1 hkind
      (fun hyn => hfree s.node hyn hkind) (hn.2 _)
  have hslice := slice_replaceKeywords hasc hkeyword (hlaid n hn.1).range hout
  rw [Node.text, Node.text, Node.asReturn_start, Node.asReturn_stop, ← hslice]
  rw [show t.rewriting.text.toList = replaceKeywords t.rewriting.offsets 0 0 t.source.toList from
    String.toList_ofList]

theorem readAlike_rewriting (hlaid : ∀ s ∈ t.sites, s.node.LaidOut)
    (hread : ∀ n ∈ t.readNodes, ∀ s ∈ n.sites, s.kind ≠ "yield_statement") :
    ReadAlike t.rewriting.offsets t.source t.rewriting.text t.readNodes := by
  intro n hn
  refine text_rewriting (fun m hm => ?_) (isText_of_mem_readNodes hn) (fun y hy => ?_)
  · obtain ⟨s, hs, rfl⟩ := Node.exists_mem_sites hm
    exact hlaid s hs
  · obtain ⟨s, hs, rfl⟩ := Node.exists_mem_sites hy
    exact hread n hn s hs

end SyntaxTree

/-! ## The second parse -/

namespace Parser

variable {parser : Parser}

/-- A tree is good if it has no faults and no node is too deep. -/
theorem parseTree_eq_ok_iff {depth source tree} : parser.parseTree depth source = .ok tree ↔
    parser source = .ok tree.root ∧ tree.source = source ∧ tree.faults.count = 0 ∧
      ∀ limit, (tree.root.walk (some depth) (fun _ _ => .yield ()) ()).2 ≠ .tooDeep limit := by
  unfold parseTree
  cases parser source with
  | error fault => simp
  | ok root =>
    dsimp only
    constructor
    · intro h
      split at h
      · cases h
      · next hfaults =>
        split at h
        · cases h
        · next hdeep =>
          cases h
          exact ⟨rfl, rfl, by omega, hdeep⟩
    · obtain ⟨text, root'⟩ := tree
      intro ⟨hroot, htext, hfaults, hdeep⟩
      cases hroot
      cases htext
      rw [if_neg (Nat.not_lt.2 (Nat.le_of_eq hfaults))]
      split
      · next limit hlimit => exact absurd hlimit (hdeep limit)
      · rfl

/-- If the source parses, so does the text after the pass. -/
theorem parse_rewriting {depth profile source tree}
    (hparse : parser.parse depth profile source = .ok tree)
    (hr : ReadAlike tree.rewriting.offsets tree.source tree.rewriting.text tree.readNodes)
    (hsub : parser tree.rewriting.text = .ok (tree.root.asReturn tree.rewriting.offsets)) :
    parser.parse depth profile tree.rewriting.text =
      .ok (tree.asReturn tree.rewriting.offsets tree.rewriting.text) := by
  obtain ⟨htree, hacc⟩ := parse_eq_ok_iff.1 hparse
  obtain ⟨-, -, hfaults, hdeep⟩ := parseTree_eq_ok_iff.1 htree
  refine parse_eq_ok_iff.2 ⟨parseTree_eq_ok_iff.2 ⟨hsub, rfl, ?_, ?_⟩,
    SyntaxTree.accepts_asReturn hr hacc⟩
  · rw [SyntaxTree.faults_count] at hfaults ⊢
    rw [SyntaxTree.sites_asReturn, List.countP_map, ← hfaults]
    refine List.countP_congr fun s _ => ?_
    simp (disch := decide) [Node.isFault]
  · rw [SyntaxTree.asReturn_root, Node.walk_map (Node.asReturn_children _)]
    exact hdeep

/-! ## The reports -/

theorem firstText_of_substitutes {s : AnalysisSettings} {source tree}
    (hs : s.substitutes = true) (htree : parser.parseTree s.depthLimit source = .ok tree) :
    parser.firstText s source =
      (tree.rewriting.text, { keywordSubstituted := tree.rewriting.changed }) := by
  obtain ⟨-, rfl, -, -⟩ := parseTree_eq_ok_iff.1 htree
  unfold firstText Scanner.substitute
  split
  · next h =>
    -- no candidates, so nothing is replaced
    have hempty : yieldCandidates tree.source = [] := by simpa [Scanner.ofSettings, hs] using h
    have hchanged : tree.rewriting.changed = false := by
      simp [SyntaxTree.rewriting, substituteYield, Substitution.changed, Substitution.count, hempty]
    rw [hchanged, SyntaxTree.rewriting, substituteYield_unchanged hchanged]
  · simp only [Scanner.ofSettings, htree]
    rfl

theorem firstText_of_not_substitutes {s : AnalysisSettings} (hs : s.substitutes = false)
    (source : String) : parser.firstText s source = (source, {}) := by
  rw [firstText, Scanner.substitute, if_pos]
  simp [Scanner.ofSettings, hs]

end Parser

/-- Whatever was replaced, the trace makes up for it. -/
theorem SyntaxTree.canonical_rewriting {t : SyntaxTree} (rules : RuleTable)
    (hr : ReadAlike t.rewriting.offsets t.source t.rewriting.text t.readNodes)
    (hchanged : t.rewriting.changed = true) :
    Feature.canonical
        ((t.asReturn t.rewriting.offsets t.rewriting.text).features rules ++ [.yield]) =
      Feature.canonical (t.features rules) := by
  have hyield : .yield ∈ t.features rules := by
    obtain ⟨p, hp⟩ := List.exists_mem_of_length_pos (of_decide_eq_true hchanged)
    obtain ⟨s, hs, hkind, -⟩ := exists_of_mem_offsets hp
    have hoccurs : Construct.occursAt t.source s .yieldStatements = true := decide_eq_true hkind
    exact mem_features_of_form rules hs (Construct.feature_mem_formFeatures hoccurs)
  refine List.filter_congr fun f _ => decide_eq_decide.2 ?_
  rw [List.mem_append, List.mem_singleton]
  obtain ⟨hsub, hsup⟩ := mem_features_asReturn hr rules (f := f)
  constructor
  · rintro (h | rfl)
    · exact hsub h
    · exact hyield
  · intro h
    by_cases hf : f = .yield
    · exact .inr hf
    · exact .inl (hsup hf h)

namespace Parser

variable {parser : Parser} {s : AnalysisSettings} {source : String} {tree : SyntaxTree}

theorem analyze_of_unchanged (path : String)
    (hparse : parser.parse s.depthLimit s.parseProfile source = .ok tree)
    (hfirst : parser.firstText s source = (source, {})) :
    ∃ report, parser.analyze s path source = .ok report ∧
      report.detection = .ofFeatures path s.floor (tree.features .builtin) ∧
      report.grammarRelease = Profiles.builtin.minimumRelease tree := by
  refine ⟨_, analyze_of_first (by rw [hfirst]; exact hparse), ?_, ?_⟩
  · rw [firstReport, hfirst]
    show Detection.ofFeatures path s.floor (tree.features .builtin ++ []) = _
    rw [List.append_nil]
  · rw [firstReport, hfirst]
    rfl

/-- With the pass or without it, the report is on the tree of the source. -/
theorem analyze_of_parse (path : String)
    (hparse : parser.parse s.depthLimit s.parseProfile source = .ok tree)
    (hr : ReadAlike tree.rewriting.offsets tree.source tree.rewriting.text tree.readNodes)
    (hsub : parser tree.rewriting.text = .ok (tree.root.asReturn tree.rewriting.offsets)) :
    ∃ report, parser.analyze s path source = .ok report ∧
      report.detection = .ofFeatures path s.floor (tree.features .builtin) ∧
      report.grammarRelease = Profiles.builtin.minimumRelease tree := by
  have htree := (parse_eq_ok_iff.1 hparse).1
  cases hs : s.substitutes with
  | false => exact analyze_of_unchanged path hparse (firstText_of_not_substitutes hs source)
  | true =>
    have hfirst := firstText_of_substitutes hs htree
    cases hchanged : tree.rewriting.changed with
    | false =>
      have htext : tree.rewriting.text = source :=
        (substituteYield_unchanged hchanged).trans (parseTree_eq_ok_iff.1 htree).2.1
      rw [hchanged, htext] at hfirst
      exact analyze_of_unchanged path hparse hfirst
    | true =>
      rw [hchanged] at hfirst
      refine ⟨_, analyze_of_first (by rw [hfirst]; exact parse_rewriting hparse hr hsub), ?_, ?_⟩
      · rw [firstReport, hfirst]
        exact Detection.ofFeatures_congr
          (SyntaxTree.canonical_rewriting .builtin hr hchanged) path s.floor
      · rw [firstReport, hfirst]
        show parser.grammarRelease s source = _
        rw [grammarRelease, htree]

/-- **The keyword pass does not show in the result.** Let a profile accept the tree of the source,
with its nodes laid out in order, and let the parser's tree of the text after the pass be that tree
with the rewritten statements relabelled and all offsets moved. If nothing that the visitor reads
holds a `yield` statement, then settings that differ only in whether the pass runs both give a
report, with the same detection and the same verdict of the grammar. The parser limit needs no
bound: a limit that refuses `yield` statements does not accept a source that has one. -/
theorem analyze_keywordSubstitution {s' : AnalysisSettings} (path : String)
    (hsettings : s' = { s with keywordSubstitution := s'.keywordSubstitution })
    (hparse : parser.parse s.depthLimit s.parseProfile source = .ok tree)
    (hlaid : ∀ site ∈ tree.sites, site.node.LaidOut)
    (hread : ∀ n ∈ tree.readNodes, ∀ site ∈ n.sites, site.kind ≠ "yield_statement")
    (hsub : parser tree.rewriting.text = .ok (tree.root.asReturn tree.rewriting.offsets)) :
    ∃ report report', parser.analyze s path source = .ok report ∧
      parser.analyze s' path source = .ok report' ∧
      report.detection = report'.detection ∧ report.grammarRelease = report'.grammarRelease := by
  have hr := SyntaxTree.readAlike_rewriting hlaid hread
  have hparse' : parser.parse s'.depthLimit s'.parseProfile source = .ok tree := by
    rw [hsettings]
    exact hparse
  have hfloor : s'.floor = s.floor := by rw [hsettings]; rfl
  obtain ⟨report, hreport, hdetection, hrelease⟩ := analyze_of_parse path hparse hr hsub
  obtain ⟨report', hreport', hdetection', hrelease'⟩ := analyze_of_parse path hparse' hr hsub
  refine ⟨report, report', hreport, hreport', ?_, hrelease.trans hrelease'.symm⟩
  rw [hdetection, hdetection', hfloor]

end Parser

/-! ## The switch again

The pass makes a `return` of its only `yield`. -/

namespace SwitchFile

def tree : SyntaxTree := ⟨written, program "yield_statement" "yield" 5⟩

theorem parse_tree : parser.parse strict.depthLimit strict.parseProfile written = .ok tree := by
  refine Parser.parse_eq_ok_iff.2 ⟨Parser.parseTree_eq_ok_iff.2 ⟨rfl, rfl, ?_, fun limit => ?_⟩, ?_⟩
  · decide +kernel
  · have hwalk : (tree.root.walk (some strict.depthLimit) (fun _ _ => .yield ()) ()).2 =
        .finished := by decide +kernel
    rw [hwalk]
    nofun
  · decide +kernel

theorem parser_rewriting :
    parser tree.rewriting.text = .ok (tree.root.asReturn tree.rewriting.offsets) := by
  have htext : tree.rewriting.text = substituted := by decide +kernel
  have hoffsets : tree.rewriting.offsets = [47] := by decide +kernel
  rw [htext, hoffsets]
  rfl

theorem analyze_without_pass : tree.rewriting.offsets = [47] ∧ ∃ report report',
    parser.analyze strict "A.java" written = .ok report ∧
    parser.analyze { strict with keywordSubstitution := some false } "A.java" written =
      .ok report' ∧
    report.detection = report'.detection ∧ report.grammarRelease = report'.grammarRelease :=
  ⟨by decide +kernel, Parser.analyze_keywordSubstitution "A.java" rfl parse_tree
    (by decide +kernel) (by decide +kernel) parser_rewriting⟩

end SwitchFile

end MinimumRelease
