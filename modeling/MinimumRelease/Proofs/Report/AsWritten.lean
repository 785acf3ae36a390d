import MinimumRelease.Report.File

/-! # The verdict on the text as it was written

The tree of a report may come from a text that the recovery passes changed. A
trace in which nothing is recorded means that the text was not changed, so the
tree is that of the source (`parseTree_of_isEmpty`). Where anything is
recorded, the source is parsed once more for the verdict. Either way the
verdict is on the source. -/

namespace MinimumRelease

open Recovery

/-! ## Passes that record nothing change nothing -/

theorem Recovery.replaceKeywords_nil (offset : Nat) (cs : List Char) :
    replaceKeywords [] offset 0 cs = cs := by
  induction cs generalizing offset with
  | nil => rfl
  | cons c cs ih =>
    rw [replaceKeywords, if_neg (by simp), ih]

theorem Recovery.substituteYield_unchanged {source keep}
    (h : (substituteYield source keep).changed = false) :
    (substituteYield source keep).text = source := by
  have hnone : (yieldCandidates source).filter keep = [] := by
    simpa [substituteYield, Substitution.changed, Substitution.count] using h
  simp only [substituteYield, hnone, replaceKeywords_nil, String.ofList_toList]

theorem Recovery.Scanner.substitute_unrecorded {sc source}
    (h : (Scanner.substitute sc source {}).2.keywordSubstituted = false) :
    (Scanner.substitute sc source {}).1 = source := by
  unfold Scanner.substitute at h ⊢
  split
  · rfl
  · next hcand =>
    rw [if_neg hcand] at h
    split
    · rfl
    · next tree htree =>
      rw [htree] at h
      exact substituteYield_unchanged h

theorem Recovery.Scanner.relocate?_recorded {sc source trace text trace'}
    (h : Scanner.relocate? sc source trace = some (text, trace')) : trace'.isEmpty = false := by
  unfold Scanner.relocate? at h
  split at h
  · dsimp only at h
    split at h
    · cases h
    · next hmoved =>
      cases h
      have hne : (relocate source).moved ≠ [] := by simpa using hmoved
      simp [Trace.isEmpty, hne]
  · cases h

/-! ## The tree and the text it comes from -/

theorem Parser.parseTree_of_parse {parser : Parser} {depth profile source tree}
    (h : parser.parse depth profile source = .ok tree) :
    parser.parseTree depth source = .ok tree := by
  unfold Parser.parse at h
  split at h
  · cases h
  · next t ht =>
    split at h
    · cases h
    · cases h
      exact ht

theorem Parser.parseTree_of_isEmpty {parser : Parser} {s source tree trace}
    (h : parser.parseWithRecovery s source = .ok (tree, trace)) (hempty : trace.isEmpty = true) :
    parser.parseTree s.depthLimit source = .ok tree := by
  unfold Parser.parseWithRecovery at h
  dsimp only at h
  split at h
  · next t hfirst =>
    -- the first parse: nothing recorded, so the keyword pass left the source alone
    cases h
    have hsub : (Scanner.substitute (Scanner.ofSettings parser s) source {}).1 = source := by
      apply Scanner.substitute_unrecorded
      simp only [Trace.isEmpty, Bool.and_eq_true, Bool.not_eq_true'] at hempty
      exact hempty.1
    rw [hsub] at hfirst
    exact Parser.parseTree_of_parse hfirst
  · split at h
    · split at h
      · cases h
      · next moved trace' hmoved =>
        -- the second parse: the relocation pass has recorded what it moved
        have hrec := Scanner.relocate?_recorded hmoved
        split at h
        · cases h
          rw [hempty] at hrec
          cases hrec
        · cases h
    · cases h

/-- **The verdict of the grammar is on the text as written**, whatever the passes made of it: no
verdict if the source itself does not parse, and else the oldest grammar that accepts its tree. -/
theorem Parser.grammarRelease_of_analyze {parser : Parser} {s path source report}
    (h : parser.analyze s path source = .ok report) :
    (∀ e, parser.parseTree s.depthLimit source = .error e →
      report.grammarRelease = .unparseable) ∧
    (∀ tree, parser.parseTree s.depthLimit source = .ok tree →
      report.grammarRelease = Profiles.builtin.minimumRelease tree) := by
  rw [Parser.analyze_eq] at h
  split at h
  · cases h
  · next tree trace hparse =>
    cases h
    cases hempty : trace.isEmpty with
    | true =>
      have htree := Parser.parseTree_of_isEmpty hparse hempty
      constructor
      · intro e he
        rw [htree] at he
        cases he
      · intro t ht
        rw [htree] at ht
        cases ht
        rfl
    | false =>
      constructor
      · intro e he
        show parser.grammarRelease s source = _
        rw [Parser.grammarRelease, he]
      · intro t ht
        show parser.grammarRelease s source = _
        rw [Parser.grammarRelease, ht]

/-! ## A text that was changed

A parser for release 15 refuses the enum in the initialiser, and accepts it as
a member. The report says that the text as written needs release 16. -/

namespace LocalEnum

def mark (kind : String) (start stop : Nat) : Node := ⟨kind, false, false, start, stop, [], []⟩

def named (kind : String) (start stop : Nat) (children : List Node) : Node :=
  ⟨kind, true, false, start, stop, [], children⟩

def held (kind field : String) (start stop : Nat) : Node :=
  ⟨kind, true, false, start, stop, [field], []⟩

def written : String := "class A \x7b static \x7b enum E \x7b X \x7d \x7d \x7d"

def enumAt (i : Nat) : Node :=
  named "enum_declaration" i (i + 12) [mark "enum" i (i + 4),
    held "identifier" "name" (i + 5) (i + 6), named "enum_body" (i + 7) (i + 12)
      [mark "\x7b" (i + 7) (i + 8),
       named "enum_constant" (i + 9) (i + 10) [held "identifier" "name" (i + 9) (i + 10)],
       mark "\x7d" (i + 11) (i + 12)]]

def initializer (stop : Nat) (content : List Node) : Node :=
  named "static_initializer" 10 stop [mark "static" 10 16,
    named "block" 17 stop (mark "\x7b" 17 18 :: content ++ [mark "\x7d" (stop - 1) stop])]

def method : Node :=
  named "method_declaration" 36 69 [held "void_type" "type" 36 40,
    held "identifier" "name" 41 64,
    named "formal_parameters" 64 66 [mark "(" 64 65, mark ")" 65 66],
    named "block" 67 69 [mark "\x7b" 67 68, mark "\x7d" 68 69]]

def program (stop : Nat) (members : List Node) : Node :=
  named "program" 0 stop [named "class_declaration" 0 stop [mark "class" 0 5,
    held "identifier" "name" 6 7,
    named "class_body" 8 stop (mark "\x7b" 8 9 :: members ++ [mark "\x7d" (stop - 1) stop])]]

/-- The trees of the text as written and of the text with the enum moved. -/
def parser : Parser := fun text =>
  if text = written then .ok (program 35 [initializer 33 [enumAt 19]])
  else if text = (Recovery.relocate written).text then
    .ok (program 71 [initializer 21 [], enumAt 23, method])
  else .error .noTree

def settings : AnalysisSettings := { parserRelease := some 15 }

theorem grammarRelease_moved : ∃ report, parser.analyze settings "A.java" written = .ok report ∧
    report.recovery.moved = [⟨.enum, "E", 1⟩] ∧ report.grammarRelease = .release 16 := by
  have hok : (parser.analyze settings "A.java" written).toOption.map (·.recovery.moved) =
      some [⟨.enum, "E", 1⟩] := by decide +kernel
  have hverdict : (parser.parseTree settings.depthLimit written).toOption.map
      Profiles.builtin.minimumRelease = some (.release 16) := by decide +kernel
  cases h : parser.analyze settings "A.java" written with
  | error e =>
    rw [h] at hok
    cases hok
  | ok report =>
    rw [h] at hok
    cases ht : parser.parseTree settings.depthLimit written with
    | error e =>
      rw [ht] at hverdict
      cases hverdict
    | ok tree =>
      rw [ht] at hverdict
      have hrelease := (Parser.grammarRelease_of_analyze h).2 tree ht
      exact ⟨report, rfl, Option.some.inj hok, hrelease.trans (Option.some.inj hverdict)⟩

end LocalEnum

end MinimumRelease
