import MinimumRelease.Proofs.Recovery.KeywordPatches
import MinimumRelease.Proofs.Recovery.LineNumbers
import MinimumRelease.Proofs.Recovery.SubstitutedTokens
import MinimumRelease.Proofs.Report.ParserLimit

/-! # What the passes record of each other's text

The relocation pass runs on the text that the keyword pass leaves. The tokens of
that text have the outlines of those of the source, so the same kinds move from the
same lines. What a trace records as moved can therefore be looked up in the source
(`recovery_keeps_sites`). -/

namespace MinimumRelease

open Recovery
open Text (bytes lineAt)

namespace Recovery

/-! ## The two passes -/

theorem outline_substituteYield (source : String) (keep : Nat → Bool) :
    (tokens (substituteYield source keep).text.toList).map Token.outline =
      (tokens source.toList).map Token.outline := by
  have hreplaced := replaced_substituteYield source keep
  rw [← join_tokens source.toList] at hreplaced
  refine outline_of_replaced (lexed_tokens _) hreplaced fun p hp _ => ⟨?_, ?_⟩
  · rw [join_tokens]
    exact keywordAt_of_mem_offsets source keep hp
  · exact not_covered_of_mem_yieldCandidates ((mem_offsets_iff source keep p).1 hp).1

/-- The kinds of the declarations that move in a source, with the lines on which they begin. -/
def sitesIn (source : String) : List (LocalKind × Nat) :=
  (spansOf (tokens source.toList)).map fun s =>
    (s.move.kind, lineAt (bytes source.toList) (byteAt (tokens source.toList) s.move.start))

theorem sites_relocate (source : String) :
    (relocate source).moved.map Relocated.site = sitesIn source := by
  rw [moved_eq_report, List.map_map, sitesIn]
  refine List.map_congr_left fun s _ => ?_
  rw [lineAt_byteAt]
  rfl

theorem sitesIn_substituteYield (source : String) (keep : Nat → Bool) :
    sitesIn (substituteYield source keep).text = sitesIn source := by
  rw [← sites_relocate, ← sites_relocate, moved_congr (outline_substituteYield source keep)]

/-! ## Traces -/

namespace Scanner

variable (sc : Scanner) (source : String) (trace : Trace)

theorem exists_substituteYield :
    ∃ keep, (sc.substitute source trace).1 = (substituteYield source keep).text := by
  -- a source that is left alone has nothing kept
  have hnone : source = (substituteYield source fun _ => false).text := by
    refine (substituteYield_unchanged ?_).symm
    simp [substituteYield, Substitution.changed, Substitution.count]
  unfold substitute
  split
  · exact ⟨_, hnone⟩
  · split
    · exact ⟨_, hnone⟩
    · exact ⟨_, rfl⟩

theorem sitesIn_substitute : sitesIn (sc.substitute source trace).1 = sitesIn source := by
  obtain ⟨keep, hkeep⟩ := sc.exists_substituteYield source trace
  rw [hkeep, sitesIn_substituteYield]

theorem moved_substitute : (sc.substitute source trace).2.moved = trace.moved := by
  unfold substitute
  split
  · rfl
  · split <;> rfl

theorem sites_relocate? {text : String} {trace' : Trace}
    (h : sc.relocate? source trace = some (text, trace')) :
    trace'.moved.map Relocated.site = trace.moved.map Relocated.site ++ sitesIn source := by
  unfold relocate? at h
  split at h
  · dsimp only at h
    split at h
    · cases h
    · cases h
      rw [List.map_append, sites_relocate]
  · cases h

theorem sitesIn_of_relocate?_none (hsc : sc.relocates = true)
    (h : sc.relocate? source trace = none) : sitesIn source = [] := by
  unfold relocate? at h
  rw [if_pos hsc] at h
  dsimp only at h
  split at h
  · next hmoved =>
    rw [← sites_relocate, List.isEmpty_iff.1 hmoved]
    rfl
  · cases h

/-- What a scan records as moved is what moves in the source. -/
theorem sites_scan : (sc.scan source).2.moved.map Relocated.site =
    if sc.relocates then sitesIn source else [] := by
  have hmoved := sc.moved_substitute source {}
  have hsites := sc.sitesIn_substitute source {}
  unfold scan
  dsimp only
  cases hr : sc.relocate? (sc.substitute source {}).1 (sc.substitute source {}).2 with
  | none =>
    rw [Option.getD_none, hmoved]
    cases hsc : sc.relocates with
    | false => rfl
    | true =>
      have hnone := sc.sitesIn_of_relocate?_none _ _ hsc hr
      rw [hsites] at hnone
      rw [hnone]
      rfl
  | some r =>
    have hsc : sc.relocates = true := by
      cases hsc : sc.relocates with
      | true => rfl
      | false => simp [relocate?, hsc] at hr
    rw [Option.getD_some, sc.sites_relocate? _ _ hr, hmoved, hsites, if_pos hsc]
    rfl

end Scanner

end Recovery

/-! ## Reports -/

theorem Parser.sites_of_analyze {parser : Parser} {s path source report}
    (h : parser.analyze s path source = .ok report) :
    report.recovery.moved.map Relocated.site =
      if (parser.parse s.depthLimit s.parseProfile (parser.firstText s source).1).isOk then []
      else sitesIn source := by
  have hmoved := (Scanner.ofSettings parser s).moved_substitute source {}
  have hsites := (Scanner.ofSettings parser s).sitesIn_substitute source {}
  rw [analyze_eq] at h
  split at h
  · cases h
  · next tree trace hparse =>
    cases h
    unfold parseWithRecovery at hparse
    dsimp only at hparse
    rw [firstText]
    split at hparse
    · next hfirst =>
      cases hparse
      rw [hfirst, hmoved]
      rfl
    · next hfirst =>
      rw [hfirst]
      split at hparse
      · split at hparse
        · cases hparse
        · next hrelocated =>
          -- the second parse, on the text from which the declarations were moved
          split at hparse
          · cases hparse
            rw [Scanner.sites_relocate? _ _ _ hrelocated, hmoved, hsites]
            rfl
          · cases hparse
      · cases hparse

/-- **The passes do not disturb each other.** Whichever keywords are replaced, the same kinds of
declaration move from the same lines. So what a scan records as moved, and what a report lists
after a failed first parse, is what moves in the source, with the lines that the declarations have
there. -/
theorem recovery_keeps_sites (source : String) :
    (∀ keep, (relocate (substituteYield source keep).text).moved.map Relocated.site =
      (relocate source).moved.map Relocated.site) ∧
    (relocate source).moved.map Relocated.site = sitesIn source ∧
    (∀ sc : Scanner, (sc.scan source).2.moved.map Relocated.site =
      if sc.relocates then sitesIn source else []) ∧
    ∀ (parser : Parser) (s : AnalysisSettings) (path : String) (report : FileReport),
      parser.analyze s path source = .ok report → report.recovery.moved.map Relocated.site =
        if (parser.parse s.depthLimit s.parseProfile (parser.firstText s source).1).isOk then []
        else sitesIn source := by
  refine ⟨fun keep => ?_, sites_relocate source, fun sc => sc.sites_scan source,
    fun parser s path report => Parser.sites_of_analyze⟩
  exact moved_congr (outline_substituteYield source keep)

/-! ## A `yield` and an enum

The keyword pass replaces the one on line 3, and a parser for release 15 refuses the
other. -/

namespace SwitchAndEnum

open LocalEnum (mark named held enumAt program)

def written : String := "class A \x7b void f() \x7b\n y = switch (x) \x7b default:\n" ++
  " yield 1; \x7d;\n enum E \x7b X \x7d \x7d \x7d"

def substituted : String := "class A \x7b void f() \x7b\n y = switch (x) \x7b default:\n" ++
  " return 1; \x7d;\n enum E \x7b X \x7d \x7d \x7d"

def moved : String := "class A \x7b void f() \x7b\n y = switch (x) \x7b default:\n" ++
  " return 1; \x7d;\n  \x7d \nenum E \x7b X \x7d\nvoid __langver_relocated_0__() \x7b\x7d\n\x7d"

def method (stop : Nat) (content : List Node) : Node :=
  named "method_declaration" 10 stop [held "void_type" "type" 10 14,
    held "identifier" "name" 15 16,
    named "formal_parameters" 16 18 [mark "(" 16 17, mark ")" 17 18],
    named "block" 19 stop (mark "\x7b" 19 20 :: content ++ [mark "\x7d" (stop - 1) stop])]

/-- The switch. The statement in it begins with a keyword of `n` bytes. -/
def choice (statement keyword : String) (n : Nat) : Node :=
  named "expression_statement" 22 (n + 55) [
    named "assignment_expression" 22 (n + 54) [named "identifier" 22 23 [], mark "=" 24 25,
      named "switch_expression" 26 (n + 54) [mark "switch" 26 32,
        named "parenthesized_expression" 33 36 [mark "(" 33 34, named "identifier" 34 35 [],
          mark ")" 35 36],
        named "switch_block" 37 (n + 54) [mark "\x7b" 37 38,
          named "switch_block_statement_group" 39 (n + 52) [
            named "switch_label" 39 46 [mark "default" 39 46], mark ":" 46 47,
            named statement 49 (n + 52) [mark keyword 49 (n + 49),
              named "decimal_integer_literal" (n + 50) (n + 51) [],
              mark ";" (n + 51) (n + 52)]],
          mark "\x7d" (n + 53) (n + 54)]]],
    mark ";" (n + 54) (n + 55)]

def placeholderMethod (i : Nat) : Node :=
  named "method_declaration" i (i + 33) [held "void_type" "type" i (i + 4),
    held "identifier" "name" (i + 5) (i + 28),
    named "formal_parameters" (i + 28) (i + 30) [mark "(" (i + 28) (i + 29),
      mark ")" (i + 29) (i + 30)],
    named "block" (i + 31) (i + 33) [mark "\x7b" (i + 31) (i + 32),
      mark "\x7d" (i + 32) (i + 33)]]

/-- The trees of the text as written, after the keyword pass, and after both. -/
def parser : Parser := fun text =>
  if text = written then
    .ok (program 78 [method 76 [choice "yield_statement" "yield" 5, enumAt 62]])
  else if text = substituted then
    .ok (program 79 [method 77 [choice "return_statement" "return" 6, enumAt 63]])
  else if text = moved then
    .ok (program 115 [method 65 [choice "return_statement" "return" 6], enumAt 67,
      placeholderMethod 80])
  else .error .noTree

def settings : AnalysisSettings := { parserRelease := some 15 }

theorem recorded_on_line_four : ∃ report, parser.analyze settings "A.java" written = .ok report ∧
    report.recovery.keywordSubstituted = true ∧
    report.recovery.moved.map Relocated.site = [(.enum, 4)] := by
  obtain ⟨hok, hfirst, hsites⟩ : (parser.analyze settings "A.java" written).toOption.map
        (·.recovery.keywordSubstituted) = some true ∧
      (parser.parse settings.depthLimit settings.parseProfile
        (parser.firstText settings written).1).isOk = false ∧
      sitesIn written = [(.enum, 4)] := by decide +kernel
  cases h : parser.analyze settings "A.java" written with
  | error e =>
    rw [h] at hok
    cases hok
  | ok report =>
    rw [h] at hok
    have hrecorded := (recovery_keeps_sites written).2.2.2 parser settings "A.java" report h
    rw [hfirst, hsites] at hrecorded
    exact ⟨report, rfl, Option.some.inj hok, hrecorded⟩

end SwitchAndEnum

end MinimumRelease
