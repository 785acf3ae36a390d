import MinimumRelease.Proofs.Grammar.Monotone
import MinimumRelease.Proofs.Report.AsWritten

/-! # A looser parser limit

A report that lists nothing as moved comes from the first parse: the relocation
pass runs only after a failed parse, and records what it moves. The keyword
pass before that parse uses the full grammar and knows no limit. So the limit
has a part in such a report only as the profile that accepted the tree, and a
later profile accepts it too. -/

namespace MinimumRelease

open Recovery

theorem Recovery.Scanner.relocate?_moved {sc source trace text trace'}
    (h : Scanner.relocate? sc source trace = some (text, trace')) : trace'.moved ≠ [] := by
  unfold Scanner.relocate? at h
  split at h
  · dsimp only at h
    split at h
    · cases h
    · next hne =>
      cases h
      simpa using fun _ => hne
  · cases h

namespace Parser

variable {parser : Parser}

theorem parse_eq_ok_iff {depth profile source tree} :
    parser.parse depth profile source = .ok tree ↔
      parser.parseTree depth source = .ok tree ∧ profile.accepts tree = true := by
  unfold Parser.parse
  cases parser.parseTree depth source with
  | error e => simp
  | ok t =>
    cases hr : profile.firstRejection? t with
    | none =>
      simp only [hr, Except.ok.injEq]
      constructor
      · rintro rfl
        exact ⟨rfl, by rw [Profile.accepts, hr]; rfl⟩
      · exact fun h => h.1
    | some c =>
      simp only [hr, reduceCtorEq, Except.ok.injEq, false_iff]
      rintro ⟨rfl, hacc⟩
      rw [Profile.accepts, hr] at hacc
      cases hacc

/-! ## Reports on the first parse -/

/-- The text that is parsed first, and what the keyword pass did to get it. -/
def firstText (parser : Parser) (s : AnalysisSettings) (source : String) : String × Trace :=
  (Scanner.ofSettings parser s).substitute source {}

/-- The report on the tree of the first parse. -/
def firstReport (parser : Parser) (s : AnalysisSettings) (path source : String)
    (tree : SyntaxTree) : FileReport :=
  let trace := (parser.firstText s source).2
  { detection := .ofFeatures path s.floor (tree.features .builtin ++ trace.features)
    grammarRelease :=
      if trace.isEmpty then Profiles.builtin.minimumRelease tree
      else parser.grammarRelease s source
    recovery := trace }

theorem analyze_of_first {s path source tree}
    (h : parser.parse s.depthLimit s.parseProfile (parser.firstText s source).1 = .ok tree) :
    parser.analyze s path source = .ok (parser.firstReport s path source tree) := by
  have hparse : parser.parseWithRecovery s source =
      .ok (tree, (parser.firstText s source).2) := by
    unfold parseWithRecovery
    rw [firstText] at h
    simp only [h]
    rfl
  rw [analyze_eq, hparse]
  rfl

/-- A report that lists nothing as moved is on the first parse. -/
theorem first_of_analyze {s path source report} (h : parser.analyze s path source = .ok report)
    (hmoved : report.recovery.moved = []) : ∃ tree,
      parser.parse s.depthLimit s.parseProfile (parser.firstText s source).1 = .ok tree ∧
        report = parser.firstReport s path source tree := by
  rw [analyze_eq] at h
  split at h
  · cases h
  · next tree trace hparse =>
    cases h
    unfold parseWithRecovery at hparse
    dsimp only at hparse
    split at hparse
    · next t hfirst =>
      cases hparse
      exact ⟨tree, hfirst, rfl⟩
    · split at hparse
      · split at hparse
        · cases hparse
        · next moved trace' hrelocated =>
          -- the relocation pass has moved something, and the report lists it
          split at hparse
          · cases hparse
            exact absurd hmoved (Scanner.relocate?_moved hrelocated)
          · cases hparse
      · cases hparse

/-! ## Two limits -/

theorem firstText_congr {s s' : AnalysisSettings} (hdepth : s.depthLimit = s'.depthLimit)
    (hsub : s.substitutes = s'.substitutes) (source : String) :
    parser.firstText s source = parser.firstText s' source := by
  unfold firstText Scanner.substitute Scanner.ofSettings
  rw [hdepth, hsub]

theorem firstReport_congr {s s' : AnalysisSettings} (hfloor : s.floor = s'.floor)
    (hdepth : s.depthLimit = s'.depthLimit) (hsub : s.substitutes = s'.substitutes)
    (path source : String) (tree : SyntaxTree) :
    parser.firstReport s path source tree = parser.firstReport s' path source tree := by
  simp only [firstReport, grammarRelease, hfloor, hdepth, firstText_congr hdepth hsub]

/-- **A looser limit leaves a direct success as it is.** If a report lists nothing as moved, then
settings with the same floor, depth limit and keyword pass, and a parser limit that is no older,
give the same report, whether they relocate or not. -/
theorem analyze_of_looser_limit {s s' : AnalysisSettings} {path source report}
    (hfloor : s.floor = s'.floor) (hdepth : s.depthLimit = s'.depthLimit)
    (hsub : s.substitutes = s'.substitutes) (hlimit : s.grammarLimit ≤ s'.grammarLimit)
    (h : parser.analyze s path source = .ok report) (hmoved : report.recovery.moved = []) :
    parser.analyze s' path source = .ok report := by
  obtain ⟨tree, hparse, rfl⟩ := first_of_analyze h hmoved
  obtain ⟨htree, hacc⟩ := parse_eq_ok_iff.1 hparse
  have hacc' : s'.parseProfile.accepts tree = true :=
    Profiles.builtin_relaxing.accepts_upperBound_mono hlimit hacc
  rw [firstReport_congr hfloor hdepth hsub]
  apply analyze_of_first
  rw [← firstText_congr hdepth hsub, ← hdepth]
  exact parse_eq_ok_iff.2 ⟨htree, hacc'⟩

end Parser

/-! ## A switch with a `yield`

The keyword pass makes a `return` of it. Nothing else in the text is refused by
a parser for release 14. -/

namespace SwitchFile

open LocalEnum (mark named held)

def written : String :=
  "class A \x7b void f() \x7b y = switch (x) \x7b default: yield 1; \x7d; \x7d \x7d"

def substituted : String :=
  "class A \x7b void f() \x7b y = switch (x) \x7b default: return 1; \x7d; \x7d \x7d"

/-- The tree of either text. The statement in the switch begins with a keyword of `n` bytes. -/
def program (statement keyword : String) (n : Nat) : Node :=
  named "program" 0 (n + 57) [named "class_declaration" 0 (n + 57) [mark "class" 0 5,
    held "identifier" "name" 6 7,
    named "class_body" 8 (n + 57) [mark "\x7b" 8 9,
      named "method_declaration" 10 (n + 55) [held "void_type" "type" 10 14,
        held "identifier" "name" 15 16,
        named "formal_parameters" 16 18 [mark "(" 16 17, mark ")" 17 18],
        named "block" 19 (n + 55) [mark "\x7b" 19 20,
          named "expression_statement" 21 (n + 53) [
            named "assignment_expression" 21 (n + 52) [named "identifier" 21 22 [],
              mark "=" 23 24,
              named "switch_expression" 25 (n + 52) [mark "switch" 25 31,
                named "parenthesized_expression" 32 35 [mark "(" 32 33,
                  named "identifier" 33 34 [], mark ")" 34 35],
                named "switch_block" 36 (n + 52) [mark "\x7b" 36 37,
                  named "switch_block_statement_group" 38 (n + 50) [
                    named "switch_label" 38 45 [mark "default" 38 45], mark ":" 45 46,
                    named statement 47 (n + 50) [mark keyword 47 (n + 47),
                      named "decimal_integer_literal" (n + 48) (n + 49) [],
                      mark ";" (n + 49) (n + 50)]],
                  mark "\x7d" (n + 51) (n + 52)]]],
            mark ";" (n + 52) (n + 53)],
          mark "\x7d" (n + 54) (n + 55)]],
      mark "\x7d" (n + 56) (n + 57)]]]

def parser : Parser := fun text =>
  if text = written then .ok (program "yield_statement" "yield" 5)
  else if text = substituted then .ok (program "return_statement" "return" 6)
  else .error .noTree

def strict : AnalysisSettings := { parserRelease := some 14, relocation := some false }

def loose : AnalysisSettings := { parserRelease := some 21 }

theorem analyze_loose : ∃ report, parser.analyze strict "A.java" written = .ok report ∧
    report.recovery.keywordSubstituted = true ∧ report.recovery.moved = [] ∧
    parser.analyze loose "A.java" written = .ok report := by
  have hok : (parser.analyze strict "A.java" written).toOption.map
      (fun r => (r.recovery.keywordSubstituted, r.recovery.moved)) = some (true, []) := by
    decide +kernel
  cases h : parser.analyze strict "A.java" written with
  | error e =>
    rw [h] at hok
    cases hok
  | ok report =>
    rw [h] at hok
    obtain ⟨hsub, hmoved⟩ := Prod.mk.inj (Option.some.inj hok)
    have hfloor : strict.floor = loose.floor := rfl
    have hdepth : strict.depthLimit = loose.depthLimit := rfl
    exact ⟨report, rfl, hsub, hmoved,
      Parser.analyze_of_looser_limit hfloor hdepth rfl (by decide) h hmoved⟩

end SwitchFile

end MinimumRelease
