import MinimumRelease.Detect.Visit
import MinimumRelease.Recovery.Scanner
import MinimumRelease.Report.Detection
import MinimumRelease.Rule.Builtin

/-!
# The report on a file

A file is parsed after the keyword pass. If that fails, it is parsed once more after the relocation
pass. Its features are those of the tree and those that the passes hid. Beside them stands the
verdict of the grammar, which is always on the text as it was written.
-/

namespace MinimumRelease

/-- Everything that is learned about a file. -/
structure FileReport where
  detection : Detection
  /-- The oldest grammar that accepts the text as written. -/
  grammarRelease : Verdict
  recovery : Recovery.Trace

/-- The profile that limits the parser. -/
def AnalysisSettings.parseProfile (s : AnalysisSettings) : Profile :=
  Profiles.builtin.upperBound s.grammarLimit

/-- Parses a text after the keyword pass, and after the relocation pass if that fails. -/
def Parser.parseWithRecovery (parser : Parser) (s : AnalysisSettings) (source : String) :
    Except ParseError (SyntaxTree × Recovery.Trace) :=
  let scanner := Recovery.Scanner.ofSettings parser s
  let parse := parser.parse s.depthLimit s.parseProfile
  let (text, trace) := scanner.substitute source {}
  match parse text with
  | .ok tree => .ok (tree, trace)
  | .error first =>
    if first.isUnparseable then
      match scanner.relocate? text trace with
      | none => .error first
      | some (moved, trace) =>
        match parse moved with
        | .ok tree => .ok (tree, trace)
        | .error second => .error second
    else .error first

/-- The oldest grammar that accepts a text, if the text parses at all. -/
def Parser.grammarRelease (parser : Parser) (s : AnalysisSettings) (source : String) : Verdict :=
  match parser.parseTree s.depthLimit source with
  | .ok tree => Profiles.builtin.minimumRelease tree
  | .error _ => .unparseable

/-- Analyses a source text. The path only labels the report. -/
def Parser.analyze (parser : Parser) (s : AnalysisSettings) (path source : String) :
    Except AnalysisError FileReport :=
  match parser.parseWithRecovery s source with
  | .error e => .error (.parse e)
  | .ok (tree, trace) =>
    let features := tree.features .builtin ++ trace.features
    match Detection.check path s.floor features (Feature.requiredRelease s.floor features) with
    | .error e => .error (.detection e)
    | .ok detection =>
      .ok {
        detection
        grammarRelease :=
          if trace.isEmpty then Profiles.builtin.minimumRelease tree
          else parser.grammarRelease s source
        recovery := trace }

/-- A detection never contradicts itself, so what parses has a report. -/
theorem Parser.analyze_eq (parser : Parser) (s : AnalysisSettings) (path source : String) :
    parser.analyze s path source =
      match parser.parseWithRecovery s source with
      | .error e => .error (.parse e)
      | .ok (tree, trace) =>
        .ok {
          detection := .ofFeatures path s.floor (tree.features .builtin ++ trace.features)
          grammarRelease :=
            if trace.isEmpty then Profiles.builtin.minimumRelease tree
            else parser.grammarRelease s source
          recovery := trace } := by
  simp only [analyze, Detection.check_requiredRelease]

end MinimumRelease
