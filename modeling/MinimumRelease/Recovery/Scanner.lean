import MinimumRelease.Config.Basic
import MinimumRelease.Parse
import MinimumRelease.Recovery.Relocation
import MinimumRelease.Recovery.Yield

/-!
# Recovery

Two passes change a text so that the parser accepts it. Both hide features, which the trace
records, so that they are not lost. The keyword pass replaces only what the full grammar reads as
a `yield` statement; a text that does not parse at all is left alone.
-/

namespace MinimumRelease.Recovery

/-- What the passes did to a text. -/
structure Trace where
  keywordSubstituted : Bool := false
  moved : List Relocated := []

namespace Trace

/-- Nothing was done. -/
def isEmpty (t : Trace) : Bool := !t.keywordSubstituted && t.moved.isEmpty

/-- The features that the changed text no longer shows. -/
def features (t : Trace) : List Feature :=
  (if t.keywordSubstituted then [.yield] else []) ++ (t.moved.map (·.kind.feature)).eraseDups

end Trace

/-- Both passes, each of which may be switched off. -/
structure Scanner where
  parser : Parser
  /-- Depth limit of the parse that confirms keywords. -/
  maxDepth : Nat := ({} : AnalysisSettings).depthLimit
  substitutes : Bool := true
  relocates : Bool := true

namespace Scanner

/-- The passes as an analysis with the given settings runs them. -/
def ofSettings (parser : Parser) (s : AnalysisSettings) : Scanner :=
  ⟨parser, s.depthLimit, s.substitutes, s.relocates⟩

/-- The keyword pass. -/
def substitute (sc : Scanner) (source : String) (trace : Trace) : String × Trace :=
  if !sc.substitutes || (yieldCandidates source).isEmpty then (source, trace)
  else
    match sc.parser.parseTree sc.maxDepth source with
    | .error _ => (source, trace)
    | .ok tree =>
      let starts := tree.yieldStarts
      let s := substituteYield source (starts.contains ·)
      (s.text, { trace with keywordSubstituted := trace.keywordSubstituted || s.changed })

/-- The relocation pass. There is no result if it is switched off, and none if nothing moved, as
then a second parse would fail like the first. -/
def relocate? (sc : Scanner) (source : String) (trace : Trace) : Option (String × Trace) :=
  if sc.relocates then
    let r := relocate source
    if r.moved.isEmpty then none
    else some (r.text, { trace with moved := trace.moved ++ r.moved })
  else none

/-- Both passes, one after the other. -/
def scan (sc : Scanner) (source : String) : String × Trace :=
  let (text, trace) := sc.substitute source {}
  (sc.relocate? text trace).getD (text, trace)

end Scanner

end MinimumRelease.Recovery
