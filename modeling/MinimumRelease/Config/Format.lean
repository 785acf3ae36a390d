import MinimumRelease.Config.Basic
import MinimumRelease.Error
import MinimumRelease.Toml.Document

/-!
# Configurations as TOML

A configuration is a document with two tables, `analysis` and `batch`. Keys that are not settings
are passed over. A table may also be given as an array of its values in the order of the settings,
and a date in its place gives no setting. Written out, both tables are always there, and
only settings that have a value.
-/

namespace MinimumRelease

open Toml (Value Entries)

/-! ## Reading -/

/-- A setting that is an integer of 32 bits. -/
def Toml.Value.release? : Value → Option Int
  | .integer n => if -0x80000000 ≤ n && n < 0x80000000 then some n else none
  | _ => none

/-- A setting that is a number and not negative. -/
def Toml.Value.count? : Value → Option Nat
  | .integer n => if 0 ≤ n then some n.toNat else none
  | _ => none

/-- A setting that is switched on or off. -/
def Toml.Value.flag? : Value → Option Bool
  | .boolean b => some b
  | _ => none

/-- The values of a table's settings by name, or nothing if the value cannot be read as a table. -/
def Toml.Value.settings? (names : List String) : Value → Option Entries
  | .table _ entries => some entries
  | .array elements => some (names.zip elements)
  | .tables elements => some (names.zip (elements.map (.table .header)))
  | .dateTime _ => some []
  | _ => none

/-- The setting of the given name. That it is not given is no error; that it cannot be read is. -/
def Toml.Entries.setting? {α : Type} (entries : Entries) (read : Value → Option α)
    (name : String) : Option (Option α) :=
  match entries.get? name with
  | none => some none
  | some v => (read v).map some

/-- The names of the analysis settings, in order. -/
def AnalysisSettings.names : List String :=
  ["min_release_floor", "parser_release", "max_tree_depth", "keyword_substitution", "relocation"]

/-- The names of the batch settings, in order. -/
def BatchSettings.names : List String := ["threads", "max_file_size"]

/-- Reads the analysis settings. -/
def AnalysisSettings.ofValue? (v : Value) : Option AnalysisSettings := do
  let entries ← v.settings? names
  return {
    minReleaseFloor := ← entries.setting? (·.release?) "min_release_floor"
    parserRelease := ← entries.setting? (·.release?) "parser_release"
    maxTreeDepth := ← entries.setting? (·.count?) "max_tree_depth"
    keywordSubstitution := ← entries.setting? (·.flag?) "keyword_substitution"
    relocation := ← entries.setting? (·.flag?) "relocation" }

/-- Reads the batch settings. -/
def BatchSettings.ofValue? (v : Value) : Option BatchSettings := do
  let entries ← v.settings? names
  return {
    threads := ← entries.setting? (·.count?) "threads"
    maxFileSize := ← entries.setting? (·.count?) "max_file_size" }

/-- Reads a configuration from the table of a document. -/
def Config.ofEntries? (entries : Entries) : Option Config := do
  let analysis ← entries.setting? AnalysisSettings.ofValue? "analysis"
  let batch ← entries.setting? BatchSettings.ofValue? "batch"
  return ⟨analysis.getD {}, batch.getD {}⟩

/-- Reads a configuration from the text of a document. -/
def Config.ofToml (text : String) : Except String Config :=
  match Toml.parse text with
  | .error e => .error e.text
  | .ok entries =>
    match Config.ofEntries? entries with
    | some config => .ok config
    | none => .error "holds a setting of the wrong type"

/-! ## Writing -/

/-- The line of a setting, or nothing if it has no value. -/
def settingLine (name : String) (value : Option String) : String :=
  match value with
  | none => ""
  | some v => name ++ " = " ++ v ++ "\n"

/-- A truth value as it is written. -/
def flagText (b : Bool) : String := if b then "true" else "false"

/-- The table of the analysis settings. -/
def AnalysisSettings.toToml (s : AnalysisSettings) : String :=
  "[analysis]\n" ++
    settingLine "min_release_floor" (s.minReleaseFloor.map toString) ++
    settingLine "parser_release" (s.parserRelease.map toString) ++
    settingLine "max_tree_depth" (s.maxTreeDepth.map Nat.repr) ++
    settingLine "keyword_substitution" (s.keywordSubstitution.map flagText) ++
    settingLine "relocation" (s.relocation.map flagText)

/-- The table of the batch settings. -/
def BatchSettings.toToml (s : BatchSettings) : String :=
  "[batch]\n" ++
    settingLine "threads" (s.threads.map Nat.repr) ++
    settingLine "max_file_size" (s.maxFileSize.map Nat.repr)

/-- Whether a number can be written. Integers of a document have 64 bits, one for the sign. -/
def isWritable (n : Option Nat) : Bool := n.all (· < 0x8000000000000000)

/-- Writes a configuration, if each of its numbers can be written. -/
def Config.toToml (c : Config) : Except ConfigError String :=
  if isWritable c.analysis.maxTreeDepth && isWritable c.batch.threads &&
      isWritable c.batch.maxFileSize then
    .ok (c.analysis.toToml ++ "\n" ++ c.batch.toToml)
  else .error (.malformed "<serialization>" "a number has more than 63 bits")

end MinimumRelease
