import MinimumRelease.Config.Format
import MinimumRelease.Text.Blank

/-!
# Loading a configuration

A configuration comes in four layers. From the bottom up they are the file of the user, the file of
the project, the environment and the command line. Each setting is taken from the topmost layer
that gives it. The result is checked as a whole, so that a layer may mend what one below it got
wrong.

A missing file gives no setting, nor does a user file that cannot be read or a variable with a
malformed value. A file that can be read and is no configuration is an error.
-/

namespace MinimumRelease

/-! ## Validation -/

/-- What is wrong with a configuration. The settings are looked at in order. -/
def Config.fault? (c : Config) : Option ConfigError :=
  if c.analysis.minReleaseFloor.any (latestRelease < ·) then
    some (.invalid "analysis.min_release_floor" ("must not exceed " ++ toString latestRelease))
  else if c.analysis.parserRelease.any fun r => r < baselineRelease || latestRelease < r then
    some (.invalid "analysis.parser_release"
      ("must be between " ++ toString baselineRelease ++ " and " ++ toString latestRelease))
  else if c.analysis.maxTreeDepth = some 0 then
    some (.invalid "analysis.max_tree_depth" "must be greater than 0")
  else if c.batch.maxFileSize = some 0 then
    some (.invalid "batch.max_file_size" "must be greater than 0")
  else none

/-! ## Environment -/

/-- The values of the variables that are set. -/
abbrev Environment := String → Option String

/-- A number without a sign, of decimal digits only. -/
def digitsNumber? (cs : List Char) : Option Nat :=
  if cs.isEmpty || !cs.all Char.isDigit then none else some (Toml.digitsValue 10 cs)

/-- A number that is not negative and has 64 bits. A plus sign may stand before it. -/
def countOf? (cs : List Char) : Option Nat :=
  (digitsNumber? (match cs with | '+' :: rest => rest | _ => cs)).filter (· < UInt64.size)

/-- An integer of 32 bits. A sign may stand before it. -/
def releaseOf? (cs : List Char) : Option Int :=
  let n? : Option Int :=
    match cs with
    | '+' :: rest => (digitsNumber? rest).map fun n => (n : Int)
    | '-' :: rest => (digitsNumber? rest).map fun n => -(n : Int)
    | _ => (digitsNumber? cs).map fun n => (n : Int)
  n?.filter fun n => -0x80000000 ≤ n && n < 0x80000000

/-- A truth value. -/
def flagOf? (cs : List Char) : Option Bool :=
  if cs = "true".toList then some true
  else if cs = "false".toList then some false
  else none

/-- The value of a variable, without blanks around it, as `read` understands it. -/
def Environment.read? {α : Type} (env : Environment) (read : List Char → Option α)
    (name : String) : Option α :=
  (env name).bind fun v => read (Text.trim v.toList)

/-- The settings that the environment gives. -/
def Environment.config (env : Environment) : Config where
  analysis := {
    minReleaseFloor := env.read? releaseOf? "LANGVER_ANALYSIS_MIN_RELEASE_FLOOR"
    parserRelease := env.read? releaseOf? "LANGVER_ANALYSIS_PARSER_RELEASE"
    maxTreeDepth := env.read? countOf? "LANGVER_ANALYSIS_MAX_TREE_DEPTH"
    keywordSubstitution := env.read? flagOf? "LANGVER_ANALYSIS_KEYWORD_SUBSTITUTION"
    relocation := env.read? flagOf? "LANGVER_ANALYSIS_RELOCATION" }
  batch := {
    threads := env.read? countOf? "LANGVER_BATCH_THREADS"
    maxFileSize := env.read? countOf? "LANGVER_BATCH_MAX_FILE_SIZE" }

/-- The home directory. -/
def Environment.home? (env : Environment) : Option String :=
  (env "HOME").or (env "USERPROFILE")

/-! ## Command line -/

/-- The settings that the command line may give. -/
structure Overrides where
  minReleaseFloor : Option Int := none
  parserRelease : Option Int := none
  threads : Option Nat := none

/-- The settings that the command line gives. -/
def Overrides.config (o : Overrides) : Config where
  analysis := { minReleaseFloor := o.minReleaseFloor, parserRelease := o.parserRelease }
  batch := { threads := o.threads }

/-! ## Files -/

/-- What is found at the path of a configuration file. -/
inductive ConfigFile where
  | absent
  /-- There is something that cannot be read as text. -/
  | unreadable
  | text (content : String)

/-- Reads a configuration file. An absent one gives no setting. -/
def ConfigFile.config (path : String) : ConfigFile → Except ConfigError Config
  | .absent => .ok {}
  | .unreadable => .error (.fileNotFound path)
  | .text content => (Config.ofToml content).mapError (.malformed path ·)

/-- Reads the file of the user, which counts as absent if it cannot be read. -/
def ConfigFile.userConfig (path : String) : ConfigFile → Except ConfigError Config
  | .unreadable => .ok {}
  | file => file.config path

/-- The path of the user's file below the home directory. -/
def userPath (home : String) : String := home ++ "/.langver/config.toml"

/-- The path of the project's file below the root of the project. -/
def projectPath (root : String) : String := root ++ "/langver.toml"

/-- The configuration for the project at `root`. -/
def Config.load (files : String → ConfigFile) (env : Environment) (root : String)
    (overrides : Option Overrides) : Except ConfigError Config := do
  let user ←
    match env.home? with
    | none => .ok {}
    | some home => (files (userPath home)).userConfig (userPath home)
  let project ← (files (projectPath root)).config (projectPath root)
  let config := ((user.overlay project).overlay env.config).overlay (overrides.getD {}).config
  match config.fault? with
  | some fault => .error fault
  | none => .ok config

end MinimumRelease
