import MinimumRelease.Feature

/-!
# Settings

The settings of an analysis. A setting that is not given has a default, so every setting has an
effective value. Configurations are laid over each other setting by setting: a later one counts
only where it gives a value.
-/

namespace MinimumRelease

/-- Settings for the analysis of one file. -/
@[ext] structure AnalysisSettings where
  /-- Release of a file without features, and the smallest release that is reported. -/
  minReleaseFloor : Option Int := none
  /-- Newest grammar that the parser accepts. -/
  parserRelease : Option Int := none
  /-- Deepest tree that is looked at. -/
  maxTreeDepth : Option Nat := none
  /-- Substitute `yield` statements before the first parse. -/
  keywordSubstitution : Option Bool := none
  /-- Relocate local declarations after a failed parse. -/
  relocation : Option Bool := none
deriving DecidableEq

/-- Settings for the analysis of many files. -/
@[ext] structure BatchSettings where
  /-- Number of workers; zero leaves the choice to the machine. -/
  threads : Option Nat := none
  /-- Largest file that is read, in bytes. -/
  maxFileSize : Option Nat := none
deriving DecidableEq

/-- All settings. -/
@[ext] structure Config where
  analysis : AnalysisSettings := {}
  batch : BatchSettings := {}
deriving DecidableEq

namespace AnalysisSettings

/-- Release of a file without features. -/
def floor (s : AnalysisSettings) : Int := s.minReleaseFloor.getD 1

/-- Newest grammar that the parser accepts. -/
def grammarLimit (s : AnalysisSettings) : Int := s.parserRelease.getD latestRelease

/-- Deepest tree that is looked at. -/
def depthLimit (s : AnalysisSettings) : Nat := s.maxTreeDepth.getD 2000

/-- Whether `yield` statements are substituted. -/
def substitutes (s : AnalysisSettings) : Bool := s.keywordSubstitution.getD true

/-- Whether local declarations are relocated. -/
def relocates (s : AnalysisSettings) : Bool := s.relocation.getD true

/-- Takes each setting from `top` if it gives one, and from `base` otherwise. -/
def overlay (base top : AnalysisSettings) : AnalysisSettings where
  minReleaseFloor := top.minReleaseFloor.or base.minReleaseFloor
  parserRelease := top.parserRelease.or base.parserRelease
  maxTreeDepth := top.maxTreeDepth.or base.maxTreeDepth
  keywordSubstitution := top.keywordSubstitution.or base.keywordSubstitution
  relocation := top.relocation.or base.relocation

end AnalysisSettings

namespace BatchSettings

/-- Number of workers. -/
def workers (s : BatchSettings) : Nat := s.threads.getD 0

/-- Largest file that is read, in bytes. -/
def sizeLimit (s : BatchSettings) : Nat := s.maxFileSize.getD (4 * 1024 * 1024)

/-- Takes each setting from `top` if it gives one, and from `base` otherwise. -/
def overlay (base top : BatchSettings) : BatchSettings where
  threads := top.threads.or base.threads
  maxFileSize := top.maxFileSize.or base.maxFileSize

end BatchSettings

/-- Takes each setting from `top` if it gives one, and from `base` otherwise. -/
def Config.overlay (base top : Config) : Config :=
  ⟨base.analysis.overlay top.analysis, base.batch.overlay top.batch⟩

end MinimumRelease
