import MinimumRelease.Report.File

/-!
# The report on many files

Files are read from a store and analysed one by one. No failure of one file keeps another from
being analysed. The report lists everything in the order of the paths, and counts how many files
require each release and show each feature.
-/

namespace MinimumRelease

/-- What a path of a store names. -/
inductive StoredItem where
  | file (content : ByteArray)
  /-- A directory, with the size that the file system gives for it. -/
  | directory (size : Nat)

/-- The items of a file system by path. -/
abbrev FileStore := String → Option StoredItem

/-- Size of an item in bytes. -/
def StoredItem.size : StoredItem → Nat
  | .file content => content.size
  | .directory size => size

/-- The text of an item, or the message of the system that it cannot be read. -/
def StoredItem.text : StoredItem → Except String String
  | .file content =>
    match String.fromUTF8? content with
    | some text => .ok text
    | none => .error "stream did not contain valid UTF-8"
  | .directory _ => .error "Is a directory (os error 21)"

/-- Reads a source file, unless it is larger than `limit` bytes. -/
def FileStore.readSource (store : FileStore) (limit : Nat) (path : String) :
    Except ReadError String :=
  match store path with
  | none => .error ⟨path, "No such file or directory (os error 2)"⟩
  | some item =>
    if limit < item.size then
      .error ⟨path, "file is " ++ Nat.repr item.size ++ " bytes, limit is " ++ Nat.repr limit⟩
    else item.text.mapError (⟨path, ·⟩)

/-- Reads and analyses a file. -/
def Parser.analyzeFile (parser : Parser) (config : Config) (store : FileStore) (path : String) :
    Except AnalysisError FileReport :=
  match store.readSource config.batch.sizeLimit path with
  | .error e => .error (.source e)
  | .ok source => parser.analyze config.analysis path source

/-- Counts by key. -/
abbrev Tally (κ : Type) := List (κ × Nat)

/-- Counts one more of `key`. New keys go where they keep the keys in ascending order. -/
def Tally.add {κ : Type} [DecidableEq κ] (isBefore : κ → κ → Bool) (key : κ) : Tally κ → Tally κ
  | [] => [(key, 1)]
  | (k, n) :: rest =>
    if k = key then (k, n + 1) :: rest
    else if isBefore key k then (key, 1) :: (k, n) :: rest
    else (k, n) :: Tally.add isBefore key rest

/-- Whether a feature stands before another one in the catalog. -/
def Feature.catalogBefore (f g : Feature) : Bool :=
  Feature.all.idxOf f < Feature.all.idxOf g

/-- A file that could not be analysed. -/
structure Failure where
  path : String
  code : String
  message : String

/-- What is learned about many files, in the order of their paths. -/
structure BatchReport where
  files : List FileReport := []
  /-- Number of files that require each release. -/
  releases : Tally Int := []
  /-- Number of files that show each feature. -/
  features : Tally Feature := []
  unparseable : List Failure := []
  unreadable : List Failure := []
  errors : List AnalysisError := []

namespace BatchReport

/-- Adds the report on a file. -/
def addFile (b : BatchReport) (r : FileReport) : BatchReport :=
  { b with
    files := b.files ++ [r]
    releases := b.releases.add (· < ·) r.detection.required
    features := r.detection.features.foldl (fun t f => t.add Feature.catalogBefore f) b.features }

/-- Adds the failure of a file. It is listed as unreadable or as unparseable, if it is either. -/
def addFailure (b : BatchReport) (path : String) (e : AnalysisError) : BatchReport :=
  let failure : Failure := ⟨path, e.code, e.text⟩
  { b with
    unparseable := if e.isUnparseable then b.unparseable ++ [failure] else b.unparseable
    unreadable := if e.isUnreadable then b.unreadable ++ [failure] else b.unreadable
    errors := b.errors ++ [e] }

/-- Adds the outcome of the analysis of a file. -/
def add (b : BatchReport) (path : String) (outcome : Except AnalysisError FileReport) :
    BatchReport :=
  match outcome with
  | .ok r => b.addFile r
  | .error e => b.addFailure path e

/-- Newest release that a file requires. -/
def maxRequired? (b : BatchReport) : Option Int := b.releases.getLast?.map (·.1)

/-- Newest release that the language features of a file require. -/
def maxRequiredLanguage? (b : BatchReport) : Option Int :=
  (b.files.filterMap (·.detection.requiredLanguageRelease?)).max?

/-- Whether every file could be analysed. -/
def isClean (b : BatchReport) : Bool := b.errors.isEmpty

end BatchReport

/-- Analyses every path. How the work is spread over workers does not show in the report. -/
def Parser.analyzeBatch (parser : Parser) (config : Config) (store : FileStore)
    (paths : List String) : BatchReport :=
  paths.foldl (fun b path => b.add path (parser.analyzeFile config store path)) {}

end MinimumRelease
