import MinimumRelease.Grammar.Construct

/-!
# Errors

Everything that can go wrong, as causes. The wording of each cause stands in one function of its
type, and each has a code that stays the same when the wording changes.
-/

namespace MinimumRelease

/-- A source file could not be read. -/
structure ReadError where
  path : String
  message : String

/-- The wording of a read error. -/
def ReadError.text (e : ReadError) : String := "Cannot read " ++ e.path ++ ": " ++ e.message

/-- Why a text has no usable syntax tree. -/
inductive ParseError where
  /-- The parser itself could not be set up. This is no fault of the text. -/
  | setup (message : String)
  | noTree
  /-- The tree has faults, the first of them on the given line. -/
  | malformed (count firstLine : Nat)
  | tooDeep (limit : Nat)
  /-- The grammar of the given release refuses a construct of the text. -/
  | refused (construct : Construct) (release : Int)

namespace ParseError

/-- The wording of a parse error. -/
def text : ParseError → String
  | .setup message => "Failed to load the Java grammar: " ++ message
  | .noTree => "Parser produced no tree"
  | .malformed count firstLine =>
    "Syntax errors: " ++ Nat.repr count ++ " error node(s), first at line " ++ Nat.repr firstLine
  | .tooDeep limit => "Tree depth exceeds limit of " ++ Nat.repr limit
  | .refused construct release =>
    construct.name ++ " is not accepted by a release " ++ toString release ++ " parser"

/-- Whether the text is at fault rather than the set-up of the parser. -/
def isUnparseable : ParseError → Bool
  | .setup _ => false
  | _ => true

/-- The code of a parse error. -/
def code (e : ParseError) : String := if e.isUnparseable then "UNPARSEABLE" else "PARSER_INIT"

end ParseError

/-- A detection would contradict itself. -/
inductive DetectionError where
  | releaseMismatch (required expected : Int)

/-- The wording of a detection error. -/
def DetectionError.text : DetectionError → String
  | .releaseMismatch required expected =>
    "required release " ++ toString required ++
      " does not match the highest detected feature release " ++ toString expected

/-- A recovery pass could not be set up. -/
inductive RecoveryError where
  | invalidPattern (pattern message : String)

/-- The wording of a recovery error. -/
def RecoveryError.text : RecoveryError → String
  | .invalidPattern pattern message =>
    "Invalid recovery pattern '" ++ pattern ++ "': " ++ message

/-- Why a list of grammar profiles is not one that relaxes from release to release. -/
inductive ProfileError where
  | empty
  | notAscending (previous release : Int)
  /-- The later profile refuses a construct that the earlier one accepts. -/
  | notMonotonic (previous release : Int) (construct : Construct)
deriving DecidableEq

/-- The wording of a profile error. -/
def ProfileError.text : ProfileError → String
  | .empty => "Grammar profile list is empty"
  | .notAscending previous release =>
    "Grammar profile " ++ toString release ++ " does not follow " ++ toString previous ++
      " in ascending order"
  | .notMonotonic previous release construct =>
    "Grammar profile " ++ toString release ++ " rejects " ++ construct.name ++
      ", which profile " ++ toString previous ++ " already accepts"

/-- Why there is no configuration. -/
inductive ConfigError where
  | fileNotFound (path : String)
  | malformed (path message : String)
  | invalid (field message : String)
deriving DecidableEq

/-- The wording of a configuration error. -/
def ConfigError.text : ConfigError → String
  | .fileNotFound path => "Config file not found: " ++ path
  | .malformed path message => "Config parse error in " ++ path ++ ": " ++ message
  | .invalid field message => "Config validation failed for " ++ field ++ ": " ++ message

/-- Anything that can end the analysis of a file. -/
inductive AnalysisError where
  | source (e : ReadError)
  | parse (e : ParseError)
  | detection (e : DetectionError)
  | recovery (e : RecoveryError)
  | profile (e : ProfileError)
  | config (e : ConfigError)

namespace AnalysisError

/-- The wording of the cause alone. -/
def cause : AnalysisError → String
  | .source e => e.text
  | .parse e => e.text
  | .detection e => e.text
  | .recovery e => e.text
  | .profile e => e.text
  | .config e => e.text

/-- What the cause has to do with. -/
def subject : AnalysisError → String
  | .source _ => "Source error"
  | .parse _ => "Parse error"
  | .detection _ => "Invariant violation"
  | .recovery _ => "Recovery error"
  | .profile _ => "Grammar profile error"
  | .config _ => "Configuration error"

/-- The full wording. -/
def text (e : AnalysisError) : String := e.subject ++ ": " ++ e.cause

/-- The code of an error. -/
def code : AnalysisError → String
  | .source _ => "UNREADABLE_SOURCE"
  | .parse e => e.code
  | .detection _ => "INVARIANT_VIOLATION"
  | .recovery _ => "RECOVERY_ERROR"
  | .profile _ => "GRAMMAR_PROFILE_ERROR"
  | .config _ => "CONFIG_ERROR"

/-- A wording with the code of the error before it. -/
def withCode (e : AnalysisError) (wording : String) : String := "[" ++ e.code ++ "] " ++ wording

/-- The full wording with the code before it. -/
def codedText (e : AnalysisError) : String := e.withCode e.text

/-- The wording of the cause with the code before it. -/
def codedCause (e : AnalysisError) : String := e.withCode e.cause

/-- Whether the text of the file could not be parsed. -/
def isUnparseable : AnalysisError → Bool
  | .parse e => e.isUnparseable
  | _ => false

/-- Whether the file could not be read. -/
def isUnreadable : AnalysisError → Bool
  | .source _ => true
  | _ => false

end AnalysisError

end MinimumRelease
