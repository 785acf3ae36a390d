import MinimumRelease.Toml.Scalar
import MinimumRelease.Toml.Table

/-!
# TOML documents

Reads the text of a document into its table. The text is a sequence of lines; only arrays and
strings in triple quotes go over several of them. Keys have fewer than eighty parts, and arrays and
tables in braces are nested less than eighty deep.
-/

namespace MinimumRelease.Toml

/-- Why a text is not a document. -/
inductive Error where
  /-- The given line cannot be read. -/
  | unreadable (line : Nat)
  /-- Some key or table is defined twice. -/
  | redefined
deriving DecidableEq

/-- The wording of an error. -/
def Error.text : Error → String
  | .unreadable line => "cannot be read from line " ++ Nat.repr line
  | .redefined => "defines a key twice"

/-- Neither the parts of a key nor the nesting of values reach this number. -/
def nestingLimit : Nat := 80

/-! ## Keys -/

/-- Characters of a key without quotes. -/
def isKeyChar (c : Char) : Bool := c.isAlphanum || c = '-' || c = '_'

/-- One part of a key. -/
def keyPart : Reader String := fun cs =>
  match cs with
  | [] => none
  | c :: rest =>
    if c = '"' || c = '\x27' then
      match lineString c rest with
      | some (.string s, rest) => some (s, rest)
      | _ => none
    else
      let word := cs.takeWhile isKeyChar
      if word.isEmpty then none else some (String.ofList word, cs.dropWhile isKeyChar)

/-- Parts of a key behind its first, each after a dot. Blanks may stand around each part. -/
def keyParts : (fuel : Nat) → Reader (List String)
  | 0, _ => none
  | fuel + 1, cs =>
    match cs.dropWhile isWs with
    | '.' :: rest =>
      match keyPart (rest.dropWhile isWs) with
      | none => none
      | some (part, rest) => (keyParts fuel rest).map fun (ps, rest) => (part :: ps, rest)
    | rest => some ([], rest)

/-- A dotted key: its front parts and its last. -/
def key : Reader (List String × String) := fun cs =>
  match keyPart (cs.dropWhile isWs) with
  | none => none
  | some (part, rest) =>
    match keyParts (rest.length + 1) rest with
    | none => none
    | some (parts, rest) =>
      if (part :: parts).length < nestingLimit then
        some (((part :: parts).dropLast, parts.getLastD part), rest)
      else none

/-! ## Values -/

/-- What follows blanks, line breaks and comments inside an array. A comment that does not end
with its line is left where it goes wrong. -/
def skipTrivia : (inComment : Bool) → List Char → List Char
  | _, '\n' :: cs => skipTrivia false cs
  | _, '\r' :: '\n' :: cs => skipTrivia false cs
  | false, c :: cs =>
    if isWs c then skipTrivia false cs
    else if c = '#' then skipTrivia true cs
    else c :: cs
  | true, c :: cs => if isCommentChar c then skipTrivia true cs else c :: cs
  | _, [] => []

/-- The elements of an array, behind the opening bracket or a comma. -/
def arrayBody (value : Reader Value) : (fuel : Nat) → Reader (List Value)
  | 0, _ => none
  | fuel + 1, cs =>
    match skipTrivia false cs with
    | ']' :: rest => some ([], rest)
    | cs =>
      match value cs with
      | none => none
      | some (v, rest) =>
        match skipTrivia false rest with
        | ']' :: rest => some ([v], rest)
        | ',' :: rest => (arrayBody value fuel rest).map fun (vs, rest) => (v :: vs, rest)
        | _ => none

/-- `key = value` -/
def pair (value : Reader Value) : Reader (List String × String × Value) := fun cs =>
  match key cs with
  | some ((front, last), '=' :: rest) =>
    (value (rest.dropWhile isWs)).map fun (v, rest) => ((front, last, v), rest)
  | _ => none

/-- The entries of a table in braces, behind the opening brace or a comma. -/
def bracedBody (value : Reader Value) : (fuel : Nat) → Reader (List (List String × String × Value))
  | 0, _ => none
  | fuel + 1, cs =>
    match pair value cs with
    | none => none
    | some (p, rest) =>
      match rest.dropWhile isWs with
      | '}' :: rest => some ([p], rest)
      | ',' :: rest => (bracedBody value fuel rest).map fun (ps, rest) => (p :: ps, rest)
      | _ => none

/-- A table in braces, behind the opening brace. -/
def braced (value : Reader Value) : Reader Value := fun cs =>
  match cs.dropWhile isWs with
  | '}' :: rest => some (.table .inline [], rest)
  | _ =>
    match bracedBody value (cs.length + 1) cs with
    | none => none
    | some (pairs, rest) => (Entries.ofInline pairs).map fun t => (.table .inline t, rest)

/-- A value that holds no other values. -/
def scalar : Reader Value := fun cs =>
  match cs with
  | [] => none
  | c :: _ =>
    if c = '"' || c = '\x27' then string cs
    else if c = '+' || c = '-' || c.isDigit then number cs
    else (boolean cs).or (if c = 'i' || c = 'n' then specialFloat cs else none)

/-- A value with arrays and tables in braces nested at most `depth` deep. -/
def value : (depth : Nat) → Reader Value
  | depth, '[' :: cs =>
    match depth with
    | 0 => none
    | depth + 1 =>
      (arrayBody (value depth) (cs.length + 1) cs).map fun (vs, rest) => (.array vs, rest)
  | depth, '{' :: cs =>
    match depth with
    | 0 => none
    | depth + 1 => braced (value depth) cs
  | _, cs => scalar cs

/-! ## Lines -/

/-- What follows the end of a line, before which blanks and a comment may stand. -/
def lineEnd? (cs : List Char) : Option (List Char) :=
  let cs := cs.dropWhile isWs
  let cs :=
    match cs with
    | '#' :: rest => rest.dropWhile isCommentChar
    | _ => cs
  match cs with
  | [] => some []
  | _ => newline? cs

/-- A header with the brackets `opening` and `closing`, behind its opening brackets. -/
def headerKey (closing : List Char) : Reader (List String × String) := fun cs =>
  match key cs with
  | none => none
  | some (k, rest) =>
    if closing.isPrefixOf rest then some (k, rest.drop closing.length) else none

/-- The statement of a line that is not empty. -/
def statement : Reader Statement
  | '[' :: '[' :: cs =>
    (headerKey [']', ']'] cs).map fun ((front, k), rest) => (.element front k, rest)
  | '[' :: cs => (headerKey [']'] cs).map fun ((front, k), rest) => (.header front k, rest)
  | cs =>
    (pair (value (nestingLimit - 1)) cs).map fun ((front, k, v), rest) => (.entry front k v, rest)

/-- The statements of the remaining lines. `total` is the number of line feeds of the whole text,
which tells how far the reader has come. -/
def statements (total : Nat) : (fuel : Nat) → List Char → Except Error (List Statement)
  | 0, _ => .error (.unreadable total)
  | fuel + 1, cs =>
    match cs.dropWhile isWs with
    | [] => .ok []
    | c :: cs =>
      let fault : Error := .unreadable (total - (c :: cs).count '\n' + 1)
      if c = '\n' || c = '\r' || c = '#' then
        match lineEnd? (c :: cs) with
        | none => .error fault
        | some rest => statements total fuel rest
      else
        match statement (c :: cs) with
        | none => .error fault
        | some (s, rest) =>
          match lineEnd? rest with
          | none => .error fault
          | some rest =>
            match statements total fuel rest with
            | .error e => .error e
            | .ok more => .ok (s :: more)

/-- The table of a document. A byte order mark before it is left out. -/
def parse (text : String) : Except Error Entries :=
  let cs :=
    match text.toList with
    | '\ufeff' :: rest => rest
    | cs => cs
  match statements (cs.count '\n') (cs.length + 1) cs with
  | .error e => .error e
  | .ok ss =>
    match Entries.ofStatements ss with
    | some t => .ok t
    | none => .error .redefined

end MinimumRelease.Toml
