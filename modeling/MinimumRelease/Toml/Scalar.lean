import MinimumRelease.Toml.Value

/-!
# TOML scalars

Readers for the values that hold no other values. Each takes a text and gives the value at its
beginning with the text behind it, or nothing if the text does not begin with such a value.
Integers have 64 bits; a float may not exceed the largest double; dates and times must exist in the
calendar.
-/

namespace MinimumRelease.Toml

/-- A reader of something at the beginning of a text. -/
abbrev Reader (α : Type) := List Char → Option (α × List Char)

/-! ## Characters -/

/-- Space and tab. -/
def isWs (c : Char) : Bool := c = ' ' || c = '\t'

/-- Characters of comments: everything but control characters, tab and delete excepted. -/
def isCommentChar (c : Char) : Bool := c = '\t' || 0x20 ≤ c.toNat

/-- Characters of strings: everything but control characters, tab excepted. -/
def isStringChar (c : Char) : Bool := isCommentChar c && c ≠ '\x7f'

/-- Letters and digits of hexadecimal numbers. -/
def isHexDigit (c : Char) : Bool :=
  c.isDigit || ('a' ≤ c && c ≤ 'f') || ('A' ≤ c && c ≤ 'F')

/-- The value of a digit. -/
def digitValue (c : Char) : Nat :=
  if c.isDigit then c.toNat - '0'.toNat
  else if c.isLower then c.toNat - 'a'.toNat + 10
  else c.toNat - 'A'.toNat + 10

/-- The number that digits denote. -/
def digitsValue (base : Nat) (digits : List Char) : Nat :=
  digits.foldl (fun n c => n * base + digitValue c) 0

/-- What follows a line break. -/
def newline? : List Char → Option (List Char)
  | '\n' :: cs => some cs
  | '\r' :: '\n' :: cs => some cs
  | _ => none

/-! ## Numbers -/

/-- Digits of a number behind its first. Underscores may stand between digits. -/
def moreDigits (isDigit : Char → Bool) : Reader (List Char)
  | [] => some ([], [])
  | '_' :: d :: cs =>
    if isDigit d then (moreDigits isDigit cs).map fun (ds, rest) => (d :: ds, rest) else none
  | c :: cs =>
    if isDigit c then (moreDigits isDigit cs).map fun (ds, rest) => (c :: ds, rest)
    else if c = '_' then none
    else some ([], c :: cs)

/-- One digit or more, with underscores between them. -/
def digits : (isDigit : Char → Bool) → Reader (List Char)
  | _, [] => none
  | isDigit, c :: cs =>
    if isDigit c then (moreDigits isDigit cs).map fun (ds, rest) => (c :: ds, rest) else none

/-- The digits of a decimal integer. A leading zero stands alone. -/
def decimalDigits : Reader (List Char)
  | '0' :: cs => some (['0'], cs)
  | cs => digits Char.isDigit cs

/-- Whether a number is negative. -/
def sign (cs : List Char) : Bool × List Char :=
  match cs with
  | '-' :: rest => (true, rest)
  | '+' :: rest => (false, rest)
  | _ => (false, cs)

/-- Integers have 64 bits. -/
def inRange (n : Int) : Bool := -0x8000000000000000 ≤ n && n < 0x8000000000000000

/-- The integer with the given digits, if it has 64 bits. -/
def integerOf (negative : Bool) (base : Nat) (ds : List Char) : Option Value :=
  let n : Int := digitsValue base ds
  let n := if negative then -n else n
  if inRange n then some (.integer n) else none

/-- An integer with digits that `p` accepts, to a base other than ten. It has no sign. -/
def basedInteger (p : Char → Bool) (base : Nat) : Reader Value := fun cs => do
  let (ds, rest) ← digits p cs
  return (← integerOf false base ds, rest)

/-- A decimal integer. -/
def decimalInteger : Reader Value := fun cs => do
  let (negative, cs) := sign cs
  let (ds, rest) ← decimalDigits cs
  return (← integerOf negative 10 ds, rest)

/-- An integer. -/
def integer : Reader Value
  | '0' :: 'x' :: cs => basedInteger isHexDigit 16 cs
  | '0' :: 'o' :: cs => basedInteger (fun c => '0' ≤ c && c ≤ '7') 8 cs
  | '0' :: 'b' :: cs => basedInteger (fun c => c = '0' || c = '1') 2 cs
  | cs => decimalInteger cs

/-- The exponent of a float. -/
def exponent : Reader Int
  | c :: cs =>
    if c = 'e' || c = 'E' then do
      let (negative, cs) := sign cs
      let (ds, rest) ← digits Char.isDigit cs
      let n : Int := digitsValue 10 ds
      return (if negative then -n else n, rest)
    else none
  | [] => none

/-- Whether `m * 10 ^ e` rounds to a double. From half a unit above the largest double on, it does
not. Sizes are compared before powers are computed, so that a large exponent costs nothing. -/
def fitsDouble (m : Nat) (e : Int) : Bool :=
  let bound := Nat.pow 2 1024 - Nat.pow 2 970
  let size : Int := (Nat.toDigits 10 m).length + e
  if m = 0 || size ≤ 308 then true
  else if 310 < size then false
  else if 0 ≤ e then m * Nat.pow 10 e.toNat < bound
  else m < bound * Nat.pow 10 (-e).toNat

/-- A float with a fraction, an exponent or both. Only positive floats can be too large. -/
def finiteFloat : Reader Value := fun cs => do
  let (negative, body) := sign cs
  let (whole, rest) ← decimalDigits body
  let (fraction, rest, marked) ←
    match rest with
    | '.' :: rest => (digits Char.isDigit rest).map fun (ds, rest) => (ds, rest, true)
    | _ => some ([], rest, false)
  let (e, rest) ←
    match exponent rest with
    | some (e, rest) => some (e, rest)
    | none => if marked then some (0, rest) else none
  let m := digitsValue 10 (whole ++ fraction)
  if negative || fitsDouble m (e - fraction.length) then
    some (.float (String.ofList (cs.take (cs.length - rest.length))), rest)
  else none

/-- Infinity or not a number. -/
def specialFloat : Reader Value := fun cs =>
  let (_, body) := sign cs
  match body with
  | 'i' :: 'n' :: 'f' :: rest | 'n' :: 'a' :: 'n' :: rest =>
    some (.float (String.ofList (cs.take (cs.length - rest.length))), rest)
  | _ => none

/-! ## Dates and times -/

/-- A number of exactly `n` digits between `lo` and `hi`. -/
def fixedNumber (n lo hi : Nat) : Reader Nat := fun cs =>
  let ds := cs.take n
  let v := digitsValue 10 ds
  if ds.length = n && ds.all Char.isDigit && lo ≤ v && v ≤ hi then some (v, cs.drop n) else none

/-- Number of days of a month. -/
def daysInMonth (year month : Nat) : Nat :=
  if month = 2 then
    if year % 4 = 0 && (year % 100 ≠ 0 || year % 400 = 0) then 29 else 28
  else if [4, 6, 9, 11].contains month then 30
  else 31

/-- The character `c`. -/
def single (c : Char) : Reader Unit
  | [] => none
  | d :: cs => if d = c then some ((), cs) else none

/-- `2000-12-31` -/
def date : Reader Unit := fun cs => do
  let (year, cs) ← fixedNumber 4 0 9999 cs
  let (_, cs) ← single '-' cs
  let (month, cs) ← fixedNumber 2 1 12 cs
  let (_, cs) ← single '-' cs
  let (_, cs) ← fixedNumber 2 1 (daysInMonth year month) cs
  return ((), cs)

/-- `23:59:60.5`; seconds may be a leap second. -/
def time : Reader Unit := fun cs => do
  let (_, cs) ← fixedNumber 2 0 23 cs
  let (_, cs) ← single ':' cs
  let (_, cs) ← fixedNumber 2 0 59 cs
  let (_, cs) ← single ':' cs
  let (_, cs) ← fixedNumber 2 0 60 cs
  match cs with
  | '.' :: d :: rest => return ((), if d.isDigit then rest.dropWhile Char.isDigit else cs)
  | _ => return ((), cs)

/-- `Z` or `+01:00` -/
def timeOffset : Reader Unit
  | 'Z' :: cs | 'z' :: cs => some ((), cs)
  | '+' :: cs | '-' :: cs => do
    let (_, cs) ← fixedNumber 2 0 23 cs
    let (_, cs) ← single ':' cs
    let (_, cs) ← fixedNumber 2 0 59 cs
    return ((), cs)
  | _ => none

/-- The time of day behind a date, if there is one, with its offset. -/
def timeOfDate (cs : List Char) : List Char :=
  match cs with
  | c :: rest =>
    if c = 'T' || c = 't' || c = ' ' then
      match time rest with
      | some (_, rest) => ((timeOffset rest).map (·.2)).getD rest
      | none => cs
    else cs
  | [] => cs

/-- A date, a time, or both with or without an offset. -/
def dateTime : Reader Value := fun cs => do
  let rest ←
    match date cs with
    | some (_, rest) => some (timeOfDate rest)
    | none => (time cs).map (·.2)
  return (.dateTime (String.ofList (cs.take (cs.length - rest.length))), rest)

/-! ## Strings -/

/-- The character that a letter behind a backslash stands for. -/
def escapeOf? (c : Char) : Option Char :=
  match c with
  | 'b' => some '\x08'
  | 't' => some '\t'
  | 'n' => some '\n'
  | 'f' => some '\x0c'
  | 'r' => some '\r'
  | '"' => some '"'
  | '\\' => some '\\'
  | _ => none

/-- The character with the given hexadecimal code. -/
def codedChar? (ds : List Char) : Option Char :=
  let n := digitsValue 16 ds
  if ds.all isHexDigit && n.isValidChar then some (Char.ofNat n) else none

/-- The escape sequence behind a backslash. -/
def escape : Reader Char
  | 'u' :: a :: b :: c :: d :: cs => (codedChar? [a, b, c, d]).map (·, cs)
  | 'U' :: a :: b :: c :: d :: e :: f :: g :: h :: cs =>
    (codedChar? [a, b, c, d, e, f, g, h]).map (·, cs)
  | c :: cs => (escapeOf? c).map (·, cs)
  | [] => none

/-- Puts a character before what a reader of strings gives. -/
def consChar (c : Char) (r : Option (List Char × List Char)) : Option (List Char × List Char) :=
  r.map fun (s, rest) => (c :: s, rest)

/-- A string in double quotes, behind the opening quote. `fuel` bounds its length. -/
def quotedBody : (fuel : Nat) → Reader (List Char)
  | 0, _ => none
  | _ + 1, [] => none
  | _ + 1, '"' :: cs => some ([], cs)
  | fuel + 1, '\\' :: cs =>
    match escape cs with
    | some (c, rest) => consChar c (quotedBody fuel rest)
    | none => none
  | fuel + 1, c :: cs => if isStringChar c then consChar c (quotedBody fuel cs) else none

/-- A string in single quotes, behind the opening quote. There are no escapes. -/
def plainBody : Reader (List Char)
  | [] => none
  | c :: cs =>
    if c = '\x27' then some ([], cs)
    else if isStringChar c then consChar c (plainBody cs)
    else none

/-- Three quotes end a string of several lines. One or two right before them belong to it. -/
def closingQuotes? (q : Char) (cs : List Char) : Option (List Char × List Char) :=
  let n := (cs.takeWhile (· = q)).length
  if n < 3 then none
  else
    let inside := min (n - 3) 2
    some (List.replicate inside q, cs.drop (inside + 3))

/-- What follows blanks and line breaks. -/
def skipBreaks : List Char → List Char
  | '\r' :: '\n' :: cs => skipBreaks cs
  | c :: cs => if isWs c || c = '\n' then skipBreaks cs else c :: cs
  | [] => []

/-- What follows a backslash at the end of a line. Blanks and line breaks after it are left out. -/
def continuation? (cs : List Char) : Option (List Char) :=
  (newline? (cs.dropWhile isWs)).map skipBreaks

/-- A string of several lines in quotes `q`, behind the opening quotes. `fuel` bounds its length.
Only double quotes have escapes. -/
def linesBody (q : Char) : (fuel : Nat) → Reader (List Char)
  | 0, _ => none
  | fuel + 1, cs =>
    match closingQuotes? q cs, newline? cs, cs with
    | some done, _, _ => some done
    | none, some rest, _ => consChar '\n' (linesBody q fuel rest)
    | none, none, c :: rest =>
      if c = '\\' && q = '"' then
        match continuation? rest, escape rest with
        | some rest, _ => linesBody q fuel rest
        | none, some (c, rest) => consChar c (linesBody q fuel rest)
        | none, none => none
      else if isStringChar c then consChar c (linesBody q fuel rest)
      else none
    | none, none, [] => none

/-- A string of several lines, behind the opening quotes. A line break right there is left out. -/
def linesString (q : Char) : Reader Value := fun cs =>
  (linesBody q (cs.length + 1) ((newline? cs).getD cs)).map fun (s, rest) =>
    (.string (String.ofList s), rest)

/-- A string in one line, behind the opening quote. -/
def lineString (q : Char) : Reader Value := fun cs =>
  (if q = '"' then quotedBody (cs.length + 1) cs else plainBody cs).map fun (s, rest) =>
    (.string (String.ofList s), rest)

/-- A string. -/
def string : Reader Value
  | a :: b :: c :: cs =>
    if a = b && b = c then linesString a cs else lineString a (b :: c :: cs)
  | a :: cs => lineString a cs
  | [] => none

/-- A value that begins with a sign or a digit. -/
def number : Reader Value := fun cs =>
  ((dateTime cs).or (finiteFloat cs)).or ((specialFloat cs).or (integer cs))

/-- A truth value. -/
def boolean : Reader Value
  | 't' :: 'r' :: 'u' :: 'e' :: cs => some (.boolean true, cs)
  | 'f' :: 'a' :: 'l' :: 's' :: 'e' :: cs => some (.boolean false, cs)
  | _ => none

end MinimumRelease.Toml
