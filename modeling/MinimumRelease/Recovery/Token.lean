import MinimumRelease.Text.Bytes

/-!
# Tokens of Java text

A text that does not parse has no syntax tree, but it still splits into tokens. Only as much is
told apart as moving code around needs: words, single marks, and the stretches of literals and
comments, whose content is never code. Blank stretches are tokens too, so that the tokens of a
text, joined again, are the text (`join_tokens`).
-/

namespace MinimumRelease.Recovery

/-- What a stretch of text is. -/
inductive Token.Kind where
  /-- Spaces, tabs, form feeds and line breaks. -/
  | blank
  /-- An identifier, a keyword or a number. -/
  | word
  /-- Any other single character. -/
  | mark
  /-- A string, text block or character literal, quotes included. -/
  | literal
  | comment
deriving DecidableEq

/-- A stretch of text and what it is. -/
structure Token where
  kind : Token.Kind
  text : List Char
deriving DecidableEq

/-- The five characters that separate tokens. -/
def isSpace (c : Char) : Bool :=
  c = ' ' || c = '\t' || c = '\n' || c = '\x0c' || c = '\r'

/-- Letters, digits, underscore, dollar sign and every character outside ASCII make words. -/
def isWordChar (c : Char) : Bool :=
  c.isAlphanum || c = '_' || c = '$' || 0x80 ≤ c.toNat

namespace Token

/-- Characters of a block comment behind its opening, through the first `*/` or to the end. -/
def blockCommentLength : List Char → Nat
  | [] => 0
  | '*' :: '/' :: _ => 2
  | _ :: cs => blockCommentLength cs + 1

/-- Characters of a text block behind its opening quotes, through the closing ones or to the end.
A backslash takes the next character along. -/
def textBlockLength : List Char → Nat
  | [] => 0
  | ['\\'] => 1
  | '\\' :: _ :: cs => textBlockLength cs + 2
  | '"' :: '"' :: '"' :: _ => 3
  | _ :: cs => textBlockLength cs + 1

/-- Characters of a quoted literal behind its opening quote. It ends with the quote, before a line
feed, or with the text. A backslash takes the next character along, a line feed too. -/
def quotedLength (quote : Char) : List Char → Nat
  | [] => 0
  | ['\\'] => 1
  | '\\' :: _ :: cs => quotedLength quote cs + 2
  | c :: cs => if c = '\n' then 0 else if c = quote then 1 else quotedLength quote cs + 1

/-- Length of the longest beginning all of whose characters satisfy `p`. -/
def runLength (p : Char → Bool) (cs : List Char) : Nat := (cs.takeWhile p).length

/-- The kind of the token that begins with `c` before `cs`, and how many characters of `cs` belong
to it. -/
def extent (c : Char) (cs : List Char) : Kind × Nat :=
  if isSpace c then (.blank, runLength isSpace cs)
  else
    match c, cs with
    | '/', '/' :: _ => (.comment, runLength (· ≠ '\n') cs)
    | '/', '*' :: rest => (.comment, blockCommentLength rest + 1)
    | '"', '"' :: '"' :: rest => (.literal, textBlockLength rest + 2)
    | _, _ =>
      if c = '"' || c = '\x27' then (.literal, quotedLength c cs)
      else if isWordChar c then (.word, runLength isWordChar cs)
      else (.mark, 0)

/-- The character of a mark. -/
def mark? (t : Token) : Option Char :=
  if t.kind = .mark then t.text.head? else none

/-- The text of a word. -/
def word? (t : Token) : Option (List Char) :=
  if t.kind = .word then some t.text else none

/-- Blanks and comments separate tokens and say nothing else. -/
def isTrivia (t : Token) : Bool := t.kind = .blank || t.kind = .comment

/-- The content of literals and comments is not code. -/
def isCovered (t : Token) : Bool := t.kind = .literal || t.kind = .comment

/-- The text of consecutive tokens. -/
def join (ts : List Token) : List Char := ts.flatMap (·.text)

end Token

/-- The tokens of a text, blanks and comments included. -/
def tokens : List Char → List Token
  | [] => []
  | c :: cs =>
    let (kind, n) := Token.extent c cs
    ⟨kind, c :: cs.take n⟩ :: tokens (cs.drop n)
termination_by cs => cs.length
decreasing_by simp only [List.length_drop, List.length_cons]; omega

/-- Byte ranges of the literals and comments among tokens that begin at `offset`, in order. -/
def coveredRanges (offset : Nat) : List Token → List (Nat × Nat)
  | [] => []
  | t :: ts =>
    let stop := offset + Text.byteLength t.text
    if t.isCovered then (offset, stop) :: coveredRanges stop ts else coveredRanges stop ts

/-- Whether byte `p` lies in one of the ascending, disjoint `ranges`. The first range that ends
behind `p` decides. -/
def inRanges (ranges : List (Nat × Nat)) (p : Nat) : Bool :=
  match ranges.dropWhile (fun r => r.2 ≤ p) with
  | [] => false
  | r :: _ => r.1 ≤ p && p < r.2

/-- No character is lost between tokens. -/
theorem join_tokens (cs : List Char) : Token.join (tokens cs) = cs := by
  fun_induction tokens cs with
  | case1 => rfl
  | case2 c cs kind n _ ih =>
    simp only [Token.join, List.flatMap_cons] at ih ⊢
    rw [ih, List.cons_append, List.take_append_drop]

/-- No token is empty. -/
theorem text_ne_nil_of_mem_tokens {cs : List Char} {t : Token} (h : t ∈ tokens cs) :
    t.text ≠ [] := by
  fun_induction tokens cs with
  | case1 => simp at h
  | case2 c cs kind n _ ih =>
    rcases List.mem_cons.1 h with rfl | h
    · simp
    · exact ih h

end MinimumRelease.Recovery
