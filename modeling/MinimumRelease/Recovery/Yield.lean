import MinimumRelease.Recovery.Token
import MinimumRelease.Text.Blank
import MinimumRelease.Text.Dotted

/-!
# Substituting `yield`

A `yield` statement becomes a `return` statement, which every grammar accepts. Where the word
stands at the start of a statement and something other than an assignment or a member access
follows, it is only proposed: `yield` is also a valid name of a variable. Whoever applies the
substitution says which proposals are statements.
-/

namespace MinimumRelease.Recovery

/-- The word that is replaced. -/
def yieldKeyword : List Char := "yield".toList

/-- The word that replaces it. -/
def returnKeyword : List Char := "return".toList

/-- A place where the text looks like a `yield` statement. -/
structure Proposal where
  /-- Byte offset of the keyword. -/
  offset : Nat
  /-- The text from the first character behind the blanks that follow the keyword. -/
  operand : List Char

/-- The proposal in a text that begins where a statement may begin, at byte `offset`: blanks,
the keyword, at least one blank, and a character that is neither `=` nor `.`. -/
def proposalAt? (offset : Nat) (cs : List Char) : Option Proposal :=
  match Text.after? yieldKeyword (cs.dropWhile Text.isBlank) with
  | none => none
  | some gap =>
    match gap.takeWhile Text.isBlank, gap.dropWhile Text.isBlank with
    | _ :: _, c :: rest =>
      if c = '=' || c = '.' then none
      else some ⟨offset + Text.byteLength (cs.takeWhile Text.isBlank), c :: rest⟩
    | _, _ => none

/-- The proposal that begins right here: at the start of a line, or behind one of `;`, `{`, `}`
and `:`. -/
def proposalHere? (lineStart : Bool) (offset : Nat) (c : Char) (cs : List Char) :
    Option Proposal :=
  match if lineStart then proposalAt? offset (c :: cs) else none with
  | some p => some p
  | none => if c ∈ [';', '{', '}', ':'] then proposalAt? (offset + 1) cs else none

/-- The proposals of a text that begins at byte `offset`, leftmost first and without overlaps: the
search goes on behind the first character of the operand. The next `skip` characters belong to the
last proposal. -/
def proposals (lineStart : Bool) (offset skip : Nat) : List Char → List Proposal
  | [] => []
  | c :: cs =>
    match skip with
    | skip + 1 => proposals (c = '\n') (offset + c.utf8Size) skip cs
    | 0 =>
      match proposalHere? lineStart offset c cs with
      | some p =>
        p :: proposals (c = '\n') (offset + c.utf8Size) (cs.length + 1 - p.operand.length) cs
      | none => proposals (c = '\n') (offset + c.utf8Size) 0 cs

/-- Whether a text begins with a compound assignment such as `+=`. Shifts are not told apart from
comparisons. -/
def beginsAssignment : List Char → Bool
  | c :: '=' :: _ => c ∈ ['+', '-', '*', '/', '%', '&', '|', '^']
  | _ => false

/-- Byte offsets of the proposed keywords outside literals and comments that do not begin a
compound assignment. -/
def yieldCandidates (source : String) : List Nat :=
  let cs := source.toList
  let covered := coveredRanges 0 (tokens cs)
  ((proposals true 0 0 cs).filter fun p =>
    !inRanges covered p.offset && !beginsAssignment p.operand).map (·.offset)

/-- Replaces the keyword at each of the byte offsets `places` in a text that begins at byte
`offset`. The next `skip` characters belong to a keyword that was replaced. -/
def replaceKeywords (places : List Nat) (offset skip : Nat) : List Char → List Char
  | [] => []
  | c :: cs =>
    match skip with
    | skip + 1 => replaceKeywords places (offset + c.utf8Size) skip cs
    | 0 =>
      if places.contains offset then
        returnKeyword ++
          replaceKeywords places (offset + c.utf8Size) (yieldKeyword.length - 1) cs
      else c :: replaceKeywords places (offset + c.utf8Size) 0 cs

/-- A text after substitution, and the byte offsets of the keywords that were replaced. -/
structure Substitution where
  text : String
  offsets : List Nat

namespace Substitution

/-- Number of keywords that were replaced. -/
def count (s : Substitution) : Nat := s.offsets.length

/-- Whether any keyword was replaced. -/
def changed (s : Substitution) : Bool := 0 < s.count

end Substitution

/-- Replaces the candidates that `keep` accepts. -/
def substituteYield (source : String) (keep : Nat → Bool) : Substitution :=
  let places := (yieldCandidates source).filter keep
  ⟨String.ofList (replaceKeywords places 0 0 source.toList), places⟩

end MinimumRelease.Recovery
