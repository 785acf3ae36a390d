/-!
# Dotted names

Names of packages and types are segments joined by dots. Any text is such a name: it splits into
one segment more than it has dots, and segments may be empty.
-/

namespace MinimumRelease.Text

/-- The segments of a dotted name. There is always at least one. -/
def segments : List Char → List (List Char)
  | [] => [[]]
  | c :: cs =>
    match segments cs with
    | [] => [[c]]
    | s :: ss => if c = '.' then [] :: s :: ss else (c :: s) :: ss

/-- The part of a name before its first dot. -/
def firstSegment (name : List Char) : List Char := name.takeWhile (· ≠ '.')

/-- The part of a name behind its last dot. -/
def lastSegment (name : List Char) : List Char := (name.reverse.takeWhile (· ≠ '.')).reverse

/-- The part of a name before each of its dots, shortest first, and then the whole name. -/
def dottedLeads : List Char → List (List Char)
  | [] => [[]]
  | c :: cs =>
    if c = '.' then [] :: (dottedLeads cs).map (c :: ·) else (dottedLeads cs).map (c :: ·)

/-- What follows `lead` in a text that begins with it. -/
def after? : (lead text : List Char) → Option (List Char)
  | [], text => some text
  | _ :: _, [] => none
  | c :: lead, d :: text => if c = d then after? lead text else none

/-- Whether a text is empty or begins with one of `marks`. -/
def endsOrMeets (marks : List Char) : List Char → Bool
  | [] => true
  | c :: _ => c ∈ marks

theorem after?_eq_some_iff {lead text rest : List Char} :
    after? lead text = some rest ↔ text = lead ++ rest := by
  induction lead generalizing text with
  | nil => simp [after?, eq_comm]
  | cons c lead ih =>
    cases text with
    | nil => simp [after?]
    | cons d text =>
      by_cases h : c = d
      · subst h; simp [after?, ih]
      · simp [after?, h]; intro h'; exact absurd h'.symm h

end MinimumRelease.Text
