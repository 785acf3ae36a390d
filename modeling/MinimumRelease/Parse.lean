import MinimumRelease.Grammar.Profile

/-!
# Parsing

The grammar of Java itself is not part of this library: a parser is handed in that turns a text
into a tree. What is decided here is whether that tree is usable. A tree with faults is not, nor
one that is too deep, nor one that holds a construct which the grammar profile in use refuses.
They are looked for in this order.
-/

namespace MinimumRelease

/-- Why a parser has no tree for a text. -/
inductive ParserFault where
  /-- The parser could not be set up. -/
  | setup (message : String)
  | noTree

/-- The parse error that a parser's fault amounts to. -/
def ParserFault.toError : ParserFault → ParseError
  | .setup message => .setup message
  | .noTree => .noTree

/-- A parser of Java. It makes a tree of any text, if with faults in it. -/
abbrev Parser := String → Except ParserFault Node

/-- How many faults a tree has, and the line of the first. -/
structure Faults where
  count : Nat
  firstLine? : Option Nat

/-- Counts the faults of a tree in document order. -/
def SyntaxTree.faults (t : SyntaxTree) : Faults :=
  t.root.foldSites
    (fun f s =>
      if s.node.isFault then ⟨f.count + 1, f.firstLine?.or (some (t.lineOf s.node))⟩ else f)
    ⟨0, none⟩

/-- Start offsets of the `yield` statements of a tree, in document order. -/
def SyntaxTree.yieldStarts (t : SyntaxTree) : List Nat :=
  t.root.foldSites
    (fun starts s => if s.kind = "yield_statement" then starts ++ [s.node.start] else starts) []

namespace Parser

/-- Parses a text by the full grammar. A tree with faults, or with a node deeper than `maxDepth`,
is an error. -/
def parseTree (parser : Parser) (maxDepth : Nat) (source : String) :
    Except ParseError SyntaxTree :=
  match parser source with
  | .error fault => .error fault.toError
  | .ok root =>
    let t : SyntaxTree := ⟨source, root⟩
    let faults := t.faults
    if 0 < faults.count then .error (.malformed faults.count (faults.firstLine?.getD 1))
    else
      match (root.walk (some maxDepth) (fun _ _ => .yield ()) ()).2 with
      | .tooDeep limit => .error (.tooDeep limit)
      | _ => .ok t

/-- Parses a text as a parser for the profile's release would: a construct that the profile
refuses is an error too. -/
def parse (parser : Parser) (maxDepth : Nat) (profile : Profile) (source : String) :
    Except ParseError SyntaxTree :=
  match parser.parseTree maxDepth source with
  | .error e => .error e
  | .ok t =>
    match profile.firstRejection? t with
    | some c => .error (.refused c profile.release)
    | none => .ok t

end Parser

end MinimumRelease
