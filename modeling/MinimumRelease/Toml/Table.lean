import MinimumRelease.Toml.Value

/-!
# Building a table

A document is a sequence of statements: a header opens a table, and an entry puts a value into the
table that is open. No key may be defined twice, and no table may be opened twice. A dotted key
reaches through tables that dotted keys have made; a header reaches through any table, and into the
last of several tables.
-/

namespace MinimumRelease.Toml

/-- A line of a document that says something. -/
inductive Statement where
  /-- `front.key = value` -/
  | entry (front : List String) (key : String) (value : Value)
  /-- `[front.key]` -/
  | header (front : List String) (key : String)
  /-- `[[front.key]]` -/
  | element (front : List String) (key : String)

/-- The table that is open: its path from the document. -/
abbrev Path := List String

namespace Entries

/-- Replaces the entries of the table that `path` reaches from here by what `change` makes of them,
and gives it the origin of that table as well. Tables on the way that do not exist are made, by a
dotted key or in passing. `none` where the path does not lead through tables, or where a dotted key
meets a table with a header of its own. -/
def reach (byKey : Bool) (change : Origin → Entries → Option Entries) :
    (path : Path) → (origin : Origin) → Entries → Option Entries
  | [], origin, entries => change origin entries
  | key :: path, _, entries =>
    let made : Origin := if byKey then .dotted else .passed
    match entries.get? key with
    | none => (reach byKey change path made []).map fun t => entries.put key (.table made t)
    | some (.table origin t) =>
      if origin = .inline || (byKey && origin = .header) then none
      else (reach byKey change path origin t).map fun t => entries.put key (.table origin t)
    | some (.tables ts) =>
      match ts.getLast? with
      | none => none
      | some t =>
        (reach byKey change path .header t).map fun t =>
          entries.put key (.tables (ts.dropLast ++ [t]))
    | some _ => none

/-- Puts a value under a new key. -/
def define (key : String) (v : Value) (entries : Entries) : Option Entries :=
  match entries.get? key with
  | some _ => none
  | none => some (entries.put key v)

/-- Adds an entry with a dotted key. The table that the front part reaches must have been made by a
dotted key, unless there is no front part. -/
def addEntry (front : List String) (key : String) (v : Value) (entries : Entries) :
    Option Entries :=
  match front with
  | [] => entries.define key v
  | _ :: _ =>
    entries.reach true (fun origin t => if origin = .dotted then t.define key v else none) front
      .header

/-- Opens the table of a header. It must be new, or only passed through so far. -/
def openTable (front : List String) (key : String) (entries : Entries) : Option Entries :=
  entries.reach false
    (fun _ t =>
      match t.get? key with
      | none => some (t.put key (.table .header []))
      | some (.table .passed inner) => some (t.put key (.table .header inner))
      | some _ => none)
    front .header

/-- Opens one more table of several. -/
def openElement (front : List String) (key : String) (entries : Entries) : Option Entries :=
  entries.reach false
    (fun _ t =>
      match t.get? key with
      | none => some (t.put key (.tables [[]]))
      | some (.tables ts) => some (t.put key (.tables (ts ++ [[]])))
      | some _ => none)
    front .header

/-- The table of a document after one more statement, and the table that is open then. -/
def add (opened : Path) (entries : Entries) : Statement → Option (Path × Entries)
  | .entry front key v =>
    (entries.reach false (fun _ t => t.addEntry front key v) opened .header).map (opened, ·)
  | .header front key => (entries.openTable front key).map (front ++ [key], ·)
  | .element front key => (entries.openElement front key).map (front ++ [key], ·)

/-- The table that several statements build. -/
def addAll (opened : Path) (entries : Entries) : List Statement → Option Entries
  | [] => some entries
  | s :: rest =>
    match add opened entries s with
    | none => none
    | some (opened, entries) => addAll opened entries rest

/-- The table of a document. -/
def ofStatements (statements : List Statement) : Option Entries := addAll [] [] statements

/-- The table that entries in braces build. -/
def ofInline (pairs : List (List String × String × Value)) : Option Entries :=
  ofStatements (pairs.map fun (front, key, v) => .entry front key v)

end Entries

end MinimumRelease.Toml
