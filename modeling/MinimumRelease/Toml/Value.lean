/-!
# TOML values and tables

A document is a table of values. Tables come into being in four ways, and which way decides
whether a later part of the document may still add to them: a table in braces is complete, a table
with a header of its own takes no dotted keys from elsewhere, and a table that was only passed
through on the way to another one may still get its own header.
-/

namespace MinimumRelease.Toml

/-- How a table came into being. -/
inductive Origin where
  /-- Written in braces. It is complete. -/
  | inline
  /-- Has a header of its own, or is the document itself. -/
  | header
  /-- Only named on the way to the table of some header. -/
  | passed
  /-- Named by the front part of a dotted key. -/
  | dotted
deriving DecidableEq

/-- A value. Floats and dates are kept as they are written. -/
inductive Value where
  | string (s : String)
  | integer (n : Int)
  | float (literal : String)
  | boolean (b : Bool)
  | dateTime (literal : String)
  | array (elements : List Value)
  | table (origin : Origin) (entries : List (String × Value))
  /-- Tables that were added one by one, by headers in double brackets. -/
  | tables (elements : List (List (String × Value)))

/-- The entries of a table, in order of first mention. -/
abbrev Entries := List (String × Value)

namespace Entries

/-- The value under a key. -/
def get? (entries : Entries) (key : String) : Option Value := entries.lookup key

/-- Puts a value under a key, in the place of the value that was there. -/
def put (key : String) (v : Value) : Entries → Entries
  | [] => [(key, v)]
  | (k, w) :: rest => if k = key then (k, v) :: rest else (k, w) :: put key v rest

end Entries

end MinimumRelease.Toml
