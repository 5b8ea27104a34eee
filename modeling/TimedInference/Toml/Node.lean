/-!
# TOML documents

A document is a table: a list of keys with nodes. Statements add to it one after the other. A key with
dots opens the tables on its way, and so does a header; what one of them has opened, the other may
enter only within limits, so that no table is defined twice.
-/

namespace TimedInference.Toml

/-- How a table came to be. -/
inductive Origin where
  /-- Its header was written. -/
  | header
  /-- The header of a table below it was written. -/
  | above
  /-- A key with dots led through it. -/
  | dotted
  deriving DecidableEq

/-- A value or a table of a document. Floating point numbers and dates carry no value. -/
inductive Node where
  | string (value : String)
  | integer (value : Int)
  | boolean (value : Bool)
  | float
  | date
  | array (elements : List Node)
  /-- A table written as a value; nothing can be added to it. -/
  | inlineTable (members : List (String × Node))
  | table (origin : Origin) (members : List (String × Node))
  /-- Tables under one key, each with a header of its own. -/
  | tables (elements : List (List (String × Node)))
  deriving Inhabited

/-- The members of a table. -/
abbrev Members := List (String × Node)

namespace Members

/-- The node of a key. -/
def get? (m : Members) (key : String) : Option Node := m.lookup key

/-- The members with the node of a key made anew from what it was. -/
def alter (key : String) (f : Option Node → Option Node) : Members → Option Members
  | [] => (f none).map fun n => [(key, n)]
  | (k, n) :: rest =>
    if k = key then (f (some n)).map fun n => (k, n) :: rest
    else (alter key f rest).map fun rest => (k, n) :: rest

/-- A list with its last element made anew. -/
def alterLast {α : Type} (f : α → Option α) : List α → Option (List α)
  | [] => none
  | [a] => (f a).map fun a => [a]
  | a :: as => (alterLast f as).map fun as => a :: as

/-- Adds a value under a key with dots. Its last table must have been opened by keys with dots only,
the others by no header of their own. -/
def assign (value : Node) : List String → Members → Option Members
  | [], _ => none
  | [key], m => m.alter key fun
    | none => some value
    | some _ => none
  | key :: rest, m => m.alter key fun
    | none => (assign value rest []).map (.table .dotted)
    | some (.table origin inner) =>
      if origin = .dotted ∨ (origin = .above ∧ rest.length > 1) then
        (assign value rest inner).map (.table origin)
      else none
    | some (.tables elements) =>
      if rest.length > 1 then (alterLast (assign value rest) elements).map .tables else none
    | _ => none

/-- Changes the table that a header leads to, opening tables on the way. Of several tables under one
key it leads to the last. -/
def within (f : Members → Option Members) : List String → Members → Option Members
  | [], m => f m
  | key :: rest, m => m.alter key fun
    | none => (within f rest []).map (.table .above)
    | some (.table origin inner) => (within f rest inner).map (.table origin)
    | some (.tables elements) => (alterLast (within f rest) elements).map .tables
    | _ => none

/-- Defines the table of a header, which may have been opened by headers below it only. -/
def define (header : List String) (m : Members) : Option Members :=
  within (fun m => m.alter (header.getLastD "") fun
    | none => some (.table .header [])
    | some (.table .above inner) => some (.table .header inner)
    | _ => none) header.dropLast m

/-- Adds a table to those under the key of a header. -/
def extend (header : List String) (m : Members) : Option Members :=
  within (fun m => m.alter (header.getLastD "") fun
    | none => some (.tables [[]])
    | some (.tables elements) => some (.tables (elements ++ [[]]))
    | _ => none) header.dropLast m

end Members

/-- A statement of a document. -/
inductive Statement where
  /-- A value under a key with dots. -/
  | assign (key : List String) (value : Node)
  /-- The header of a table. -/
  | table (header : List String)
  /-- The header of one of several tables under one key. -/
  | element (header : List String)

/-- The members of a document with statements, given the header that applies to them. -/
def build : List Statement → List String → Members → Option Members
  | [], _, m => some m
  | .assign key value :: rest, header, m => do
    build rest header (← m.within (Members.assign value key) header)
  | .table header :: rest, _, m => do build rest header (← m.define header)
  | .element header :: rest, _, m => do build rest header (← m.extend header)

end TimedInference.Toml
