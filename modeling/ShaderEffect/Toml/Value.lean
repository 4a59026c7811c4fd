/-!
# TOML values

A table remembers how it came to be, because this decides what may be added to it: one with a header
of its own, one that only the header of a table inside it implies, one made by a dotted key, or one
written inline.
-/

namespace ShaderEffect

inductive TableOrigin where
  | header
  | implied
  | dotted
  | inline
  deriving Repr, DecidableEq

inductive Toml where
  | string (s : String)
  | integer (v : Int)
  | real (text : String)
  | boolean (b : Bool)
  | moment (text : String)
  | array (items : List Toml)
  | table (origin : TableOrigin) (entries : List (String × Toml))
  | tables (items : List (List (String × Toml)))
  deriving Repr

namespace Toml

abbrev Entries := List (String × Toml)

namespace Entries

def has (es : Entries) (key : String) : Bool :=
  (es.lookup key).isSome

def replace (key : String) (v : Toml) (es : Entries) : Entries :=
  es.map fun e => if e.1 == key then (key, v) else e

/-- Adds a value at a dotted key, unless its last part is there. The tables on the way are made if
they are missing. Neither a table with a header nor an inline one may be entered, and the table in
which the value ends up must be made by dotted keys, which `fits` tells of the current one. -/
def put (key : String) (v : Toml) : Bool → List String → Entries → Option Entries
  | fits, [], es => if fits && !es.has key then some (es ++ [(key, v)]) else none
  | _, p :: ps, es =>
    match es.lookup p with
    | none => (put key v true ps []).map fun inner => es ++ [(p, .table .dotted inner)]
    | some (.table .dotted inner) =>
      (put key v true ps inner).map fun inner => es.replace p (.table .dotted inner)
    | some (.table .implied inner) =>
      (put key v false ps inner).map fun inner => es.replace p (.table .implied inner)
    | some (.tables items) =>
      (put key v false ps (items.getLastD [])).map fun inner =>
        es.replace p (.tables (items.dropLast ++ [inner]))
    | some _ => none

/-- Changes the entries of the table with the given path. The tables on the way are implied if they
are missing; of an array of tables the last one counts. -/
def change (f : Entries → Option Entries) : List String → Entries → Option Entries
  | [], es => f es
  | p :: ps, es =>
    match es.lookup p with
    | none => (change f ps []).map fun inner => es ++ [(p, .table .implied inner)]
    | some (.table .inline _) => none
    | some (.table origin inner) =>
      (change f ps inner).map fun inner => es.replace p (.table origin inner)
    | some (.tables items) =>
      (change f ps (items.getLastD [])).map fun inner =>
        es.replace p (.tables (items.dropLast ++ [inner]))
    | some _ => none

/-- Starts the table of a header: a new one, or one that was only implied. -/
def openTable (key : String) (es : Entries) : Option Entries :=
  match es.lookup key with
  | none => some (es ++ [(key, .table .header [])])
  | some (.table .implied inner) => some (es.replace key (.table .header inner))
  | some _ => none

def openItem (key : String) (es : Entries) : Option Entries :=
  match es.lookup key with
  | none => some (es ++ [(key, .tables [[]])])
  | some (.tables items) => some (es.replace key (.tables (items ++ [[]])))
  | some _ => none

end Entries

end Toml

end ShaderEffect
