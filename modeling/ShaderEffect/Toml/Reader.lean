import ShaderEffect.Toml.Scalar

/-!
# Reading TOML

A text is a sequence of lines: blank ones, headers of tables, and keys with values. Arrays may go
over several lines, tables that are written inline may not. Arrays and inline tables may be nested
79 deep, and a dotted key has at most 79 parts.
-/

namespace ShaderEffect

namespace TomlReader

def skip (cs : List Char) : List Char :=
  cs.dropWhile isSpace

def skipComment : List Char → List Char
  | '#' :: cs => cs.dropWhile isPlain
  | cs => cs

/-- The text after the end of a line, which may hold a comment. -/
def afterLine (cs : List Char) : Option (List Char) :=
  match skipComment (skip cs) with
  | [] => some []
  | cs => afterBreak cs

/-- The text after blanks, comments and line breaks. Every round takes a character; there is fuel
for all. -/
def skipLines : Nat → List Char → List Char
  | 0, cs => cs
  | fuel + 1, cs =>
    let rest := skipComment (skip cs)
    match afterBreak rest with
    | some rest => skipLines fuel rest
    | none => rest

/-! ## Keys -/

def isKeyChar (c : Char) : Bool :=
  c.isAlphanum || c == '_' || c == '-'

def keyPart : TomlReader String := fun cs =>
  match cs with
  | [] => none
  | c :: _ =>
    if c == '"' || c == apostrophe then shortString cs
    else
      let name := cs.takeWhile isKeyChar
      if name.isEmpty then none else some (String.ofList name, cs.dropWhile isKeyChar)

def keyParts : Nat → TomlReader (List String)
  | 0, _ => none
  | fuel + 1, cs => do
    let (part, cs) ← keyPart (skip cs)
    match skip cs with
    | '.' :: rest =>
      let (parts, rest) ← keyParts fuel rest
      some (part :: parts, rest)
    | rest => some ([part], rest)

structure Key where
  path : List String
  last : String
  deriving Repr

def key : TomlReader Key := fun cs => do
  let (parts, rest) ← keyParts 79 cs
  let last ← parts.getLast?
  some ({ path := parts.dropLast, last := last }, rest)

/-! ## Values -/

def items (value : TomlReader Toml) : Nat → TomlReader (List Toml)
  | 0, _ => none
  | fuel + 1, cs =>
    match skipLines (cs.length + 1) cs with
    | ']' :: rest => some ([], rest)
    | cs => do
      let (v, cs) ← value cs
      match skipLines (cs.length + 1) cs with
      | ',' :: rest =>
        let (vs, rest) ← items value fuel rest
        some (v :: vs, rest)
      | ']' :: rest => some ([v], rest)
      | _ => none

def keyValue (value : TomlReader Toml) : TomlReader (Key × Toml) := fun cs => do
  let (k, cs) ← key cs
  let cs ← mark '=' cs
  let (v, cs) ← value (skip cs)
  some ((k, v), cs)

def entries (value : TomlReader Toml) : Nat → Toml.Entries → TomlReader Toml.Entries
  | 0, _, _ => none
  | fuel + 1, found, cs => do
    let ((k, v), cs) ← keyValue value cs
    let found ← Toml.Entries.put k.last v true k.path found
    match skip cs with
    | ',' :: rest => entries value fuel found rest
    | '\x7d' :: rest => some (found, rest)
    | _ => none

def inlineTable (value : TomlReader Toml) : TomlReader Toml.Entries := fun cs =>
  match skip cs with
  | '\x7d' :: rest => some ([], rest)
  | cs => entries value (cs.length + 1) [] cs

def value : Nat → TomlReader Toml
  | 0, cs => scalar cs
  | depth + 1, cs =>
    match cs with
    | '[' :: rest =>
      (items (value depth) (rest.length + 1) rest).map fun r => (.array r.1, r.2)
    | '\x7b' :: rest =>
      (inlineTable (value depth) rest).map fun r => (.table .inline r.1, r.2)
    | cs => scalar cs

/-! ## Lines -/

structure Document where
  root : Toml.Entries
  current : List String
  deriving Repr

def tableHeader (d : Document) : TomlReader Document := fun cs => do
  let (k, cs) ← key cs
  let cs ← mark ']' cs
  let root ← d.root.change (Toml.Entries.openTable k.last) k.path
  some ({ root := root, current := k.path ++ [k.last] }, cs)

def itemHeader (d : Document) : TomlReader Document := fun cs => do
  let (k, cs) ← key cs
  let cs ← mark ']' cs
  let cs ← mark ']' cs
  let root ← d.root.change (Toml.Entries.openItem k.last) k.path
  some ({ root := root, current := k.path ++ [k.last] }, cs)

def keyLine (d : Document) : TomlReader Document := fun cs => do
  let ((k, v), cs) ← keyValue (value 79) cs
  let root ← d.root.change (Toml.Entries.put k.last v true k.path) d.current
  some ({ d with root := root }, cs)

def line (d : Document) : TomlReader Document := fun cs => do
  let (d, cs) ← match cs with
    | '[' :: '[' :: rest => itemHeader d rest
    | '[' :: rest => tableHeader d rest
    | cs => keyLine d cs
  let cs ← afterLine cs
  some (d, cs)

/-- Reads all lines. Every line takes a character; there is fuel for all. -/
def lines : Nat → Document → List Char → Option Document
  | 0, _, _ => none
  | fuel + 1, d, cs =>
    match skip cs with
    | [] => some d
    | c :: rest =>
      if c == '#' || c == '\n' || c == '\r' then
        match afterLine (c :: rest) with
        | some cs => lines fuel d cs
        | none => none
      else
        match line d (c :: rest) with
        | some (d, cs) => lines fuel d cs
        | none => none

end TomlReader

namespace Toml

def withoutMark : List Char → List Char
  | c :: cs => if c.toNat == 0xFEFF then cs else c :: cs
  | [] => []

/-- Reads a TOML text. One that is not well-formed has no entries. -/
def parse (text : String) : Option Entries :=
  let cs := withoutMark text.toList
  (TomlReader.lines (cs.length + 1) { root := [], current := [] } cs).map
    TomlReader.Document.root

end Toml

end ShaderEffect
