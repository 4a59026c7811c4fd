/-!
# Paths

A path is kept as it is written, as the pieces between its slashes, because it shows up again in
messages and in the names of other files. An absolute path starts with an empty piece; elsewhere
empty pieces and single points stand for nothing.
-/

namespace ShaderEffect

structure Path where
  pieces : List String
  deriving Repr, DecidableEq

namespace Path

/-- The pieces of a text between slashes: the first one and those that follow. -/
def splitSlash : List Char → List Char × List (List Char)
  | [] => ([], [])
  | c :: cs =>
    let (piece, more) := splitSlash cs
    if c == '/' then ([], piece :: more) else (c :: piece, more)

def ofText (text : String) : Path :=
  let (piece, more) := splitSlash text.toList
  { pieces := (piece :: more).map String.ofList }

def text (p : Path) : String :=
  "/".intercalate p.pieces

def longest : Nat := 4095

def isTooLong (p : Path) : Bool :=
  longest < p.text.utf8ByteSize

def isAbsolute (p : Path) : Bool :=
  match p.pieces with
  | "" :: _ :: _ => true
  | _ => false

def join (p : Path) (name : String) : Path :=
  if p.pieces.getLast? == some "" then { pieces := p.pieces.dropLast ++ [name] }
  else { pieces := p.pieces ++ [name] }

def isIdle (piece : String) : Bool :=
  piece == "" || piece == "."

/-- Without the pieces at the end that stand for nothing. The first piece stays. -/
def trimPieces : List String → List String
  | [] => []
  | p :: ps => p :: (ps.reverse.dropWhile isIdle).reverse

def name? (p : Path) : Option String :=
  (trimPieces p.pieces).getLast?.filter fun piece => !isIdle piece && piece != ".."

/-- The path without its last name; of a single name the empty path. The root and the empty path
have none. -/
def parent? (p : Path) : Option Path :=
  match trimPieces p.pieces with
  | [] => none
  | [piece] => if piece == "" then none else some { pieces := [""] }
  | pieces =>
    let rest := trimPieces pieces.dropLast
    some { pieces := if rest == [""] then ["", ""] else rest }

/-- A name at its last point: what stands before it, and after it. A point at the start of a name
does not count. -/
def splitName (name : String) : String × Option String :=
  let after := name.toList.reverse.takeWhile (· != '.')
  let before := name.toList.reverse.drop (after.length + 1)
  if before.isEmpty then (name, none)
  else (String.ofList before.reverse, some (String.ofList after.reverse))

def stem? (p : Path) : Option String :=
  p.name?.map fun name => (splitName name).1

def extension? (p : Path) : Option String :=
  p.name?.bind fun name => (splitName name).2

end Path

end ShaderEffect
