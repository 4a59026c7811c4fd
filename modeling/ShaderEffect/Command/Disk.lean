import ShaderEffect.Command.Files
import ShaderEffect.Command.FileTree

/-!
# Disks

A disk is a tree of files with a working directory, from which relative paths lead on. Names and
paths that are too long lead nowhere.
-/

namespace ShaderEffect

/-- A tree of files, and the place of the working directory in it. -/
structure Disk where
  root : FileTree := .directory []
  home : Place := []
  deriving Repr

/-- Where a path has led so far: what is there, and the names on the way with the directories that
hold them, the last one first. -/
structure Spot where
  here : Option FileTree
  trail : List (String × FileTree) := []
  deriving Repr

namespace Spot

def place (s : Spot) : Place :=
  (s.trail.map Prod.fst).reverse

/-- The directory above. The root has itself above it. -/
def up (s : Spot) : Spot :=
  match s.trail with
  | [] => s
  | (_, parent) :: trail => { here := some parent, trail := trail }

def down (s : Spot) (directory : FileTree) (name : String) : Spot :=
  { here := directory.entries.lookup name, trail := (name, directory) :: s.trail }

def longestName : Nat := 255

/-- The spot where pieces of a path lead, one by one. All but the last piece must lead to
directories, and at the last one nothing need be. -/
def walk (s : Spot) : List String → Except FileError Spot
  | [] => .ok s
  | piece :: rest =>
    match s.here with
    | none => .error .notFound
    | some (.file _) => .error .notADirectory
    | some (.directory es) =>
      if Path.isIdle piece then s.walk rest
      else if piece == ".." then s.up.walk rest
      else if longestName < piece.utf8ByteSize then .error .nameTooLong
      else (s.down (.directory es) piece).walk rest

end Spot

namespace Disk

def ofFiles (home : Place) (files : List (Place × String)) : Disk :=
  { root := FileTree.put
      (files.foldl (fun t f => FileTree.put (.file f.2) f.1 t) (.directory [])) home (.directory [])
    home := home }

/-- The spot where the given pieces of a path lead, from the root or from the working directory. The
empty path leads nowhere. -/
def spotOf (d : Disk) (path : Path) (pieces : List String) : Except FileError Spot :=
  let root : Spot := { here := some d.root }
  if path.isTooLong then .error .nameTooLong
  else if path.text == "" then .error .notFound
  else if path.isAbsolute then root.walk pieces
  else (root.walk d.home).bind fun home => home.walk pieces

def spot (d : Disk) (path : Path) : Except FileError Spot :=
  d.spotOf path path.pieces

def put (d : Disk) (place : Place) (t : FileTree) : Disk :=
  { d with root := FileTree.put t place d.root }

def read (d : Disk) (path : Path) : Except FileError String :=
  match d.spot path with
  | .error e => .error e
  | .ok s =>
    match s.here with
    | some (.file text) => .ok text
    | some (.directory _) => .error .isADirectory
    | none => .error .notFound

def write (d : Disk) (path : Path) (text : String) : Except FileError Disk :=
  match d.spot path with
  | .error e => .error e
  | .ok s =>
    if s.here.any FileTree.isDirectory then .error .isADirectory
    else .ok (d.put s.place (.file text))

/-- The disk after a directory is made. Slashes at the end of its path do not matter. -/
def makeDirectory (d : Disk) (path : Path) : Except FileError Disk :=
  match d.spotOf path (path.pieces.reverse.dropWhile (· == "")).reverse with
  | .error e => .error e
  | .ok s =>
    if s.here.isSome then .error .alreadyThere else .ok (d.put s.place (.directory []))

def isDirectory (d : Disk) (path : Path) : Bool :=
  match d.spot path with
  | .ok s => s.here.any FileTree.isDirectory
  | .error _ => false

def isThere (d : Disk) (path : Path) : Bool :=
  match d.spot path with
  | .ok s => s.here.isSome
  | .error _ => false

def names (d : Disk) (path : Path) : Except FileError (List String) :=
  match d.spot path with
  | .error e => .error e
  | .ok s =>
    match s.here with
    | some (.directory es) => .ok (es.map Prod.fst)
    | some (.file _) => .error .notADirectory
    | none => .error .notFound

def change (f : Disk → Except FileError Disk) : StateM Disk (Except FileError Unit) := fun d =>
  match f d with
  | .ok d' => (.ok (), d')
  | .error e => (.error e, d)

def access : FileAccess (StateM Disk) where
  read path := fun d => (d.read path, d)
  write path text := change fun d => d.write path text
  makeDirectory path := change fun d => d.makeDirectory path
  isThere path := fun d => (d.isThere path, d)
  isDirectory path := fun d => (d.isDirectory path, d)
  names path := fun d => (d.names path, d)

/-- The files in and below the working directory that another disk lacks, or holds with another
text, as they are named from the working directory. -/
def filesNotIn (d other : Disk) : List (Place × String) :=
  match d.root.at? d.home with
  | some t => t.files.filter fun f => other.root.text? (d.home ++ f.1) != some f.2
  | none => []

end Disk

end ShaderEffect
