/-!
# Trees of files

A directory holds files and directories under names. A place in a tree is the list of the names that
lead there from its root.
-/

namespace ShaderEffect

abbrev Place := List String

/-- A file with its text, or a directory with its entries. -/
inductive FileTree where
  | file (text : String)
  | directory (entries : List (String × FileTree))
  deriving Repr

namespace FileTree

def entries : FileTree → List (String × FileTree)
  | .file _ => []
  | .directory es => es

def isDirectory : FileTree → Bool
  | .file _ => false
  | .directory _ => true

/-- The entries with a tree under a name, in the place of the one that was there. -/
def enter (name : String) (t : FileTree) (es : List (String × FileTree)) :
    List (String × FileTree) :=
  if (es.lookup name).isSome then es.map fun e => if e.1 == name then (name, t) else e
  else es ++ [(name, t)]

def at? (t : FileTree) : Place → Option FileTree
  | [] => some t
  | name :: place => (t.entries.lookup name).bind fun inner => inner.at? place

def text? (t : FileTree) (place : Place) : Option String :=
  match t.at? place with
  | some (.file text) => some text
  | _ => none

/-- The tree with another one put at a place. Directories on the way that are missing are made, and
files on the way give way to them. -/
def put (new : FileTree) : Place → FileTree → FileTree
  | [], _ => new
  | name :: place, t =>
    .directory (enter name (put new place ((t.entries.lookup name).getD (.directory []))) t.entries)

mutual

def files : FileTree → List (Place × String)
  | .file text => [([], text)]
  | .directory es => filesOf es

def filesOf : List (String × FileTree) → List (Place × String)
  | [] => []
  | (name, t) :: es => (t.files.map fun f => (name :: f.1, f.2)) ++ filesOf es

end

end FileTree

end ShaderEffect
