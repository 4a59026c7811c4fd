import ShaderEffect.Command.Failure
import ShaderEffect.Command.Path

/-!
# Access to files

Commands reach files only through a `FileAccess`, so that they run on the files of a machine as well
as on a `Disk`.
-/

namespace ShaderEffect

structure FileAccess (m : Type → Type) where
  read : Path → m (Except FileError String)
  write : Path → String → m (Except FileError Unit)
  makeDirectory : Path → m (Except FileError Unit)
  isThere : Path → m Bool
  isDirectory : Path → m Bool
  names : Path → m (Except FileError (List String))

namespace FileAccess

variable {m : Type → Type} [Monad m]

def ensureDirectory (files : FileAccess m) (path : Path) : m (Except FileError Unit) := do
  match ← files.makeDirectory path with
  | .ok _ => return .ok ()
  | .error e =>
    if ← files.isDirectory path then return .ok () else return .error e

/-- Makes a directory and those around it that are missing. Every round takes at least a piece of
the path away; there is fuel for all. -/
def ensureTree (files : FileAccess m) : Nat → Path → m (Except FileError Unit)
  | 0, _ => return .error .notFound
  | fuel + 1, path => do
    if path.text == "" then return .ok ()
    match ← files.ensureDirectory path, path.parent? with
    | .error .notFound, some parent =>
      match ← ensureTree files fuel parent with
      | .ok _ => files.ensureDirectory path
      | .error e => return .error e
    | r, _ => return r

def makeTree (files : FileAccess m) (path : Path) : m (Except FileError Unit) :=
  files.ensureTree (path.pieces.length + 1) path

end FileAccess

end ShaderEffect
