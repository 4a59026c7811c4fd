import ShaderEffect.Command.Run

/-!
# The command line program
-/

namespace ShaderEffect

namespace FileError

/-- The number of an error of the machine, which some calls give with a minus sign. -/
def numberOf (code : UInt32) : Nat :=
  if code.toNat < 2147483648 then code.toNat else UInt32.size - code.toNat

def ofNumber (number : Nat) (details : String) : FileError :=
  match number with
  | 2 => .notFound
  | 17 => .alreadyThere
  | 20 => .notADirectory
  | 21 => .isADirectory
  | 36 => .nameTooLong
  | n => .other (details ++ " (os error " ++ toString n ++ ")")

def ofIoError : IO.Error → FileError
  | .noFileOrDirectory .. => .notFound
  | .alreadyExists .. => .alreadyThere
  | .inappropriateType _ code details => ofNumber (numberOf code) details
  | .invalidArgument _ code details => ofNumber (numberOf code) details
  | .permissionDenied _ code details => ofNumber (numberOf code) details
  | .resourceExhausted _ code details => ofNumber (numberOf code) details
  | .userError _ => .notText
  | e => .other (toString e)

end FileError

namespace FileAccess

def caught {α : Type} (step : IO α) : IO (Except FileError α) := do
  match ← step.toBaseIO with
  | .ok a => return .ok a
  | .error e => return .error (FileError.ofIoError e)

/-- A test that fails if it cannot be made. -/
def holds (test : IO Bool) : IO Bool := do
  match ← test.toBaseIO with
  | .ok b => return b
  | .error _ => return false

def machine : FileAccess IO where
  read path := caught (IO.FS.readFile path.text)
  write path text := caught (IO.FS.writeFile path.text text)
  makeDirectory path := caught (IO.FS.createDir path.text)
  isThere path := holds do
    let _ ← IO.FS.realPath path.text
    return !path.isTooLong
  isDirectory path := holds do
    let place ← IO.FS.realPath path.text
    return (← place.isDir) && !path.isTooLong
  names path := caught do
    let place ← IO.FS.realPath path.text
    let entries ← place.readDir
    return entries.toList.map fun e => e.fileName

end FileAccess

namespace Surroundings

def userDirectory : IO (Option Path) := do
  match ← IO.getEnv "XDG_CONFIG_HOME", ← IO.getEnv "HOME" with
  | some base, home =>
    if base.startsWith "/" then return some ((Path.ofText base).join "isfc")
    else return home.map fun h => ((Path.ofText h).join ".config").join "isfc"
  | none, home => return home.map fun h => ((Path.ofText h).join ".config").join "isfc"

def ofMachine : IO Surroundings := do
  let config ← IO.getEnv "ISFC_CONFIG"
  let directory ← match ← IO.getEnv "ISFC_CONFIG_DIR" with
    | some directory => pure (some (Path.ofText directory))
    | none => userDirectory
  return { config := config.map Path.ofText, configDirectory := directory }

end Surroundings

end ShaderEffect

def main (args : List String) : IO UInt32 := do
  let surroundings ← ShaderEffect.Surroundings.ofMachine
  let reply ← ShaderEffect.runCommandLine ShaderEffect.FileAccess.machine surroundings args
  IO.print reply.output
  IO.eprint reply.errors
  return reply.code.toUInt32
