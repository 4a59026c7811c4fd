import ShaderEffect.Compile

/-!
# Failures of a command

A failure has a message and the messages of what led to it, the nearest one first.
-/

namespace ShaderEffect

inductive FileError where
  | notFound
  | alreadyThere
  | notADirectory
  | isADirectory
  | nameTooLong
  | notText
  | other (text : String)
  deriving Repr, DecidableEq

namespace FileError

def message : FileError → String
  | .notFound => "No such file or directory (os error 2)"
  | .alreadyThere => "File exists (os error 17)"
  | .notADirectory => "Not a directory (os error 20)"
  | .isADirectory => "Is a directory (os error 21)"
  | .nameTooLong => "File name too long (os error 36)"
  | .notText => "stream did not contain valid UTF-8"
  | .other text => text

end FileError

structure Failure where
  message : String
  causes : List String := []
  deriving Repr, DecidableEq

namespace Failure

def ofFile (message : String) (e : FileError) : Failure :=
  { message := message, causes := [e.message] }

def ofCompile (message : String) (e : CompileError) : Failure :=
  { message := message, causes := e.message :: e.causes }

def line (f : Failure) : String :=
  ": ".intercalate (f.message :: f.causes)

def indentRest (width : Nat) (text : String) : String :=
  String.ofList (text.toList.flatMap fun c =>
    if c == '\n' then '\n' :: List.replicate width ' ' else [c])

def causeLines (causes : List String) : List String :=
  match causes with
  | [cause] => ["    " ++ indentRest 4 cause]
  | causes => causes.zipIdx.map fun (cause, i) =>
      let number := toString i
      String.ofList (List.replicate (5 - number.length) ' ') ++ number ++ ": " ++
        indentRest 7 cause

def text (f : Failure) : String :=
  "Error: " ++ f.message ++ "\n" ++
    if f.causes.isEmpty then ""
    else "\nCaused by:\n" ++ String.join ((causeLines f.causes).map (· ++ "\n"))

end Failure

end ShaderEffect
