import ShaderEffect.Command.Path

/-!
# Command lines

A command line names a command with its paths and options. The option `--config` may stand before
and after the name of the command; the later one counts. The first thing that is wrong or that asks
for help decides.
-/

namespace ShaderEffect

inductive Command where
  | compile (paths : List Path) (outDir : Option Path) (denyWarnings : Bool)
  | check (paths : List Path)
  | layout (path : Path)
  deriving Repr, DecidableEq

inductive HelpTopic where
  | program
  | compile
  | check
  | layout
  | help
  deriving Repr, DecidableEq

inductive Request where
  | run (config : Option Path) (command : Command)
  | help (topic : HelpTopic)
  | version
  deriving Repr, DecidableEq

inductive UsageError where
  | noCommand
  | unknownCommand (name : String)
  | unexpected (argument : String)
  | missingValue (option : String)
  | needlessValue (option : String)
  | repeated (option : String)
  | missingPath
  deriving Repr, DecidableEq

namespace UsageError

def message : UsageError → String
  | .noCommand => "a command is required but none was given"
  | .unknownCommand name => "unrecognized subcommand '" ++ name ++ "'"
  | .unexpected argument => "unexpected argument '" ++ argument ++ "' found"
  | .missingValue option =>
    "a value is required for '" ++ option ++ "' but none was supplied"
  | .needlessValue option => "unexpected value for '" ++ option ++ "' found; no more were expected"
  | .repeated option => "the argument '" ++ option ++ "' cannot be used multiple times"
  | .missingPath => "the required arguments were not provided"

end UsageError

inductive Argument where
  | separator
  | long (name : String) (value : Option String)
  | short (letter : Char)
  | value (text : String)
  deriving Repr, DecidableEq

namespace Argument

def ofLong (cs : List Char) : Argument :=
  let name := String.ofList (cs.takeWhile (· != '='))
  match cs.dropWhile (· != '=') with
  | [] => .long name none
  | _ :: rest => .long name (some (String.ofList rest))

def ofText (text : String) : Argument :=
  match text.toList with
  | ['-', '-'] => .separator
  | '-' :: '-' :: cs => ofLong cs
  | '-' :: c :: _ => .short c
  | _ => .value text

end Argument

namespace Request

def pathOf (owner text : String) : Except UsageError Path :=
  if text == "" then .error (.missingValue owner) else .ok (Path.ofText text)

def optionPath (name text : String) (earlier : Option Path) : Except UsageError Path :=
  if earlier.isSome then .error (.repeated name) else pathOf name text

/-! ## Arguments of a command -/

structure Draft where
  config : Option Path := none
  outDir : Option Path := none
  denyWarnings : Bool := false
  paths : List Path := []
  deriving Repr, DecidableEq

def setOption (topic : HelpTopic) (d : Draft) (name value : String) :
    Except UsageError Draft :=
  if name == "config" then do
    let path ← optionPath "--config" value d.config
    pure { d with config := some path }
  else if name == "out-dir" && topic == .compile then do
    let path ← optionPath "--out-dir" value d.outDir
    pure { d with outDir := some path }
  else .error (.unexpected ("--" ++ name))

def hasValue (topic : HelpTopic) (name : String) : Bool :=
  name == "config" || (name == "out-dir" && topic == .compile)

def addPath (topic : HelpTopic) (d : Draft) (text : String) : Except UsageError Draft :=
  if topic == .layout && !d.paths.isEmpty then .error (.unexpected text)
  else do
    let path ← pathOf "<PATH>" text
    pure { d with paths := d.paths ++ [path] }

def setFlag (topic : HelpTopic) (d : Draft) (name : String) (value : Option String) :
    Except UsageError Draft :=
  if name == "deny-warnings" && topic == .compile then
    if value.isSome then .error (.needlessValue "--deny-warnings")
    else if d.denyWarnings then .error (.repeated "--deny-warnings")
    else .ok { d with denyWarnings := true }
  else .error (.unexpected ("--" ++ name))

def readDraft (topic : HelpTopic) (d : Draft) : List String → Except UsageError (Option Draft)
  | [] => .ok (some d)
  | arg :: args =>
    match Argument.ofText arg with
    | .separator => (args.foldlM (addPath topic) d).map some
    | .value text =>
      match addPath topic d text with
      | .ok d => readDraft topic d args
      | .error e => .error e
    | .short c => if c == 'h' then .ok none else .error (.unexpected arg)
    | .long name value =>
      if name == "help" then
        if value.isSome then .error (.needlessValue "--help") else .ok none
      else if hasValue topic name then
        match value, args with
        | some text, args =>
          match setOption topic d name text with
          | .ok d => readDraft topic d args
          | .error e => .error e
        | none, [] => .error (.missingValue arg)
        | none, next :: rest =>
          match Argument.ofText next with
          | .value text =>
            match setOption topic d name text with
            | .ok d => readDraft topic d rest
            | .error e => .error e
          | _ => .error (.missingValue arg)
      else
        match setFlag topic d name value with
        | .ok d => readDraft topic d args
        | .error e => .error e

def commandOf (topic : HelpTopic) (d : Draft) : Except UsageError Command :=
  match d.paths with
  | [] => .error .missingPath
  | path :: _ =>
    match topic with
    | .compile => .ok (.compile d.paths d.outDir d.denyWarnings)
    | .check => .ok (.check d.paths)
    | _ => .ok (.layout path)

def readCommand (config : Option Path) (topic : HelpTopic) (args : List String) :
    Except UsageError Request := do
  match ← readDraft topic {} args with
  | none => pure (.help topic)
  | some d =>
    let command ← commandOf topic d
    pure (.run (d.config.or config) command)

/-! ## Whole command lines -/

def topicOf (name : String) : Option HelpTopic :=
  match name with
  | "compile" => some .compile
  | "check" => some .check
  | "layout" => some .layout
  | "help" => some .help
  | _ => none

def readTopic : List String → Except UsageError Request
  | [] => .ok (.help .program)
  | [name] =>
    match topicOf name with
    | some topic => .ok (.help topic)
    | none => .error (.unknownCommand name)
  | _ :: name :: _ => .error (.unknownCommand name)

def readFrom (config : Option Path) : List String → Except UsageError Request
  | [] => .error .noCommand
  | arg :: args =>
    match Argument.ofText arg with
    | .separator => .error .noCommand
    | .value name =>
      match topicOf name with
      | some .help => readTopic args
      | some topic => readCommand config topic args
      | none => .error (.unknownCommand name)
    | .short c =>
      if c == 'h' then .ok (.help .program)
      else if c == 'V' then .ok .version
      else .error (.unexpected arg)
    | .long "help" none => .ok (.help .program)
    | .long "version" none => .ok .version
    | .long "config" (some text) =>
      match optionPath "--config" text config with
      | .ok path => readFrom (some path) args
      | .error e => .error e
    | .long "config" none =>
      match args with
      | [] => .error (.missingValue "--config")
      | next :: rest =>
        match Argument.ofText next with
        | .value text =>
          match optionPath "--config" text config with
          | .ok path => readFrom (some path) rest
          | .error e => .error e
        | _ => .error (.missingValue "--config")
    | .long _ _ => .error (.unexpected arg)

def read (args : List String) : Except UsageError Request :=
  readFrom none args

end Request

end ShaderEffect
