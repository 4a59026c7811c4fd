import ShaderEffect.Command.Files
import ShaderEffect.Command.Help
import ShaderEffect.Config
import ShaderEffect.Layout.Report

/-!
# Running commands

`compile` writes the modules and the layout of each file, `check` tells for each file in one line
what became of it, and `layout` shows the layout of one file.
-/

namespace ShaderEffect

structure Surroundings where
  config : Option Path := none
  configDirectory : Option Path := none
  deriving Repr, DecidableEq

structure Reply where
  code : Nat := 0
  output : String := ""
  errors : String := ""
  deriving Repr, DecidableEq

namespace Command

variable {m : Type → Type} [Monad m]

def attempt {α : Type} (message : String) (step : m (Except FileError α)) : ExceptT Failure m α :=
  ExceptT.mk do
    match ← step with
    | .ok a => return .ok a
    | .error e => return .error (Failure.ofFile message e)

/-! ## Options -/

def readOptions (files : FileAccess m) (path : Path) : ExceptT Failure m Options := do
  let text ← attempt ("failed to read options file at " ++ path.text) (files.read path)
  match Options.ofToml text with
  | .ok options => return options
  | .error e =>
    throw { message := "failed to load options file at " ++ path.text, causes := [e.message] }

/-- The options of a command: from the file that is named, else from the usual one if there is one,
else the usual options. -/
def loadOptions (files : FileAccess m) (s : Surroundings) (named : Option Path) :
    ExceptT Failure m Options := do
  match named.or s.config, s.configDirectory with
  | some path, _ => readOptions files path
  | none, some directory =>
    let path := directory.join "isfc.toml"
    if ← files.isThere path then readOptions files path else return {}
  | none, none => return {}

/-! ## Compiling files -/

def compileFile (files : FileAccess m) (options : Options) (path : Path) :
    ExceptT Failure m Compiled := do
  let source ← attempt ("failed to read shader at " ++ path.text) (files.read path)
  match ShaderEffect.compile options source with
  | .ok c => return c
  | .error e => throw (Failure.ofCompile ("failed to compile " ++ path.text) e)

def artifacts (stem : String) (c : Compiled) : List (String × String) :=
  [(stem ++ ".frag.wgsl", c.fragment),
    (stem ++ ".vert.wgsl", c.vertex),
    (stem ++ ".layout.json", c.layout.text)]

def outputDirectory (outDir : Option Path) (path : Path) : Path :=
  outDir.getD (path.parent?.getD (Path.ofText "."))

def writeAll (files : FileAccess m) (directory : Path) :
    List (String × String) → ExceptT Failure m Unit
  | [] => return ()
  | (name, text) :: rest => do
    let target := directory.join name
    attempt ("failed to write " ++ target.text) (files.write target text)
    writeAll files directory rest

def compileToFiles (files : FileAccess m) (options : Options) (outDir : Option Path)
    (denyWarnings : Bool) (path : Path) : ExceptT Failure m Unit := do
  let c ← compileFile files options path
  if denyWarnings && !c.warnings.isEmpty then
    throw {
      message := path.text ++ " produced " ++ toString c.warnings.length ++
        " warning(s) and --deny-warnings is set" }
  match path.stem? with
  | none => throw { message := path.text ++ " has no usable file name" }
  | some stem => writeAll files (outputDirectory outDir path) (artifacts stem c)

def compileEach (files : FileAccess m) (options : Options) (outDir : Option Path)
    (denyWarnings : Bool) : List Path → ExceptT Failure m Unit
  | [] => return ()
  | path :: rest => do
    compileToFiles files options outDir denyWarnings path
    compileEach files options outDir denyWarnings rest

def compileAll (files : FileAccess m) (options : Options) (paths : List Path)
    (outDir : Option Path) (denyWarnings : Bool) : ExceptT Failure m Unit := do
  match outDir with
  | some directory =>
    attempt ("failed to create output directory " ++ directory.text) (files.makeTree directory)
  | none => pure ()
  compileEach files options outDir denyWarnings paths

/-! ## Checking files -/

inductive Verdict where
  | failed (f : Failure)
  | invalid (count : Nat) (first : String)
  | warned (count : Nat)
  | fine
  deriving Repr, DecidableEq

namespace Verdict

def ofResult : Except Failure Compiled → Verdict
  | .error f => .failed f
  | .ok c =>
    match c.findings with
    | finding :: _ => .invalid c.findings.length finding.leftover.message
    | [] => if c.warnings.isEmpty then .fine else .warned c.warnings.length

def line (path : Path) : Verdict → String
  | .failed f => "error   " ++ path.text ++ ": " ++ f.line
  | .invalid count first =>
    "invalid " ++ path.text ++ ": " ++ toString count ++ " finding(s), first: " ++ first
  | .warned count => "warn    " ++ path.text ++ ": " ++ toString count ++ " warning(s)"
  | .fine => "ok      " ++ path.text

def isFailed : Verdict → Bool
  | .failed _ => true
  | _ => false

def isInvalid : Verdict → Bool
  | .invalid _ _ => true
  | _ => false

def isWarned : Verdict → Bool
  | .warned _ => true
  | _ => false

def isFine : Verdict → Bool
  | .fine => true
  | _ => false

end Verdict

/-- The files to check at a path: the path itself, or if it is a directory, all effects in it and
below it in the order of their names. The fuel bounds how deep directories are nested. -/
def collect (files : FileAccess m) : Nat → Path → ExceptT Failure m (List Path)
  | 0, _ => return []
  | fuel + 1, path => do
    if ← files.isDirectory path then
      let names ← attempt ("failed to list " ++ path.text) (files.names path)
      let found ← (names.mergeSort fun a b => decide (a ≤ b)).mapM fun name => do
        let entry := path.join name
        if ← files.isDirectory entry then collect files fuel entry
        else return if entry.extension? == some "fs" then [entry] else []
      return found.flatten
    else if ← files.isThere path then return [path]
    else throw { message := path.text ++ " does not exist" }

def tally (verdicts : List Verdict) : String :=
  toString verdicts.length ++ " unit(s): " ++
    toString (verdicts.countP Verdict.isFine) ++ " ok, " ++
    toString (verdicts.countP Verdict.isWarned) ++ " with warnings, " ++
    toString (verdicts.countP Verdict.isInvalid) ++ " invalid, " ++
    toString (verdicts.countP Verdict.isFailed) ++ " failed"

def judge (files : FileAccess m) (options : Options) (path : Path) : m (Path × Verdict) := do
  let r ← (compileFile files options path).run
  return (path, Verdict.ofResult r)

/-- A limit of the length of paths, which nested directories cannot exceed. -/
def deepest : Nat := 4096

def checkAll (files : FileAccess m) (options : Options) (paths : List Path) :
    ExceptT Failure m (List String × Option Failure) := do
  let found ← paths.mapM (collect files deepest)
  let verdicts ← found.flatten.mapM fun path => (judge files options path : m (Path × Verdict))
  let bad := verdicts.countP fun v => v.2.isInvalid || v.2.isFailed
  let lines := verdicts.map (fun v => v.2.line v.1) ++ [tally (verdicts.map Prod.snd)]
  return (lines,
    if bad == 0 then none else some { message := toString bad ++ " unit(s) need attention" })

/-! ## Whole commands -/

def run (files : FileAccess m) (options : Options) :
    Command → ExceptT Failure m (List String × Option Failure)
  | .compile paths outDir denyWarnings => do
    compileAll files options paths outDir denyWarnings
    return ([], none)
  | .check paths => checkAll files options paths
  | .layout path => do
    let c ← compileFile files options path
    return ([c.layout.text], none)

end Command

namespace Reply

def ofResult : Except Failure (List String × Option Failure) → Reply
  | .error f => { code := 1, errors := f.text }
  | .ok (lines, failure) =>
    { code := if failure.isSome then 1 else 0
      output := String.join (lines.map (· ++ "\n"))
      errors := (failure.map Failure.text).getD "" }

def ofUsage (e : UsageError) : Reply :=
  { code := 2
    errors := "error: " ++ e.message ++ "\n\nFor more information, try '--help'.\n" }

end Reply

def runCommandLine {m : Type → Type} [Monad m] (files : FileAccess m) (s : Surroundings)
    (args : List String) : m Reply := do
  match Request.read args with
  | .error e => return Reply.ofUsage e
  | .ok (.help topic) => return { output := topic.text }
  | .ok .version => return { output := "isfc 0.1.0\n" }
  | .ok (.run config command) =>
    let r ← (do
      let options ← Command.loadOptions files s config
      Command.run files options command : ExceptT Failure m (List String × Option Failure)).run
    return Reply.ofResult r

end ShaderEffect
