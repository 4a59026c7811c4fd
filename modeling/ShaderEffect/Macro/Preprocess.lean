import ShaderEffect.Macro.Condition
import ShaderEffect.Macro.Expansion

/-!
# The preprocessor

Goes through a body line by line. A line whose first token is `#` is a directive: it defines or
removes a macro, or opens, turns or closes a branch, and only its line breaks stay. Of the other
lines those in active branches stay, with macros expanded, and only the line breaks of the rest.

Comments and layout stay as they are, and an input of the same name wins over a macro without
parameters.
-/

namespace ShaderEffect

open Text

/-! ## Lines -/

/-- Joins each line that ends in a backslash with the next one. The line breaks that go away come
back after the joined line. -/
def joinLines : Nat → List (List Char) → List Char
  | _, [] => []
  | pending, line :: lines =>
    let content := dropEndWhile (fun c => c == '\n' || c == '\r') line
    if content.getLast? == some '\\' then
      content.dropLast ++ ' ' :: joinLines (pending + 1) lines
    else line ++ (List.replicate pending '\n' ++ joinLines 0 lines)

def joinContinued (body : String) : String :=
  String.ofList (joinLines 0 (linesWithEnds body.toList))

def tokenLines : List Token → List (List Token)
  | [] => []
  | t :: ts =>
    if t.kind == .newline then [t] :: tokenLines ts
    else
      match tokenLines ts with
      | [] => [[t]]
      | l :: ls => (t :: l) :: ls

def Token.breaks (t : Token) : Nat :=
  match t.kind with
  | .newline => 1
  | .comment => countBreaks t.text.toList
  | _ => 0

def lineBreaks (line : List Token) : List Token :=
  List.replicate (line.foldr (fun t n => t.breaks + n) 0) { kind := .newline, text := "\n" }

/-! ## Directives -/

inductive BranchTest where
  | holds (condition : List Token)
  | defined (name : Option String) (wanted : Bool)
  deriving Repr

inductive Directive where
  | opens (test : BranchTest)
  | turns (condition : List Token)
  | otherwise
  | closes
  | define (rest : List Token)
  | undefine (name : Option String)
  | silent
  | unsupported (text : String)
  deriving Repr

def firstText (ts : List Token) : Option String :=
  (ts.find? fun t => !t.isTrivia).map Token.text

def directiveText (ts : List Token) : String :=
  trim (String.join (ts.map fun t => if t.isTrivia then " " else t.text))

namespace Directive

def ofTokens (ts : List Token) : Directive :=
  match ts with
  | [] => .silent
  | name :: rest =>
    match name.text with
    | "if" => .opens (.holds rest)
    | "ifdef" => .opens (.defined (firstText rest) true)
    | "ifndef" => .opens (.defined (firstText rest) false)
    | "elif" => .turns rest
    | "else" => .otherwise
    | "endif" => .closes
    | "define" => .define rest
    | "undef" => .undefine (firstText rest)
    | "version" | "extension" | "" => .silent
    | _ => .unsupported (directiveText ts)

def ofLine? (line : List Token) : Option Directive :=
  match line.dropWhile fun t => t.kind == .space with
  | hash :: rest =>
    if hash.isPunct "#" then
      some (ofTokens (Token.trimTrivia (rest.filter fun t => t.kind != .newline)))
    else none
  | [] => none

end Directive

/-- The parameters of a macro and its body, from the tokens after its name. A parameter list follows
the name at once; without a closing bracket there is none. -/
def readParams (ts : List Token) : Option (Option (List String) × List Token) :=
  match ts with
  | [] => some (none, [])
  | o :: rest =>
    if o.isPunct "(" then
      let names := rest.takeWhile fun t => !t.isPunct ")"
      match rest.dropWhile fun t => !t.isPunct ")" with
      | _ :: body =>
        some (some ((names.filter fun t => t.kind == .ident).map Token.text), body)
      | [] => none
    else some (none, ts)

def macroBody (ts : List Token) : List Token :=
  Token.trimTrivia (ts.filter fun t => t.kind != .comment && t.kind != .newline)

def readMacro (inputs : List String) (rest : List Token) : Except MacroNotice Macro :=
  match rest.dropWhile Token.isTrivia with
  | [] => .error .nameMissing
  | name :: after =>
    if name.kind != .ident then .error (.nameInvalid name.text)
    else
      match readParams after with
      | none => .error (.parametersOpen name.text)
      | some (params, body) =>
        if params.isNone && inputs.contains name.text then .error (.shadowsInput name.text)
        else .ok { name := name.text, params := params, body := macroBody body }

/-! ## Branches -/

/-- A branch: whether it stands in an active one, whether it is taken itself, and whether it or one
before it in its group was. -/
structure Branch where
  outer : Bool
  taking : Bool
  taken : Bool
  deriving Repr, DecidableEq

def definedDigit (table : MacroTable) (name : Option Token) : Token :=
  { kind := .int, text := if name.any fun t => table.defines t.text then "1" else "0" }

def resolveDefined (table : MacroTable) : List Token → List Token
  | [] => []
  | t :: ts =>
    if t.isIdent "defined" then
      match ts with
      | [] => [definedDigit table none]
      | o :: rest =>
        if o.isPunct "(" then
          definedDigit table rest.head? :: resolveDefined table (rest.drop 2)
        else definedDigit table (some o) :: resolveDefined table rest
    else t :: resolveDefined table ts
termination_by ts => ts.length
decreasing_by all_goals simp only [List.length_cons, List.length_drop]; omega

/-- Whether a condition holds. One that cannot be evaluated does. -/
def conditionHolds (table : MacroTable) (limit : Nat) (rest : List Token) :
    Bool × List MacroNotice :=
  let (ts, notices) := expand table limit
    (resolveDefined table (rest.filter fun t => !t.isTrivia))
  match Condition.evaluate (ts.filter fun t => !t.isTrivia) with
  | some v => (v != 0, notices)
  | none => (true, notices ++ [.unevaluated (trim (Token.render rest))])

def BranchTest.decide (table : MacroTable) (limit : Nat) : BranchTest → Bool × List MacroNotice
  | .holds rest => conditionHolds table limit rest
  | .defined name wanted => (name.any table.defines == wanted, [])

/-! ## The state -/

structure Preprocessor where
  table : MacroTable := []
  /-- The open branches, innermost first. -/
  branches : List Branch := []
  /-- Lines that wait for the expansion of their macros. -/
  waiting : List Token := []
  out : List Token := []
  notices : List MacroNotice := []
  deriving Repr

namespace Preprocessor

def isActive (p : Preprocessor) : Bool :=
  p.branches.all Branch.taking

def report (p : Preprocessor) (ns : List MacroNotice) : Preprocessor :=
  { p with notices := p.notices ++ ns }

def flush (limit : Nat) (p : Preprocessor) : Preprocessor :=
  let (ts, notices) := expand p.table limit p.waiting
  { p with waiting := [], out := p.out ++ ts, notices := p.notices ++ notices }

/-- Opens a branch. Inside one that is not taken nothing is tested. -/
def openBranch (limit : Nat) (test : BranchTest) (p : Preprocessor) : Preprocessor :=
  let active := p.isActive
  let (taking, notices) := if active then test.decide p.table limit else (false, [])
  { p with
    branches := { outer := active, taking := taking, taken := taking } :: p.branches
    notices := p.notices ++ notices }

/-- Turns to the next branch of a group, which is tested if none was taken yet. -/
def turnBranch (limit : Nat) (rest : List Token) (p : Preprocessor) : Preprocessor :=
  match p.branches with
  | [] => p.report [.strayElif]
  | b :: bs =>
    let (taking, notices) :=
      if b.outer && !b.taken then conditionHolds p.table limit rest else (false, [])
    { p with
      branches := { b with taking := taking, taken := b.taken || taking } :: bs
      notices := p.notices ++ notices }

def otherwise (p : Preprocessor) : Preprocessor :=
  match p.branches with
  | [] => p.report [.strayElse]
  | b :: bs =>
    { p with branches := { b with taking := b.outer && !b.taken, taken := true } :: bs }

def close (p : Preprocessor) : Preprocessor :=
  match p.branches with
  | [] => p.report [.strayEndif]
  | _ :: bs => { p with branches := bs }

def define (inputs : List String) (rest : List Token) (p : Preprocessor) : Preprocessor :=
  match readMacro inputs rest with
  | .ok m => { p with table := p.table.define m }
  | .error n => p.report [n]

def obeyActive (inputs : List String) (d : Directive) (p : Preprocessor) : Preprocessor :=
  match d with
  | .define rest => p.define inputs rest
  | .undefine (some name) => { p with table := p.table.undefine name }
  | .unsupported text => p.report [.unsupported text]
  | _ => p

def obey (inputs : List String) (limit : Nat) (d : Directive) (p : Preprocessor) : Preprocessor :=
  match d with
  | .opens test => p.openBranch limit test
  | .turns rest => p.turnBranch limit rest
  | .otherwise => p.otherwise
  | .closes => p.close
  | d => if p.isActive then p.obeyActive inputs d else p

def addLine (inputs : List String) (limit : Nat) (p : Preprocessor) (line : List Token) :
    Preprocessor :=
  match Directive.ofLine? line with
  | some d =>
    let p := (p.flush limit).obey inputs limit d
    { p with out := p.out ++ lineBreaks line }
  | none =>
    if p.isActive then { p with waiting := p.waiting ++ line }
    else { p with out := p.out ++ lineBreaks line }

def finish (limit : Nat) (p : Preprocessor) : Preprocessor :=
  let p := p.flush limit
  if p.branches.isEmpty then p
  else p.report [.unterminatedBranches p.branches.length]

end Preprocessor

structure Preprocessed where
  tokens : List Token
  macros : List Macro
  notices : List MacroNotice
  deriving Repr

namespace Preprocessed

def text (p : Preprocessed) : String :=
  Token.render p.tokens

end Preprocessed

/-- Preprocesses a body. Macros are expanded in at least one round. -/
def preprocess (inputs : List String) (limit : Nat) (body : String) : Preprocessed :=
  let limit := max limit 1
  let lines := tokenLines (Token.tokenize (joinContinued body))
  let p := (lines.foldl (Preprocessor.addLine inputs limit) {}).finish limit
  { tokens := p.out, macros := p.table.sorted, notices := p.notices }

end ShaderEffect
