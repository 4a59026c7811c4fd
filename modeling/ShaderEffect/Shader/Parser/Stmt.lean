import ShaderEffect.Shader.Stmt
import ShaderEffect.Shader.Parser.Expr

/-!
# Reading statements

Declarations, control flow and expression statements. Precision statements and qualifiers are taken
and forgotten.
-/

namespace ShaderEffect.Parser

def precisions : List String :=
  ["highp", "mediump", "lowp"]

def typeSpec (n : Nat) : Parser ShaderType := do
  match ← peek with
  | none => fail (.expectedType none)
  | some t =>
    if t.kind == .ident then
      match ← typeNamed t.text with
      | some type =>
        skip
        arraySuffix n type
      | none => fail (.expectedType (some t.text))
    else
      fail (.expectedType (some t.text))

/-- The type of a declared variable: an array without length takes the length of the constructor
that initialises it. -/
def declaredType (type : ShaderType) (init : Option Expr) : ShaderType :=
  match init with
  | some (.construct _ args) => type.sized args.length
  | _ => type

def declarators : Nat → Storage → ShaderType → String → Parser (List VarDecl)
  | 0, _, _, _ => fail .budgetSpent
  | n + 1, storage, base, name => do
    let type ← arraySuffix n base
    let hasInit ← eatPunct "="
    let init ← if hasInit then do
        let e ← assignment n
        pure (some e)
      else pure none
    let decl : VarDecl :=
      { storage := storage, type := declaredType type init, name := name, init := init }
    if ← eatPunct ";" then
      return [decl]
    else
      expectPunct ","
      let another ← expectIdent
      let others ← declarators n storage base another
      return decl :: others

/-- Whether the tokens start a declaration: a qualifier, or a type before a name. In front of an
array constructor no name follows the closing bracket. -/
def declaresAt (isType : String → Bool) : List PlacedToken → Bool
  | [] => false
  | t :: ts =>
    if t.kind == .ident then
      if t.text == "const" || precisions.contains t.text then true
      else if isType t.text then
        match ts with
        | [] => false
        | u :: us =>
          if u.kind == .ident then true
          else if u.isPunct "[" then
            match us.dropWhile fun v => !v.isPunct "]" with
            | _ :: v :: _ => v.kind == .ident
            | _ => false
          else false
      else false
    else false

def startsDeclaration : Parser Bool :=
  fun s =>
    .ok (declaresAt (fun name => (ShaderType.ofName name).isSome || s.structs.contains name) s.rest,
      s)

def localQualifiers : Nat → Storage → Parser Storage
  | 0, _ => fail .budgetSpent
  | n + 1, storage => do
    match ← peekText with
    | none => return storage
    | some text =>
      if text == "const" then
        skip
        localQualifiers n .const
      else if precisions.contains text then
        skip
        localQualifiers n storage
      else
        return storage

def localDeclaration (n : Nat) : Parser Stmt := do
  let storage ← localQualifiers n .var
  let type ← typeSpec n
  let name ← expectIdent
  let decls ← declarators n storage type name
  return .decl decls

/-- Adds a label to the branches read so far, the last of which stands first: labels without
statements between them select one branch. -/
def addLabel (label : CaseLabel) : List Case → List Case
  | .mk labels [] :: cases => .mk (labels ++ [label]) [] :: cases
  | cases => .mk [label] [] :: cases

def caseLabel (n : Nat) : Parser (Option CaseLabel) := do
  if ← eatIdent "case" then
    let value ← conditional n
    expectPunct ":"
    return some (.value value)
  else if ← eatIdent "default" then
    expectPunct ":"
    return some .default
  else
    return none

def parenthesised (n : Nat) : Parser Expr := do
  expectPunct "("
  let e ← expression n
  expectPunct ")"
  return e

def jump (s : Stmt) : Parser Stmt := do
  skip
  expectPunct ";"
  return s

def returnValue (n : Nat) : Parser Stmt := do
  skip
  if ← eatPunct ";" then
    return .ret none
  else
    let value ← expression n
    expectPunct ";"
    return .ret (some value)

def expressionStatement (n : Nat) : Parser Stmt := do
  let e ← expression n
  expectPunct ";"
  return .expr e

def forStart (n : Nat) : Parser (Option Stmt) := do
  if ← eatPunct ";" then
    return none
  else if ← startsDeclaration then
    let s ← localDeclaration n
    return some s
  else
    let s ← expressionStatement n
    return some s

def upTo (n : Nat) (close : String) : Parser (Option Expr) := do
  if ← atPunct close then
    skip
    return none
  else
    let e ← expression n
    expectPunct close
    return some e

mutual

def statement : Nat → Parser Stmt
  | 0 => fail .budgetSpent
  | n + 1 => do
    match ← peek with
    | none => fail .expectedStatement
    | some t =>
      if t.isPunct "\x7b" then
        let body ← block n
        return .block body
      else if t.isPunct ";" then
        skip
        return .empty
      else
        match if t.kind == .ident then t.text else "" with
        | "if" =>
          skip
          let cond ← parenthesised n
          let whenTrue ← statement n
          if ← eatIdent "else" then
            let whenFalse ← statement n
            return .ifElse cond whenTrue (some whenFalse)
          else
            return .ifElse cond whenTrue none
        | "for" =>
          skip
          expectPunct "("
          let start ← forStart n
          let cond ← upTo n ";"
          let step ← upTo n ")"
          let body ← statement n
          return .forLoop start cond step body
        | "while" =>
          skip
          let cond ← parenthesised n
          let body ← statement n
          return .whileLoop cond body
        | "do" =>
          skip
          let body ← statement n
          if ← eatIdent "while" then
            let cond ← parenthesised n
            expectPunct ";"
            return .doWhile body cond
          else
            fail .expectedWhile
        | "switch" =>
          skip
          let selector ← parenthesised n
          expectPunct "\x7b"
          let cases ← switchTail n []
          return .switch selector cases
        | "return" => returnValue n
        | "break" => jump .breakOut
        | "continue" => jump .continueOn
        | "discard" => jump .discard
        | "precision" =>
          skipStatement
          return .empty
        | _ =>
          if ← startsDeclaration then
            localDeclaration n
          else
            expressionStatement n

def block : Nat → Parser (List Stmt)
  | 0 => fail .budgetSpent
  | n + 1 => do
    expectPunct "\x7b"
    blockTail n

def blockTail : Nat → Parser (List Stmt)
  | 0 => fail .budgetSpent
  | n + 1 => do
    if ← eatPunct "\x7d" then
      return []
    else
      match ← peek with
      | none => fail (.expectedPunct "\x7d" none)
      | some _ =>
        let s ← statement n
        let others ← blockTail n
        return s :: others

/-- The branches of a `switch` up to its closing brace, after those in `cases`, the last of which
stands first. -/
def switchTail : Nat → List Case → Parser (List Case)
  | 0, _ => fail .budgetSpent
  | n + 1, cases => do
    if ← eatPunct "\x7d" then
      return cases.reverse
    else
      match ← caseLabel n with
      | some label => switchTail n (addLabel label cases)
      | none =>
        match cases with
        | .mk labels body :: earlier =>
          let s ← statement n
          switchTail n (.mk labels (body ++ [s]) :: earlier)
        | [] => fail .strayStatement

end

end ShaderEffect.Parser
