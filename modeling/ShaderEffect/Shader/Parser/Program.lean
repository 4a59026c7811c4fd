import ShaderEffect.Shader.Program
import ShaderEffect.Shader.Parser.Stmt

/-!
# Reading programs

Structures, global variables and functions. A function without a body only announces one and is
dropped.
-/

namespace ShaderEffect.Parser

/-- Qualifiers of global declarations that say nothing to the target language. -/
def interpolations : List String :=
  ["flat", "smooth", "noperspective", "invariant", "centroid"]

/-- Takes the qualifiers of a global declaration and gives the storage that the last of them
names. -/
def globalQualifiers : Nat → Storage → Parser Storage
  | 0, _ => fail .budgetSpent
  | n + 1, storage => do
    match ← peekText with
    | none => fail .unexpectedEnd
    | some text =>
      match text with
      | "const" =>
        skip
        globalQualifiers n .const
      | "uniform" =>
        skip
        globalQualifiers n .uniform
      | "varying" | "attribute" | "in" =>
        skip
        globalQualifiers n .input
      | "out" =>
        skip
        globalQualifiers n .output
      | "layout" =>
        skip
        skipParens
        globalQualifiers n storage
      | _ =>
        if precisions.contains text || interpolations.contains text then
          skip
          globalQualifiers n storage
        else
          return storage

def paramQualifiers : Nat → Passing → Parser Passing
  | 0, _ => fail .budgetSpent
  | n + 1, passing => do
    match ← peekText with
    | none => return passing
    | some text =>
      if text == "in" || text == "const" || precisions.contains text then
        skip
        paramQualifiers n passing
      else if text == "out" then
        skip
        paramQualifiers n .out
      else if text == "inout" then
        skip
        paramQualifiers n .inOut
      else
        return passing

def paramName (position : Nat) : Parser String := do
  match ← peek with
  | some t =>
    if t.kind == .ident then
      skip
      return t.text
    else
      return "isf_unnamed" ++ toString position
  | none => return "isf_unnamed" ++ toString position

def paramTail : Nat → Nat → Parser (List Param)
  | 0, _ => fail .budgetSpent
  | n + 1, position => do
    let passing ← paramQualifiers n .value
    let base ← typeSpec n
    let name ← paramName position
    let type ← arraySuffix n base
    let param : Param := { name := name, type := type, passing := passing }
    if ← eatPunct ")" then
      return [param]
    else
      expectPunct ","
      let others ← paramTail n (position + 1)
      return param :: others

def params (n : Nat) : Parser (List Param) := do
  expectPunct "("
  skipVoid
  if ← eatPunct ")" then
    return []
  else
    paramTail n 0

def memberNames : Nat → ShaderType → Parser (List Member)
  | 0, _ => fail .budgetSpent
  | n + 1, base => do
    let name ← expectIdent
    let type ← arraySuffix n base
    let m : Member := { name := name, type := type }
    if ← eatPunct "," then
      let others ← memberNames n base
      return m :: others
    else
      expectPunct ";"
      return [m]

def skipPrecisions : Nat → Parser Unit
  | 0 => fail .budgetSpent
  | n + 1 => do
    match ← peekText with
    | some text =>
      if precisions.contains text then
        skip
        skipPrecisions n
      else
        return ()
    | none => return ()

def members : Nat → Parser (List Member)
  | 0 => fail .budgetSpent
  | n + 1 => do
    if ← eatPunct "\x7d" then
      return []
    else
      skipPrecisions n
      let base ← typeSpec n
      let group ← memberNames n base
      let others ← members n
      return group ++ others

def structItem (n : Nat) : Parser (List Item) := do
  skip
  let name ← expectIdent
  expectPunct "\x7b"
  let fields ← members n
  declareStruct name
  let item := Item.struct { name := name, members := fields }
  if ← eatPunct ";" then
    return [item]
  else
    let first ← expectIdent
    let decls ← declarators n .var (.struct name) first
    return [item, .globals decls]

def item (n : Nat) : Parser (List Item) := do
  if ← eatPunct ";" then
    return []
  else if ← eatIdent "precision" then
    skipStatement
    return []
  else if ← atIdent "struct" then
    structItem n
  else
    let storage ← globalQualifiers n .var
    let type ← typeSpec n
    let name ← expectIdent
    if ← atPunct "(" then
      let ps ← params n
      if ← eatPunct ";" then
        return []
      else
        let body ← block n
        return [.function
          { name := name, returns := type, params := ps, body := body, isEntry := false }]
    else
      let decls ← declarators n storage type name
      return [.globals decls]

def items : Nat → Parser (List Item)
  | 0 => fail .budgetSpent
  | n + 1 => do
    match ← peek with
    | none => return []
    | some _ =>
      let first ← item n
      let others ← items n
      return first ++ others

def streamOf (source : String) : Stream :=
  let tokens := (Token.tokenizePlaced source).filter fun t => !t.isTrivia
  match tokens.getLast? with
  | some t => { rest := tokens, lastLine := t.line, lastColumn := t.column, structs := [] }
  | none => { rest := [], lastLine := 0, lastColumn := 0, structs := [] }

/-- The calls that suffice to read a stream. -/
def budget (s : Stream) : Nat :=
  16 * s.rest.length + 16

end ShaderEffect.Parser

namespace ShaderEffect

def Program.parse (source : String) : Except SyntaxError Program :=
  let s := Parser.streamOf source
  match Parser.items (Parser.budget s) s with
  | .ok (items, _) => .ok { items := items }
  | .error e => .error e

end ShaderEffect
