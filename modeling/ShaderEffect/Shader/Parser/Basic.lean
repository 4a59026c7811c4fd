import ShaderEffect.Token.Lexer
import ShaderEffect.Shader.Type

/-!
# Reading a token stream

The state of a reader, its errors, and the steps that read one token. A reader that recurses takes a
budget of calls; a budget computed from the number of tokens is never spent, because each reader
takes a token within a fixed number of calls.
-/

namespace ShaderEffect

/-- What is wrong with a shader body. A missing token is reported as the end of the input. -/
inductive SyntaxFault where
  | expectedPunct (want : String) (found : Option String)
  | expectedIdent (found : Option String)
  | expectedType (found : Option String)
  | expectedStatement
  | expectedExpression
  | expectedWhile
  | unexpectedEnd
  | unexpectedToken (text : String)
  | unterminatedParenthesis
  | arrayLengthValue (text : String)
  | arrayLengthForm
  | strayStatement
  | budgetSpent
  deriving Repr, DecidableEq

structure SyntaxError where
  line : Nat
  column : Nat
  fault : SyntaxFault
  deriving Repr, DecidableEq

namespace SyntaxFault

def describe : Option String → String
  | some text => "`" ++ text ++ "`"
  | none => "end of input"

def message : SyntaxFault → String
  | .expectedPunct want found => "expected `" ++ want ++ "` but found " ++ describe found
  | .expectedIdent found => "expected an identifier but found " ++ describe found
  | .expectedType found => "expected a type but found " ++ describe found
  | .expectedStatement => "expected a statement but found end of input"
  | .expectedExpression => "expected an expression but found end of input"
  | .expectedWhile => "expected `while` after `do` body"
  | .unexpectedEnd => "unexpected end of input"
  | .unexpectedToken text => "unexpected `" ++ text ++ "` in expression"
  | .unterminatedParenthesis => "unterminated parenthesis"
  | .arrayLengthValue text => "unsupported array length `" ++ text ++ "`"
  | .arrayLengthForm => "array lengths must be literals or named constants"
  | .strayStatement => "statement before first `case` label"
  | .budgetSpent => "nesting too deep"

end SyntaxFault

namespace SyntaxError

def message (e : SyntaxError) : String :=
  "syntax error at " ++ toString e.line ++ ":" ++ toString e.column ++ ": " ++ e.fault.message

end SyntaxError

/-- The tokens still to be read, the position of the last token of the source, and the structures
declared so far. -/
structure Stream where
  rest : List PlacedToken
  lastLine : Nat
  lastColumn : Nat
  structs : List String

/-- A reader takes tokens off a stream and gives a value, or stops with an error. -/
def Parser (α : Type) : Type :=
  Stream → Except SyntaxError (α × Stream)

namespace Parser

def pure {α : Type} (a : α) : Parser α :=
  fun s => .ok (a, s)

def bind {α β : Type} (p : Parser α) (f : α → Parser β) : Parser β :=
  fun s =>
    match p s with
    | .ok (a, t) => f a t
    | .error e => .error e

instance : Monad Parser where
  pure := Parser.pure
  bind := Parser.bind

/-- Stops at the next token, or at the last one of the source when none is left. -/
def fail {α : Type} (fault : SyntaxFault) : Parser α :=
  fun s =>
    match s.rest with
    | t :: _ => .error ⟨t.line, t.column, fault⟩
    | [] => .error ⟨s.lastLine, s.lastColumn, fault⟩

def peek : Parser (Option PlacedToken) :=
  fun s => .ok (s.rest.head?, s)

def ahead : Parser (List PlacedToken) :=
  fun s => .ok (s.rest, s)

def advance : Parser (Option PlacedToken) :=
  fun s => .ok (s.rest.head?, { s with rest := s.rest.tail })

def skip : Parser Unit :=
  fun s => .ok ((), { s with rest := s.rest.tail })

def peekText : Parser (Option String) :=
  fun s => .ok (s.rest.head?.map fun t => t.text, s)

def atPunct (text : String) : Parser Bool :=
  fun s => .ok (s.rest.head?.any fun t => t.isPunct text, s)

def eatPunct (text : String) : Parser Bool := do
  if ← atPunct text then
    skip
    return true
  else
    return false

def atIdent (text : String) : Parser Bool :=
  fun s => .ok (s.rest.head?.any fun t => t.isIdent text, s)

def eatIdent (text : String) : Parser Bool := do
  if ← atIdent text then
    skip
    return true
  else
    return false

def expectPunct (text : String) : Parser Unit := do
  if ← eatPunct text then
    return ()
  else
    fail (.expectedPunct text (← peekText))

def expectIdent : Parser String := do
  match ← peek with
  | some t =>
    if t.kind == .ident then
      skip
      return t.text
    else
      fail (.expectedIdent (some t.text))
  | none => fail (.expectedIdent none)

def isStruct (name : String) : Parser Bool :=
  fun s => .ok (s.structs.contains name, s)

def declareStruct (name : String) : Parser Unit :=
  fun s => .ok ((), { s with structs := name :: s.structs })

def typeNamed (name : String) : Parser (Option ShaderType) :=
  fun s =>
    .ok (if s.structs.contains name then some (.struct name) else ShaderType.ofName name, s)

/-- The tokens after the closing parenthesis of as many open ones as `depth` says. -/
def afterParens (depth : Nat) : List PlacedToken → Option (List PlacedToken)
  | [] => none
  | t :: ts =>
    if t.isPunct "(" then afterParens (depth + 1) ts
    else if t.isPunct ")" then
      if depth ≤ 1 then some ts else afterParens (depth - 1) ts
    else afterParens depth ts

def skipParens : Parser Unit := do
  expectPunct "("
  fun s =>
    match afterParens 1 s.rest with
    | some rest => .ok ((), { s with rest := rest })
    | none => .error ⟨s.lastLine, s.lastColumn, .unterminatedParenthesis⟩

def skipStatement : Parser Unit :=
  fun s => .ok ((), { s with rest := (s.rest.dropWhile fun t => !t.isPunct ";").tail })

end Parser

end ShaderEffect
