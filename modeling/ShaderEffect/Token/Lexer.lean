import ShaderEffect.Text.Blank
import ShaderEffect.Text.Search
import ShaderEffect.Text.Numeral
import ShaderEffect.Token.Basic

/-!
# Cutting source text into tokens

`next` cuts the longest token off the front of a non-empty text, and `tokenize` repeats it. Every
step takes at least the first character (`length_next_lt`), so the text is exhausted; what a step
takes and what it leaves concatenate to the text (`next_append`).
-/

namespace ShaderEffect.Token

open ShaderEffect.Text

/-! ## Parts of tokens -/

/-- The punctuators, each before its own prefixes. -/
def punctuators : List String :=
  ["<<=", ">>=", "++", "--", "<<", ">>", "<=", ">=", "==", "!=", "&&", "||", "^^", "+=", "-=",
    "*=", "/=", "%=", "&=", "|=", "^=", "##", "+", "-", "*", "/", "%", "<", ">", "=", "!", "&",
    "|", "^", "~", "?", ":", ";", ",", ".", "(", ")", "\x7b", "\x7d", "[", "]", "#"]

/-- Space, tabulator, carriage return and form feed: the blanks that end no line. -/
def isInlineBlank (c : Char) : Bool :=
  c == ' ' || c == '\t' || c == '\r' || c == '\x0c'

/-- The length of a quoted text after its opening quote: up to and with the next quote or line
feed, where a backslash takes the character after it along. -/
def quotedLength : List Char → Nat
  | [] => 0
  | '"' :: _ => 1
  | '\n' :: _ => 1
  | '\\' :: _ :: cs => quotedLength cs + 2
  | _ :: cs => quotedLength cs + 1

def digitsLength (cs : List Char) : Nat :=
  (cs.takeWhile Char.isDigit).length

/-- The length of a decimal point and the digits after it, zero without the point. -/
def fractionLength : List Char → Nat
  | '.' :: cs => digitsLength cs + 1
  | _ => 0

/-- The length of an exponent with its mark, zero unless a digit follows mark and sign. -/
def exponentLength : List Char → Nat
  | e :: s :: d :: cs =>
    if e == 'e' || e == 'E' then
      if s.isDigit then digitsLength (s :: d :: cs) + 1
      else if (s == '+' || s == '-') && d.isDigit then digitsLength (d :: cs) + 2
      else 0
    else 0
  | [e, d] => if (e == 'e' || e == 'E') && d.isDigit then 2 else 0
  | _ => 0

/-- The length and the kind of the suffix of a decimal number: `lf` and `f` in either case make it
a float, and `u` ends an integer. -/
def suffixOf (isFloat : Bool) : List Char → Nat × Bool
  | 'l' :: 'f' :: _ => (2, true)
  | 'L' :: 'F' :: _ => (2, true)
  | 'f' :: _ => (1, true)
  | 'F' :: _ => (1, true)
  | 'u' :: _ => (if isFloat then 0 else 1, isFloat)
  | 'U' :: _ => (if isFloat then 0 else 1, isFloat)
  | _ => (0, isFloat)

def hexLength (cs : List Char) : Nat :=
  let digits := (cs.takeWhile isHexDigit).length
  match cs.drop digits with
  | 'u' :: _ => digits + 1
  | 'U' :: _ => digits + 1
  | _ => digits

def decimalLength (cs : List Char) : Nat × TokenKind :=
  let whole := digitsLength cs
  let fraction := fractionLength (cs.drop whole)
  let exponent := exponentLength (cs.drop (whole + fraction))
  let body := whole + fraction + exponent
  let suffix := suffixOf (fraction != 0 || exponent != 0) (cs.drop body)
  (body + suffix.1, if suffix.2 then .float else .int)

def numberLength : List Char → Nat × TokenKind
  | '0' :: 'x' :: cs => (hexLength cs + 2, .int)
  | '0' :: 'X' :: cs => (hexLength cs + 2, .int)
  | cs => decimalLength cs

/-- The length of a block comment after its opening `/*`, all of the text if it is not closed. -/
def blockCommentLength (cs : List Char) : Nat :=
  match cutAt ['*', '/'] cs with
  | some (inner, _) => inner.length + 2
  | none => cs.length

def punctuatorAt (cs : List Char) : Option String :=
  punctuators.find? fun p => p.toList.isPrefixOf cs

/-- A number starts with a digit, or with a point before a digit. -/
def startsNumber : List Char → Bool
  | '.' :: d :: _ => d.isDigit
  | c :: _ => c.isDigit
  | [] => false

/-! ## One token -/

/-- The kind and the length of the token at the front of a text. The length counts the first
character `c`; a comment or a quoted text may run to the end of the text. -/
def measure (c : Char) (cs : List Char) : TokenKind × Nat :=
  if c == '\n' then (.newline, 1)
  else if isInlineBlank c then (.space, (cs.takeWhile isInlineBlank).length + 1)
  else if c == '/' && cs.head? == some '/' then
    (.comment, (cs.takeWhile (· != '\n')).length + 1)
  else if c == '/' && cs.head? == some '*' then (.comment, blockCommentLength (cs.drop 1) + 2)
  else if isWordStart c then (.ident, (cs.takeWhile isWordRest).length + 1)
  else if startsNumber (c :: cs) then
    let n := numberLength (c :: cs)
    (n.2, n.1)
  else if c == '"' then (.str, quotedLength cs + 1)
  else
    match punctuatorAt (c :: cs) with
    | some p => (.punct, p.toList.length)
    | none => (.other, 1)

/-- The token at the front of a non-empty text, and the text after it. A token takes at least the
first character. -/
def next (c : Char) (cs : List Char) : Token × List Char :=
  let m := measure c cs
  (⟨m.1, String.ofList (c :: cs.take (m.2 - 1))⟩, cs.drop (m.2 - 1))

theorem length_next_lt (c : Char) (cs : List Char) :
    (next c cs).2.length < (c :: cs).length := by
  simp only [next, List.length_drop, List.length_cons]
  omega

theorem next_append (c : Char) (cs : List Char) :
    (next c cs).1.text.toList ++ (next c cs).2 = c :: cs := by
  simp [next]

/-! ## All tokens -/

def tokenizeChars (cs : List Char) : List Token :=
  match cs with
  | [] => []
  | c :: rest => (next c rest).1 :: tokenizeChars (next c rest).2
termination_by cs.length
decreasing_by exact length_next_lt c rest

def advance (line column : Nat) : List Char → Nat × Nat
  | [] => (line, column)
  | '\n' :: cs => advance (line + 1) 1 cs
  | _ :: cs => advance line (column + 1) cs

def place (line column : Nat) : List Token → List PlacedToken
  | [] => []
  | t :: ts =>
    let p := advance line column t.text.toList
    { toToken := t, line := line, column := column } :: place p.1 p.2 ts

def tokenize (s : String) : List Token :=
  tokenizeChars s.toList

def tokenizePlaced (s : String) : List PlacedToken :=
  place 1 1 (tokenize s)

end ShaderEffect.Token
