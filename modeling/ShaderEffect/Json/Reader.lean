import ShaderEffect.Json.Error
import ShaderEffect.Json.Value
import ShaderEffect.Text.Numeral

/-!
# Reading JSON

A reader takes characters from the front of a text and gives a value with the rest. A failed reader
tells how many bytes of the text come after the place of the fault, from which the place is found at
the end. Some faults are placed where the reader stands, others one byte further on.

Arrays and objects may be nested 127 deep.
-/

namespace ShaderEffect

open Text

structure JsonStop where
  fault : JsonFault
  left : Nat
  deriving Repr, DecidableEq

abbrev JsonReader (α : Type) := List Char → Except JsonStop (α × List Char)

namespace JsonReader

def byteCount (cs : List Char) : Nat :=
  cs.foldr (fun c n => c.utf8Size + n) 0

def stopAt {α : Type} (fault : JsonFault) (cs : List Char) : Except JsonStop α :=
  .error { fault := fault, left := byteCount cs }

def stopAfter {α : Type} (fault : JsonFault) (bytes : Nat) (cs : List Char) : Except JsonStop α :=
  .error { fault := fault, left := byteCount cs - bytes }

/-- A fault one byte further on; the end of the text is never passed. -/
def stopNext {α : Type} (fault : JsonFault) (cs : List Char) : Except JsonStop α :=
  stopAfter fault 1 cs

def isSpace (c : Char) : Bool :=
  c == ' ' || c == '\n' || c == '\t' || c == '\r'

def skip (cs : List Char) : List Char :=
  cs.dropWhile isSpace

/-! ## Words and strings -/

def word : List Char → List Char → Except JsonStop (List Char)
  | [], cs => .ok cs
  | _ :: _, [] => stopAt .endInValue []
  | w :: ws, c :: cs => if c == w then word ws cs else stopNext .wordExpected (c :: cs)

def fourDigits (a b c d : Char) : Option Nat := do
  let a ← digitIn 16 a
  let b ← digitIn 16 b
  let c ← digitIn 16 c
  let d ← digitIn 16 d
  pure (((a * 16 + b) * 16 + c) * 16 + d)

def codeUnit : JsonReader Nat := fun cs =>
  if byteCount cs < 4 then stopAt .endInString []
  else
    match cs with
    | a :: b :: c :: d :: rest =>
      match fourDigits a b c d with
      | some n => .ok (n, rest)
      | none => stopAfter .invalidEscape 4 cs
    | _ => stopAfter .invalidEscape 4 cs

/-- The first half of a pair of code units. -/
def isLeading (n : Nat) : Bool :=
  0xD800 ≤ n && n ≤ 0xDBFF

/-- The second half of a pair of code units. -/
def isTrailing (n : Nat) : Bool :=
  0xDC00 ≤ n && n ≤ 0xDFFF

def pairSign (sign : Char) (cs : List Char) : Except JsonStop (List Char) :=
  match cs with
  | [] => stopAt .endInString []
  | c :: rest => if c == sign then .ok rest else stopNext .escapeEnd (c :: rest)

def secondHalf (first : Nat) : JsonReader Char := fun cs => do
  let cs ← pairSign '\\' cs
  let cs ← pairSign 'u' cs
  let (second, cs) ← codeUnit cs
  if isTrailing second then
    .ok (Char.ofNat ((first - 0xD800) * 1024 + (second - 0xDC00) + 0x10000), cs)
  else stopAt .loneSurrogate cs

def unicodeEscape : JsonReader Char := fun cs => do
  let (n, cs) ← codeUnit cs
  if isTrailing n then stopAt .loneSurrogate cs
  else if isLeading n then secondHalf n cs
  else .ok (Char.ofNat n, cs)

def escapeOf (c : Char) : Option Char :=
  if c == '"' || c == '\\' || c == '/' then some c
  else if c == 'b' then some (Char.ofNat 8)
  else if c == 'f' then some (Char.ofNat 12)
  else if c == 'n' then some '\n'
  else if c == 'r' then some '\r'
  else if c == 't' then some '\t'
  else none

def escape : JsonReader Char := fun cs =>
  match cs with
  | [] => stopAt .endInString []
  | c :: rest =>
    if c == 'u' then unicodeEscape rest
    else
      match escapeOf c with
      | some e => .ok (e, rest)
      | none => stopNext .invalidEscape (c :: rest)

/-- Reads characters up to the closing quote. Every round takes a character; there is fuel for
all. -/
def chars : Nat → JsonReader (List Char)
  | 0, cs => stopAt .endInString cs
  | _, [] => stopAt .endInString []
  | fuel + 1, c :: cs =>
    if c == '"' then .ok ([], cs)
    else if c == '\\' then do
      let (e, cs) ← escape cs
      let (more, cs) ← chars fuel cs
      .ok (e :: more, cs)
    else if c.toNat < 32 then stopNext .controlCharacter (c :: cs)
    else do
      let (more, cs) ← chars fuel cs
      .ok (c :: more, cs)

def string : JsonReader String := fun cs => do
  let (more, cs) ← chars (cs.length + 1) cs
  .ok (String.ofList more, cs)

/-! ## Numbers -/

/-- Numbers below this one fit an unsigned word of 64 bits. -/
def wordLimit : Nat := UInt64.size

/-- The significant digits of a number as far as they fit a word, the power of ten that is still to
be applied, and the rest of the text. -/
structure Mantissa where
  digits : Nat
  power : Int
  rest : List Char
  deriving Repr

def digit? (c : Char) : Option Nat :=
  if c.isDigit then some (c.toNat - '0'.toNat) else none

/-- Reads digits as long as they fit, each of which takes the power down by `shift`. Tells whether
it stopped because one did not fit. -/
def digitRun (shift : Int) (digits : Nat) (power : Int) : List Char → Mantissa × Bool
  | [] => ({ digits := digits, power := power, rest := [] }, false)
  | c :: cs =>
    match digit? c with
    | some d =>
      if digits * 10 + d < wordLimit then digitRun shift (digits * 10 + d) (power - shift) cs
      else ({ digits := digits, power := power, rest := c :: cs }, true)
    | none => ({ digits := digits, power := power, rest := c :: cs }, false)

def skipDigits (cs : List Char) : List Char :=
  cs.dropWhile Char.isDigit

def powerOfTen (n : Nat) : Float :=
  Float.ofScientific 1 false n

/-- The float of digits and a power of ten: one rounding for the digits, and one for each product or
quotient. There is none if it would be infinite. A power below -308 is applied in parts until
nothing is left. -/
def scale : Nat → Float → Int → Option Float
  | 0, x, _ => some x
  | fuel + 1, x, power =>
    if power.natAbs ≤ 308 then
      if 0 ≤ power then
        let y := x * powerOfTen power.natAbs
        if y.isInf then none else some y
      else some (x / powerOfTen power.natAbs)
    else if x == 0 then some x
    else if 0 ≤ power then none
    else scale fuel (x / powerOfTen 308) (power + 308)

/-- The float of a mantissa. After four parts nothing is left of any word. -/
def toReal (positive : Bool) (m : Mantissa) : Except JsonStop (Json × List Char) :=
  match scale 8 m.digits.toUInt64.toFloat m.power with
  | some x => .ok (.number (.real (if positive then x else -x)), m.rest)
  | none => stopAt .numberOutOfRange m.rest

def clampPower (power : Int) : Int :=
  max (-2147483648) (min 2147483647 power)

/-- Reads the digits of an exponent; there is none if it leaves the range. The rest after the digit
that did so is given too. -/
def exponentRun (e : Nat) : List Char → Option Nat × List Char
  | [] => (some e, [])
  | c :: cs =>
    match digit? c with
    | some d => if e * 10 + d ≤ 2147483647 then exponentRun (e * 10 + d) cs else (none, cs)
    | none => (some e, c :: cs)

def exponentDigits (positive grows : Bool) (m : Mantissa) :
    Except JsonStop (Json × List Char) :=
  match m.rest with
  | [] => stopAt .endInValue []
  | c :: cs =>
    match digit? c with
    | none => stopNext .invalidNumber (c :: cs)
    | some d =>
      match exponentRun d cs with
      | (some e, rest) =>
        let power := clampPower (if grows then m.power + e else m.power - e)
        toReal positive { m with power := power, rest := rest }
      | (none, rest) =>
        if m.digits != 0 && grows then stopAt .numberOutOfRange rest
        else .ok (.number (.real (if positive then 0.0 else -0.0)), skipDigits rest)

def afterFraction (positive : Bool) (m : Mantissa) : Except JsonStop (Json × List Char) :=
  match m.rest with
  | c :: cs =>
    if c == 'e' || c == 'E' then
      match cs with
      | '+' :: cs => exponentDigits positive true { m with rest := cs }
      | '-' :: cs => exponentDigits positive false { m with rest := cs }
      | cs => exponentDigits positive true { m with rest := cs }
    else toReal positive m
  | [] => toReal positive m

/-- Reads a fraction after its point, and what follows. Digits that do not fit are dropped. -/
def fraction (positive : Bool) (m : Mantissa) : Except JsonStop (Json × List Char) :=
  match digitRun 1 m.digits m.power m.rest with
  | (n, true) => afterFraction positive { n with rest := skipDigits n.rest }
  | (n, false) =>
    if n.power == m.power then
      stopNext (if n.rest.isEmpty then .endInValue else .invalidNumber) n.rest
    else afterFraction positive n

def afterWhole (positive : Bool) (m : Mantissa) : Except JsonStop (Json × List Char) :=
  match m.rest with
  | '.' :: cs => fraction positive { m with rest := cs }
  | _ => afterFraction positive m

/-- The integer of a word, which is a float if it is negative zero or does not fit a signed word. -/
def toInteger (positive : Bool) (n : Nat) : JsonNumber :=
  if positive then .integer n
  else if 0 < n && n ≤ 9223372036854775808 then .integer (-n)
  else .real (-n.toUInt64.toFloat)

def afterWord (positive : Bool) (m : Mantissa) : Except JsonStop (Json × List Char) :=
  match m.rest with
  | c :: _ =>
    if c == '.' || c == 'e' || c == 'E' then afterWhole positive m
    else .ok (.number (toInteger positive m.digits), m.rest)
  | [] => .ok (.number (toInteger positive m.digits), [])

def countDigits (power : Int) : List Char → Int × List Char
  | [] => (power, [])
  | c :: cs => if c.isDigit then countDigits (power + 1) cs else (power, c :: cs)

def number (positive : Bool) : JsonReader Json := fun cs =>
  match cs with
  | [] => stopAt .endInValue []
  | c :: rest =>
    match digit? c with
    | none => stopNext .invalidNumber (c :: rest)
    | some 0 =>
      if rest.head?.any Char.isDigit then stopNext .invalidNumber rest
      else afterWord positive { digits := 0, power := 0, rest := rest }
    | some d =>
      match digitRun 0 d 0 rest with
      | (m, false) => afterWord positive m
      | (m, true) =>
        let (power, rest) := countDigits 0 m.rest
        afterWhole positive { m with power := power, rest := rest }

/-! ## Values -/

def scalar : JsonReader Json := fun cs =>
  match cs with
  | [] => stopNext .endInValue []
  | 'n' :: rest => (word ['u', 'l', 'l'] rest).map fun cs => (.null, cs)
  | 't' :: rest => (word ['r', 'u', 'e'] rest).map fun cs => (.bool true, cs)
  | 'f' :: rest => (word ['a', 'l', 's', 'e'] rest).map fun cs => (.bool false, cs)
  | '-' :: rest => number false rest
  | '"' :: rest => (string rest).map fun r => (.string r.1, r.2)
  | c :: rest => if c.isDigit then number true (c :: rest) else stopNext .valueExpected (c :: rest)

def nextItem (isFirst : Bool) (cs : List Char) : Except JsonStop (Option (List Char)) :=
  match skip cs with
  | [] => stopNext .endInList []
  | ']' :: _ => .ok none
  | c :: rest =>
    if isFirst then .ok (some (c :: rest))
    else if c == ',' then
      match skip rest with
      | [] => stopNext .endInValue []
      | ']' :: rest => stopNext .trailingComma (']' :: rest)
      | rest => .ok (some rest)
    else stopNext .listEndExpected (c :: rest)

/-- Reads the items of an array up to its end. Every item takes a character; there is fuel for
all. -/
def items (value : JsonReader Json) : Nat → Bool → JsonReader (List Json)
  | 0, _, cs => stopAt .endInList cs
  | fuel + 1, isFirst, cs => do
    match ← nextItem isFirst cs with
    | none => .ok ([], (skip cs).drop 1)
    | some cs =>
      let (j, cs) ← value cs
      let (js, cs) ← items value fuel false cs
      .ok (j :: js, cs)

def nextName (isFirst : Bool) (cs : List Char) : Except JsonStop (Option (List Char)) :=
  match skip cs with
  | [] => stopNext .endInObject []
  | '\x7d' :: _ => .ok none
  | c :: rest =>
    if isFirst then
      if c == '"' then .ok (some rest) else stopNext .keyExpected (c :: rest)
    else if c == ',' then
      match skip rest with
      | [] => stopNext .endInValue []
      | '"' :: rest => .ok (some rest)
      | '\x7d' :: rest => stopNext .trailingComma ('\x7d' :: rest)
      | rest => stopNext .keyExpected rest
    else stopNext .objectEndExpected (c :: rest)

def colon (cs : List Char) : Except JsonStop (List Char) :=
  match skip cs with
  | [] => stopNext .endInObject []
  | ':' :: rest => .ok rest
  | rest => stopNext .colonExpected rest

/-- Reads the members of an object up to its end, after those in `found`. Of two members with one
name the last counts. -/
def members (value : JsonReader Json) :
    Nat → Bool → List (String × Json) → JsonReader (List (String × Json))
  | 0, _, _, cs => stopAt .endInObject cs
  | fuel + 1, isFirst, found, cs => do
    match ← nextName isFirst cs with
    | none => .ok (found, (skip cs).drop 1)
    | some cs =>
      let (name, cs) ← string cs
      let cs ← colon cs
      let (j, cs) ← value cs
      members value fuel false (Json.insertMember name j found) cs

def value : Nat → JsonReader Json
  | 0, cs =>
    match skip cs with
    | '[' :: rest => stopNext .tooDeep ('[' :: rest)
    | '\x7b' :: rest => stopNext .tooDeep ('\x7b' :: rest)
    | cs => scalar cs
  | depth + 1, cs =>
    match skip cs with
    | '[' :: rest => do
      let (js, cs) ← items (value depth) (rest.length + 1) true rest
      .ok (.array js, cs)
    | '\x7b' :: rest => do
      let (ms, cs) ← members (value depth) (rest.length + 1) true [] rest
      .ok (.object ms, cs)
    | cs => scalar cs

def whole (cs : List Char) : Except JsonStop Json := do
  let (j, cs) ← value 127 cs
  match skip cs with
  | [] => .ok j
  | rest => stopNext .trailingCharacters rest

end JsonReader

namespace Json

def parse (text : List Char) : Except JsonError Json :=
  match JsonReader.whole text with
  | .ok j => .ok j
  | .error stop =>
    let offset := JsonReader.byteCount text - stop.left
    let (line, column) := JsonError.locate 1 0 offset text
    .error { fault := stop.fault, line := line, column := column }

end Json

end ShaderEffect
