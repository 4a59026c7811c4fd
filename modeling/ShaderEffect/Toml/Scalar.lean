import ShaderEffect.Text.Numeral
import ShaderEffect.Toml.Value

/-!
# Strings, numbers and times of TOML

A reader takes characters from the front of a text and gives a value with the rest, or nothing if
the text does not start with such a value.
-/

namespace ShaderEffect

open Text

abbrev TomlReader (α : Type) := List Char → Option (α × List Char)

namespace TomlReader

def isSpace (c : Char) : Bool :=
  c == ' ' || c == '\t'

def isPlain (c : Char) : Bool :=
  c == '\t' || (32 ≤ c.toNat && c.toNat != 127)

def afterBreak : List Char → Option (List Char)
  | '\n' :: cs => some cs
  | '\r' :: '\n' :: cs => some cs
  | _ => none

/-! ## Strings -/

def charOfHex (digits : List Char) : Option Char :=
  if digits.all isHexDigit then
    (readNat 16 digits).bind fun n => if n.isValidChar then some (Char.ofNat n) else none
  else none

def escapeOf (c : Char) : Option Char :=
  if c == '"' || c == '\\' then some c
  else if c == 'b' then some (Char.ofNat 8)
  else if c == 't' then some '\t'
  else if c == 'n' then some '\n'
  else if c == 'f' then some (Char.ofNat 12)
  else if c == 'r' then some '\r'
  else none

def escape : TomlReader Char
  | 'u' :: cs => (charOfHex (cs.take 4)).bind fun c =>
      if cs.length < 4 then none else some (c, cs.drop 4)
  | 'U' :: cs => (charOfHex (cs.take 8)).bind fun c =>
      if cs.length < 8 then none else some (c, cs.drop 8)
  | c :: cs => (escapeOf c).map fun e => (e, cs)
  | [] => none

/-- Reads the characters of a string up to its closing quote. Every round takes a character; there
is fuel for all. -/
def basicChars : Nat → TomlReader (List Char)
  | 0, _ => none
  | _, [] => none
  | fuel + 1, c :: cs =>
    if c == '"' then some ([], cs)
    else if c == '\\' then do
      let (e, cs) ← escape cs
      let (more, cs) ← basicChars fuel cs
      some (e :: more, cs)
    else if isPlain c then do
      let (more, cs) ← basicChars fuel cs
      some (c :: more, cs)
    else none

def apostrophe : Char := Char.ofNat 39

def literalChars : TomlReader (List Char)
  | [] => none
  | c :: cs =>
    if c == apostrophe then some ([], cs)
    else if isPlain c then (literalChars cs).map fun r => (c :: r.1, r.2)
    else none

/-- The end of a string of several lines: three quotes, before which up to two more belong to the
string. -/
def longEnd (quote : Char) (cs : List Char) : Option (List Char × List Char) :=
  let count := (cs.takeWhile (· == quote)).length
  if count < 3 then none
  else
    let inside := min (count - 3) 2
    some (List.replicate inside quote, cs.drop (inside + 3))

def skipBreaks : List Char → List Char
  | '\r' :: '\n' :: cs => skipBreaks cs
  | c :: cs => if isSpace c || c == '\n' then skipBreaks cs else c :: cs
  | [] => []

/-- A backslash at the end of a line takes away all blanks and line breaks up to the next
character. -/
def afterLineEscape (cs : List Char) : Option (List Char) :=
  (afterBreak (cs.dropWhile isSpace)).map skipBreaks

def longChars (quote : Char) (escapes : Bool) : Nat → TomlReader (List Char)
  | 0, _ => none
  | _, [] => none
  | fuel + 1, c :: cs =>
    match longEnd quote (c :: cs) with
    | some r => some r
    | none =>
      if escapes && c == '\\' then
        match afterLineEscape cs with
        | some cs => longChars quote escapes fuel cs
        | none => do
          let (e, cs) ← escape cs
          let (more, cs) ← longChars quote escapes fuel cs
          some (e :: more, cs)
      else
        match afterBreak (c :: cs) with
        | some cs => (longChars quote escapes fuel cs).map fun r => ('\n' :: r.1, r.2)
        | none =>
          if isPlain c then (longChars quote escapes fuel cs).map fun r => (c :: r.1, r.2)
          else none

/-- Reads a string of several lines after its opening quotes. A line break at its start does not
count. -/
def long (quote : Char) (escapes : Bool) : TomlReader (List Char) := fun cs =>
  longChars quote escapes (cs.length + 1) ((afterBreak cs).getD cs)

def shortString : TomlReader String := fun cs =>
  match cs with
  | [] => none
  | c :: rest =>
    let chars := if c == '"' then basicChars (rest.length + 1) rest
      else if c == apostrophe then literalChars rest
      else none
    chars.map fun r => (String.ofList r.1, r.2)

def string : TomlReader String := fun cs =>
  match cs with
  | a :: b :: c :: rest =>
    if a == b && b == c && (a == '"' || a == apostrophe) then
      (long a (a == '"') rest).map fun r => (String.ofList r.1, r.2)
    else shortString cs
  | _ => shortString cs

/-! ## Numbers -/

/-- Reads on in a run of digits. A single underscore may stand between two digits. -/
def moreDigits (isDigit : Char → Bool) : List Char → List Char × List Char
  | '_' :: c :: cs =>
    if isDigit c then
      let (ds, rest) := moreDigits isDigit cs
      (c :: ds, rest)
    else ([], '_' :: c :: cs)
  | c :: cs =>
    if isDigit c then
      let (ds, rest) := moreDigits isDigit cs
      (c :: ds, rest)
    else ([], c :: cs)
  | [] => ([], [])

def digitRun (isDigit : Char → Bool) : TomlReader (List Char)
  | c :: cs =>
    if isDigit c then
      let (ds, rest) := moreDigits isDigit cs
      some (c :: ds, rest)
    else none
  | [] => none

def sign : List Char → List Char × List Char
  | '+' :: cs => (['+'], cs)
  | '-' :: cs => (['-'], cs)
  | cs => ([], cs)

/-- Reads decimal digits after an optional sign. Only zero starts with a zero. -/
def decimal : TomlReader (List Char) := fun cs =>
  let (s, cs) := sign cs
  match cs with
  | '0' :: rest => some (s ++ ['0'], rest)
  | cs => (digitRun Char.isDigit cs).map fun r => (s ++ r.1, r.2)

def radixInteger (radix : Nat) : TomlReader Toml := fun cs => do
  let (ds, rest) ← digitRun (fun c => (digitIn radix c).isSome) cs
  let v ← readInt64 radix ds
  some (.integer v, rest)

def integer : TomlReader Toml := fun cs =>
  match cs with
  | '0' :: 'x' :: rest => radixInteger 16 rest
  | '0' :: 'o' :: rest => radixInteger 8 rest
  | '0' :: 'b' :: rest => radixInteger 2 rest
  | cs => do
    let (ds, rest) ← decimal cs
    let v ← readInt64 10 ds
    some (.integer v, rest)

def fraction : TomlReader (List Char)
  | '.' :: cs => (digitRun Char.isDigit cs).map fun r => ('.' :: r.1, r.2)
  | _ => none

def exponent : TomlReader (List Char)
  | c :: cs =>
    if c == 'e' || c == 'E' then
      let (s, cs) := sign cs
      (digitRun Char.isDigit cs).map fun r => ('e' :: (s ++ r.1), r.2)
    else none
  | [] => none

def realTail : TomlReader (List Char) := fun cs =>
  match fraction cs with
  | some (f, rest) =>
    match exponent rest with
    | some (e, rest) => some (f ++ e, rest)
    | none => some (f, rest)
  | none => exponent cs

def digitsValue (cs : List Char) : Nat :=
  (readNat 10 (cs.filter Char.isDigit)).getD 0

def exponentValue (cs : List Char) : Int :=
  match cs.dropWhile (· != 'e') with
  | _ :: '-' :: ds => -(digitsValue ds : Int)
  | _ :: ds => digitsValue ds
  | [] => 0

/-- Whether the text of a real without a minus sign writes more than the largest float. The place of
the last digit and the number of digits decide, except near the limit. -/
def isTooLarge (cs : List Char) : Bool :=
  let mantissa := cs.takeWhile (· != 'e')
  let digits := digitsValue mantissa
  let places := ((mantissa.dropWhile (· != '.')).drop 1).length
  let power := exponentValue cs - places
  let size := (Nat.toDigits 10 digits).length + power
  if digits == 0 || size < 300 then false
  else if 320 < size then true
  else if 0 ≤ power then (Float.ofScientific digits false power.toNat).isInf
  else (Float.ofScientific digits true (-power).toNat).isInf

/-- Reads a real of digits. It may not be infinite, unless it is negative. -/
def digitReal : TomlReader Toml := fun cs => do
  let (whole, rest) ← decimal cs
  let (tail, rest) ← realTail rest
  let text := whole ++ tail
  if text.head? != some '-' && isTooLarge text then none
  else some (.real (String.ofList text), rest)

def wordReal : TomlReader Toml := fun cs =>
  let (s, rest) := sign cs
  match rest with
  | 'i' :: 'n' :: 'f' :: rest => some (.real (String.ofList (s ++ ['i', 'n', 'f'])), rest)
  | 'n' :: 'a' :: 'n' :: rest => some (.real (String.ofList (s ++ ['n', 'a', 'n'])), rest)
  | _ => none

/-! ## Dates and times -/

def fixedNumber (count least most : Nat) : TomlReader Nat := fun cs =>
  let ds := cs.take count
  if ds.length == count && ds.all Char.isDigit then
    let n := digitsValue ds
    if least ≤ n && n ≤ most then some (n, cs.drop count) else none
  else none

def mark (m : Char) : List Char → Option (List Char)
  | c :: cs => if c == m then some cs else none
  | [] => none

def monthDays (year month : Nat) : Nat :=
  if month == 2 then
    if year % 4 == 0 && (year % 100 != 0 || year % 400 == 0) then 29 else 28
  else if month == 4 || month == 6 || month == 9 || month == 11 then 30
  else 31

def afterDate (cs : List Char) : Option (List Char) := do
  let (year, cs) ← fixedNumber 4 0 9999 cs
  let cs ← mark '-' cs
  let (month, cs) ← fixedNumber 2 1 12 cs
  let cs ← mark '-' cs
  let (_, cs) ← fixedNumber 2 1 (monthDays year month) cs
  some cs

def afterSecond (cs : List Char) : Option (List Char) :=
  match cs with
  | '.' :: c :: rest => if c.isDigit then some (rest.dropWhile Char.isDigit) else none
  | '.' :: [] => none
  | cs => some cs

def afterTime (cs : List Char) : Option (List Char) := do
  let (_, cs) ← fixedNumber 2 0 23 cs
  let cs ← mark ':' cs
  let (_, cs) ← fixedNumber 2 0 59 cs
  let cs ← mark ':' cs
  let (_, cs) ← fixedNumber 2 0 60 cs
  afterSecond cs

def afterOffset (cs : List Char) : Option (List Char) :=
  match cs with
  | 'Z' :: cs => some cs
  | 'z' :: cs => some cs
  | c :: rest =>
    if c == '+' || c == '-' then do
      let (_, cs) ← fixedNumber 2 0 23 rest
      let cs ← mark ':' cs
      let (_, cs) ← fixedNumber 2 0 59 cs
      some cs
    else some (c :: rest)
  | [] => some []

def afterMoment (cs : List Char) : Option (List Char) :=
  match afterDate cs with
  | some rest =>
    match rest with
    | c :: more =>
      if c == 'T' || c == 't' || c == ' ' then
        match afterTime more with
        | some more => afterOffset more
        | none => some rest
      else some rest
    | [] => some []
  | none => afterTime cs

def moment : TomlReader Toml := fun cs =>
  (afterMoment cs).map fun rest =>
    (.moment (String.ofList (cs.take (cs.length - rest.length))), rest)

def plainValue : TomlReader Toml := fun cs =>
  match cs with
  | 't' :: 'r' :: 'u' :: 'e' :: rest => some (.boolean true, rest)
  | 'f' :: 'a' :: 'l' :: 's' :: 'e' :: rest => some (.boolean false, rest)
  | cs => (moment cs).or ((digitReal cs).or ((wordReal cs).or (integer cs)))

def scalar : TomlReader Toml := fun cs =>
  ((string cs).map fun r => (Toml.string r.1, r.2)).or (plainValue cs)

end TomlReader

end ShaderEffect
