import ShaderEffect.Text.Numeral
import ShaderEffect.Text.Search

/-!
# Spelling of literals

The tree holds literals in the spelling that the target language accepts: octal integers become
decimal, float suffixes are dropped, and a float without point and exponent gains `.0`.
-/

namespace ShaderEffect.Literal

open ShaderEffect.Text

def isUnsignedMark (c : Char) : Bool :=
  c == 'u' || c == 'U'

def splitMark (cs : List Char) : List Char × Bool :=
  match cs.getLast? with
  | some c => if isUnsignedMark c then (cs.dropLast, true) else (cs, false)
  | none => (cs, false)

/-- The value of an octal literal that fits a word of 64 bits: a zero before octal digits. -/
def octalValue : List Char → Option Nat
  | '0' :: c :: cs => readBelow UInt64.size 8 (c :: cs)
  | _ => none

/-- The spelling of an integer literal: an octal one becomes decimal, and the unsigned mark becomes
a small letter. -/
def int (text : String) : String :=
  let (digits, unsigned) := splitMark text.toList
  let mark := if unsigned then "u" else ""
  match octalValue digits with
  | some v => toString v ++ mark
  | none => String.ofList digits ++ mark

def dropFloatMark (cs : List Char) : List Char :=
  match cs.reverse with
  | 'f' :: 'l' :: r => r.reverse
  | 'F' :: 'L' :: r => r.reverse
  | 'f' :: r => r.reverse
  | 'F' :: r => r.reverse
  | _ => cs

def float (text : String) : String :=
  let digits := dropFloatMark text.toList
  if digits.any fun c => c == '.' || c == 'e' || c == 'E' then String.ofList digits
  else String.ofList digits ++ ".0"

def wordValue : List Char → Option Nat
  | '0' :: 'x' :: cs => readBelow UInt64.size 16 cs
  | '0' :: 'X' :: cs => readBelow UInt64.size 16 cs
  | cs => readBelow UInt64.size 10 cs

def floatOfInt (text : String) : String :=
  let digits := dropEndWhile isUnsignedMark text.toList
  match wordValue digits with
  | some v => toString v ++ ".0"
  | none => String.ofList digits ++ ".0"

def arrayLength (text : String) : Option Nat :=
  readBelow UInt32.size 10 (dropEndWhile isUnsignedMark text.toList)

end ShaderEffect.Literal
