/-!
# Numerals

Reading of integers written in a radix up to sixteen. A numeral needs at least one digit and may
carry a sign where the caller admits one.
-/

namespace ShaderEffect.Text

/-- The value of a digit: decimal digits, then the letters of either case. -/
def digitValue (c : Char) : Option Nat :=
  if '0' ≤ c && c ≤ '9' then some (c.toNat - '0'.toNat)
  else if 'a' ≤ c && c ≤ 'f' then some (c.toNat - 'a'.toNat + 10)
  else if 'A' ≤ c && c ≤ 'F' then some (c.toNat - 'A'.toNat + 10)
  else none

def digitIn (radix : Nat) (c : Char) : Option Nat :=
  (digitValue c).filter (· < radix)

def readDigits (radix : Nat) (acc : Nat) : List Char → Option Nat
  | [] => some acc
  | c :: cs =>
    match digitIn radix c with
    | some d => readDigits radix (acc * radix + d) cs
    | none => none

def readNat (radix : Nat) : List Char → Option Nat
  | [] => none
  | c :: cs => readDigits radix 0 (c :: cs)

def readUnsigned (radix : Nat) : List Char → Option Nat
  | '+' :: cs => readNat radix cs
  | cs => readNat radix cs

def readSigned (radix : Nat) : List Char → Option Int
  | '-' :: cs => (readNat radix cs).map fun n => -(n : Int)
  | cs => (readUnsigned radix cs).map fun n => (n : Int)

def inInt64 (v : Int) : Bool :=
  -9223372036854775808 ≤ v && v ≤ 9223372036854775807

def readInt64 (radix : Nat) (cs : List Char) : Option Int :=
  (readSigned radix cs).filter inInt64

def readBelow (limit radix : Nat) (cs : List Char) : Option Nat :=
  (readUnsigned radix cs).filter (· < limit)

def isHexDigit (c : Char) : Bool :=
  (digitValue c).isSome

end ShaderEffect.Text
