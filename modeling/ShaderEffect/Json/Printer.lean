import ShaderEffect.Decimal.Shortest
import ShaderEffect.Json.Value

/-!
# JSON as text

Values are written without blanks. A float keeps a digit behind its point and is written with an
exponent if its leading digit stands more than fifteen places before the point or more than five
behind it.
-/

namespace ShaderEffect

namespace Decimal

def positional (ds : List Char) (place : Int) : List Char :=
  if place < 0 then '0' :: '.' :: (List.replicate (-place - 1).toNat '0' ++ ds)
  else
    let width := place.toNat + 1
    let whole := ds.take width ++ List.replicate (width - ds.length) '0'
    let fraction := ds.drop width
    whole ++ '.' :: (if fraction.isEmpty then ['0'] else fraction)

def scientific (ds : List Char) (place : Int) : List Char :=
  let fraction := ds.drop 1
  ds.take 1 ++ (if fraction.isEmpty then [] else '.' :: fraction) ++
    'e' :: (if place < 0 then '-' else '+') :: Nat.toDigits 10 place.natAbs

def text (d : Decimal) : List Char :=
  if d.digits == 0 then ['0', '.', '0']
  else if -5 ≤ d.leadingPlace && d.leadingPlace ≤ 15 then
    positional d.significant d.leadingPlace
  else scientific d.significant d.leadingPlace

end Decimal

namespace JsonNumber

def isNegative (x : Float) : Bool :=
  9223372036854775808 ≤ x.toBits.toNat

def text : JsonNumber → String
  | .integer v => toString v
  | .real x =>
    String.ofList ((if isNegative x then ['-'] else []) ++ (Decimal.ofFloat x).text)

end JsonNumber

namespace Json

def hexDigit (n : Nat) : Char :=
  ['0', '1', '2', '3', '4', '5', '6', '7', '8', '9', 'a', 'b', 'c', 'd', 'e', 'f'].getD n '0'

def escapeChar (c : Char) : List Char :=
  if c == '"' then ['\\', '"']
  else if c == '\\' then ['\\', '\\']
  else if c == '\n' then ['\\', 'n']
  else if c == '\r' then ['\\', 'r']
  else if c == '\t' then ['\\', 't']
  else if c.toNat == 8 then ['\\', 'b']
  else if c.toNat == 12 then ['\\', 'f']
  else if c.toNat < 32 then ['\\', 'u', '0', '0', hexDigit (c.toNat / 16), hexDigit (c.toNat % 16)]
  else [c]

def quote (s : String) : String :=
  "\"" ++ String.ofList (s.toList.flatMap escapeChar) ++ "\""

mutual

def text : Json → String
  | .null => "null"
  | .bool b => if b then "true" else "false"
  | .number n => n.text
  | .string s => quote s
  | .array items => "[" ++ String.intercalate "," (textItems items) ++ "]"
  | .object members => "\x7b" ++ String.intercalate "," (textMembers members) ++ "\x7d"

def textItems : List Json → List String
  | [] => []
  | j :: js => j.text :: textItems js

def textMembers : List (String × Json) → List String
  | [] => []
  | (name, value) :: ms => (quote name ++ ":" ++ value.text) :: textMembers ms

end

end Json

end ShaderEffect
