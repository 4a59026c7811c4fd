/-!
# Blank characters

The characters with the Unicode property `White_Space`, and the removal of them from the ends of a
text. ASCII character classes of the shading language stand here too: its identifiers and numbers
admit ASCII alone, whatever letters the rest of a source holds.
-/

namespace ShaderEffect.Text

/-- The 25 characters of the Unicode property `White_Space`. -/
def isBlank (c : Char) : Bool :=
  let n := c.toNat
  (9 ≤ n && n ≤ 13) || n == 0x20 || n == 0x85 || n == 0xA0 || n == 0x1680 ||
    (0x2000 ≤ n && n ≤ 0x200A) || n == 0x2028 || n == 0x2029 || n == 0x202F || n == 0x205F ||
    n == 0x3000

def dropBlank (cs : List Char) : List Char :=
  cs.dropWhile isBlank

def dropBlankEnd (cs : List Char) : List Char :=
  (cs.reverse.dropWhile isBlank).reverse

def trim (s : String) : String :=
  String.ofList (dropBlankEnd (dropBlank s.toList))

def trimEnd (s : String) : String :=
  String.ofList (dropBlankEnd s.toList)

def isWordStart (c : Char) : Bool :=
  c.isAlpha || c == '_'

def isWordRest (c : Char) : Bool :=
  c.isAlphanum || c == '_'

end ShaderEffect.Text
