import ShaderEffect.Text.Blank
import ShaderEffect.Text.Search

/-!
# Leftovers of the source language

A scan of a generated module for what should not be in it: reads of images, declarations, names and
types of the source language, directives, brackets that do not match, and a missing entry point. The
scan looks at text alone, line by line, and leaves out comments to the end of a line.
-/

namespace ShaderEffect

open Text

inductive Bracket where
  | brace
  | paren
  | square
  deriving Repr, DecidableEq

inductive Leftover where
  | directive (text : String)
  | declaration (keyword : String)
  | conditional
  | imageRead (name : String)
  | modCall
  | builtin (name : String)
  | typeName (name : String)
  | unmatchedClosing (c : Char)
  | leftOpen (kind : Bracket) (count : Nat)
  | noEntryPoint
  deriving Repr, DecidableEq

/-- A leftover with its line, counted from one; line zero stands for the whole module. -/
structure Finding where
  line : Nat
  leftover : Leftover
  deriving Repr, DecidableEq

namespace Bracket

def all : List Bracket := [.brace, .paren, .square]

def plural : Bracket → String
  | .brace => "braces"
  | .paren => "parentheses"
  | .square => "brackets"

end Bracket

namespace Leftover

def message : Leftover → String
  | .directive text => "preprocessor directive survived: `" ++ text ++ "`"
  | .declaration keyword => "GLSL `" ++ keyword ++ "` declaration survived"
  | .conditional => "conditional operator `?:` survived"
  | .imageRead name => "un-lowered texture call `" ++ name ++ "(`"
  | .modCall => "GLSL `mod(` call survived (reserved word in WGSL)"
  | .builtin name => "GLSL built-in `" ++ name ++ "` survived"
  | .typeName name => "GLSL type name `" ++ name ++ "` survived"
  | .unmatchedClosing c => "unbalanced closing `" ++ c.toString ++ "`"
  | .leftOpen kind count =>
    "unbalanced " ++ kind.plural ++ ": " ++ toString count ++ " left open"
  | .noEntryPoint => "missing `@fragment fn isf_fragment_main` entry point"

def imageReads : List String :=
  ["texture2D", "texture2DRect", "texture2DProj", "texture", "texelFetch", "IMG_PIXEL",
    "IMG_NORM_PIXEL", "IMG_THIS_PIXEL", "IMG_THIS_NORM_PIXEL", "IMG_SIZE"]

def builtins : List String :=
  ["gl_FragColor", "gl_FragCoord", "gl_FragData", "isf_FragNormCoord"]

def typeNames : List String :=
  ["float", "int", "uint", "ivec2", "ivec3", "ivec4", "uvec2", "uvec3", "uvec4", "bvec2", "bvec3",
    "bvec4", "mat2", "mat3", "mat4", "sampler2D"]

def declarations : List String := ["uniform", "varying", "attribute", "precision"]

def isNumberRest (c : Char) : Bool :=
  c.isAlphanum || c == '.'

/-- The words of a line, each with the text behind it. Numbers are no words. -/
def words : List Char → List (String × List Char)
  | [] => []
  | c :: cs =>
    if isWordStart c then
      let rest := cs.dropWhile isWordRest
      (String.ofList (c :: cs.takeWhile isWordRest), rest) :: words rest
    else if c.isDigit then words (cs.dropWhile isNumberRest)
    else words cs
termination_by cs => cs.length
decreasing_by
  · exact Nat.lt_succ_of_le (List.dropWhile_sublist isWordRest).length_le
  · exact Nat.lt_succ_of_le (List.dropWhile_sublist isNumberRest).length_le
  · simp

def isCalled (rest : List Char) : Bool :=
  (dropBlank rest).head? == some '('

def atWord (word : String) (rest : List Char) : List Leftover :=
  (if isCalled rest && imageReads.contains word then [.imageRead word]
    else if isCalled rest && word == "mod" then [.modCall]
    else []) ++
  (if builtins.contains word then [.builtin word] else []) ++
  (if typeNames.contains word then [.typeName word] else [])

def inWords (line : List Char) : List Leftover :=
  let start := dropBlank line
  (if start.head? == some '#' then [.directive (String.ofList (dropBlankEnd start))] else []) ++
  (match words start with
    | (word, _) :: _ => if declarations.contains word then [.declaration word] else []
    | [] => []) ++
  (if line.contains '?' then [.conditional] else []) ++
  (words line).flatMap fun w => atWord w.1 w.2

end Leftover

/-! ## Brackets -/

structure OpenBrackets where
  brace : Nat := 0
  paren : Nat := 0
  square : Nat := 0
  deriving Repr, DecidableEq

namespace OpenBrackets

def count (b : OpenBrackets) : Bracket → Nat
  | .brace => b.brace
  | .paren => b.paren
  | .square => b.square

def step (b : OpenBrackets) (c : Char) : OpenBrackets × List Leftover :=
  if c == '\x7b' then ({ b with brace := b.brace + 1 }, [])
  else if c == '\x7d' then
    ({ b with brace := b.brace - 1 }, if b.brace == 0 then [.unmatchedClosing c] else [])
  else if c == '(' then ({ b with paren := b.paren + 1 }, [])
  else if c == ')' then
    ({ b with paren := b.paren - 1 }, if b.paren == 0 then [.unmatchedClosing c] else [])
  else if c == '[' then ({ b with square := b.square + 1 }, [])
  else if c == ']' then
    ({ b with square := b.square - 1 }, if b.square == 0 then [.unmatchedClosing c] else [])
  else (b, [])

def scan (b : OpenBrackets) : List Char → OpenBrackets × List Leftover
  | [] => (b, [])
  | c :: cs =>
    let (b, found) := b.step c
    let (b, more) := b.scan cs
    (b, found ++ more)

def leftOpen (b : OpenBrackets) : List Leftover :=
  Bracket.all.flatMap fun kind =>
    if b.count kind == 0 then [] else [.leftOpen kind (b.count kind)]

end OpenBrackets

namespace Leftover

def inLines (b : OpenBrackets) (number : Nat) : List (List Char) → OpenBrackets × List Finding
  | [] => (b, [])
  | line :: lines =>
    let code := before ['/', '/'] line
    let (b, unmatched) := b.scan code
    let (b, more) := inLines b (number + 1) lines
    (b, ((inWords code ++ unmatched).map fun l => { line := number, leftover := l }) ++ more)

def hasEntryPoint (cs : List Char) : Bool :=
  occurs "@fragment".toList cs && occurs "fn isf_fragment_main(".toList cs

def scan (text : String) : List Finding :=
  let (b, found) := inLines {} 1 (lines text.toList)
  let entry := if hasEntryPoint text.toList then [] else [noEntryPoint]
  found ++ (b.leftOpen ++ entry).map fun l => { line := 0, leftover := l }

end Leftover

end ShaderEffect
