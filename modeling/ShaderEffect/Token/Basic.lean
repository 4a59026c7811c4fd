/-!
# Tokens

A token is a piece of source text with its class. Blanks, line feeds and comments are tokens too,
so that the texts of a source's tokens concatenate to the source; the reader of the grammar skips
them as trivia.
-/

namespace ShaderEffect

inductive TokenKind where
  | ident
  | int
  | float
  | punct
  | str
  | space
  | newline
  | comment
  | other
  deriving Repr, DecidableEq

structure Token where
  kind : TokenKind
  text : String
  deriving Repr, DecidableEq

structure PlacedToken extends Token where
  line : Nat
  column : Nat
  deriving Repr, DecidableEq

namespace Token

def isTrivia (t : Token) : Bool :=
  match t.kind with
  | .space | .newline | .comment => true
  | _ => false

def isPunct (t : Token) (text : String) : Bool :=
  t.kind == .punct && t.text == text

def isIdent (t : Token) (text : String) : Bool :=
  t.kind == .ident && t.text == text

def render (ts : List Token) : String :=
  String.join (ts.map Token.text)

def trimTrivia (ts : List Token) : List Token :=
  ((ts.reverse.dropWhile isTrivia).reverse).dropWhile isTrivia

end Token

end ShaderEffect
