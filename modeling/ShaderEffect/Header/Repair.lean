import ShaderEffect.Text.Blank

/-!
# Repair of headers

Headers are written by hand. Their common mistakes are typographic quotes, single quotes around
strings, and commas before a closing bracket; all of them are put right here.
-/

namespace ShaderEffect.Repair

def plainQuote (c : Char) : Char :=
  if c == '“' || c == '”' || c == '„' then '"'
  else if c == '‘' || c == '’' then '\''
  else c

def closesNext (cs : List Char) : Bool :=
  match Text.dropBlank cs with
  | c :: _ => c == '\x7d' || c == ']'
  | [] => false

/-- Puts double quotes around all strings and drops commas before closing brackets. The first
argument is the quote that ends the current string, if there is one. -/
def plainText : Option Char → List Char → List Char
  | _, [] => []
  | some _, ['\\'] => ['\\']
  | some quote, '\\' :: c :: cs => '\\' :: c :: plainText (some quote) cs
  | some quote, c :: cs =>
    if c == quote then '"' :: plainText none cs
    else if c == '"' then '\\' :: '"' :: plainText (some quote) cs
    else c :: plainText (some quote) cs
  | none, c :: cs =>
    if c == '"' || c == '\'' then '"' :: plainText (some c) cs
    else if c == ',' && closesNext cs then plainText none cs
    else c :: plainText none cs

def repair (cs : List Char) : List Char :=
  plainText none (cs.map plainQuote)

end ShaderEffect.Repair
