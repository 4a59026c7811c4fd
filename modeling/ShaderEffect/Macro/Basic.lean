import ShaderEffect.Token.Basic

/-!
# Macros

A macro stands for a list of tokens. One with parameters is written like a call.
-/

namespace ShaderEffect

/-- A macro; without a parameter list it is written as its name alone. -/
structure Macro where
  name : String
  params : Option (List String)
  body : List Token
  deriving Repr, DecidableEq

abbrev MacroTable := List Macro

namespace MacroTable

def named? (table : MacroTable) (name : String) : Option Macro :=
  table.find? fun m => m.name == name

def defines (table : MacroTable) (name : String) : Bool :=
  (table.named? name).isSome

def undefine (table : MacroTable) (name : String) : MacroTable :=
  table.filter fun m => m.name != name

def define (table : MacroTable) (m : Macro) : MacroTable :=
  m :: table.undefine m.name

def sorted (table : MacroTable) : List Macro :=
  table.mergeSort fun a b => decide (a.name ≤ b.name)

end MacroTable

end ShaderEffect
