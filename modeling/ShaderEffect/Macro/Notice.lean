/-!
# Notices of the preprocessor
-/

namespace ShaderEffect

inductive MacroNotice where
  | unterminatedBranches (count : Nat)
  | strayElif
  | strayElse
  | strayEndif
  | unsupported (text : String)
  | nameMissing
  | nameInvalid (text : String)
  | parametersOpen (name : String)
  | shadowsInput (name : String)
  | unevaluated (text : String)
  | unsettled (passes : Nat)
  | callOpen (name : String)
  | arity (name : String) (expected given : Nat)
  deriving Repr, DecidableEq

namespace MacroNotice

def message : MacroNotice → String
  | .unterminatedBranches count => toString count ++ " conditional block(s) left unterminated"
  | .strayElif => "#elif without matching #if ignored"
  | .strayElse => "#else without matching #if ignored"
  | .strayEndif => "#endif without matching #if ignored"
  | .unsupported text => "removed unsupported directive `#" ++ text ++ "`"
  | .nameMissing => "#define without a macro name ignored"
  | .nameInvalid text => "#define with invalid name `" ++ text ++ "` ignored"
  | .parametersOpen name =>
    "function-like macro `" ++ name ++ "` has no closing parenthesis"
  | .shadowsInput name =>
    "macro `" ++ name ++ "` shadows the declared input of the same name; keeping the input"
  | .unevaluated text => "could not evaluate `#if " ++ text ++ "`; keeping the branch"
  | .unsettled passes =>
    "macro expansion did not settle after " ++ toString passes ++ " passes"
  | .callOpen name => "unterminated call to macro `" ++ name ++ "`"
  | .arity name expected given =>
    "macro `" ++ name ++ "` expects " ++ toString expected ++ " argument(s) but got " ++
      toString given ++ "; call left unexpanded"

end MacroNotice

end ShaderEffect
