import ShaderEffect.Wgsl.Expr

/-!
# Notices of the lowering

What the lowering of a program has to report: what was dropped, and what could not be expressed and
was left as written.
-/

namespace ShaderEffect

/-- The places from which a side effect cannot be moved, because they may be evaluated more than
once or not at all. -/
inductive FixedPlace where
  | whileCondition
  | doWhileCondition
  | forCondition
  | shortCircuit
  deriving Repr, DecidableEq

inductive LoweringNotice where
  | uniformProvided (name : String)
  | uniformUnknown (name : String)
  | inputRemoved (name : String)
  | secondOutput (name first : String)
  | stepEffect (step : Expr)
  | fixedEffect (place : FixedPlace) (e : Expr)
  | effectOnValue (target : Expr)
  | stepTypeUnknown (target : Expr)
  | fallthrough
  | lanesInvalid (name : String)
  | lanesOfValue (name : String)
  | noBuiltin (name : String)
  | matrixResize (fromColumns fromRows columns rows : Nat)
  | imageNameMissing (function : String)
  | imageUnknown (function image : String)
  | argumentsDropped (function : String)
  | coordinateMissing (function : String)
  | overloadAmbiguous (name : String)
  | overloadMissing (name : String) (count : Nat)
  | loopHeaderCopy
  | outNotAssignable (arg : Expr)
  | outTypeUnknown (arg : Expr)
  | secondAttachment
  | runtimeConst (name : String)
  | noMain
  deriving Repr

namespace FixedPlace

def describe : FixedPlace → String
  | .whileCondition => "`while` condition"
  | .doWhileCondition => "`do`/`while` condition"
  | .forCondition => "`for` condition"
  | .shortCircuit => "short-circuit operand"

end FixedPlace

namespace LoweringNotice

def message : LoweringNotice → String
  | .uniformProvided name => "removed `uniform " ++ name ++ "`; the header already provides it"
  | .uniformUnknown name =>
    "removed `uniform " ++ name ++ "` which no header input declares; uses will not resolve"
  | .inputRemoved name => "removed interface input `" ++ name ++ "`"
  | .secondOutput name first =>
    "second output `" ++ name ++ "` ignored; only `" ++ first ++ "` reaches the target"
  | .stepEffect step =>
    "nested side effect in `for` step `" ++ step.wgsl ++ "` left as written"
  | .fixedEffect place e =>
    "side effect in " ++ place.describe ++ " `" ++ e.wgsl ++
      "` cannot be hoisted; left as written"
  | .effectOnValue target =>
    "side effect on `" ++ target.wgsl ++ "` inside an expression left as written"
  | .stepTypeUnknown target =>
    "cannot infer the type of `" ++ target.wgsl ++ "` for its `++`/`--`; left as written"
  | .fallthrough => "switch case falls through; the following case body was duplicated"
  | .lanesInvalid name =>
    "swizzle assignment `." ++ name ++ "` is not a valid target; left as written"
  | .lanesOfValue name =>
    "swizzle assignment `." ++ name ++ "` on a computed value; left as written"
  | .noBuiltin name => "`" ++ name ++ "` has no WGSL built-in; the call was left as written"
  | .matrixResize fromColumns fromRows columns rows =>
    "matrix resize from " ++ toString fromColumns ++ "x" ++ toString fromRows ++ " to " ++
      toString columns ++ "x" ++ toString rows ++ " is not a WGSL constructor; left as written"
  | .imageNameMissing function =>
    "`" ++ function ++ "` needs an image name as its first argument; left as written"
  | .imageUnknown function image =>
    "`" ++ function ++ "` samples `" ++ image ++
      "`, which is not a declared image or pass; left as written"
  | .argumentsDropped function =>
    "extra arguments to `" ++ function ++ "` (bias or offset) were dropped"
  | .coordinateMissing function => "`" ++ function ++ "` is missing its coordinate argument"
  | .overloadAmbiguous name =>
    "call to overloaded `" ++ name ++ "` is ambiguous; picked the first candidate"
  | .overloadMissing name count =>
    "no overload of `" ++ name ++ "` takes " ++ toString count ++
      " argument(s); call left as written"
  | .loopHeaderCopy => "out argument in a loop header is copied back once, outside the loop"
  | .outNotAssignable arg =>
    "out argument `" ++ arg.wgsl ++ "` is not assignable; passed through a discarded temporary"
  | .outTypeUnknown arg =>
    "cannot infer the type of out argument `" ++ arg.wgsl ++
      "`; passed by address as written"
  | .secondAttachment =>
    "only one colour attachment is supported; gl_FragData writes go to it"
  | .runtimeConst name =>
    "`const " ++ name ++ "` has a runtime initialiser; it became a private variable set in the " ++
      "entry point"
  | .noMain => "no `void main()` found; the fragment stage outputs transparent black"

end LoweringNotice

end ShaderEffect
