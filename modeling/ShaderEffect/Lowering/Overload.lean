import ShaderEffect.Lowering.Basic
import ShaderEffect.Lowering.Walk

/-!
# Overloaded functions

The target language has one function per name. Functions that share a name get the tags of their
parameter types behind it, and each call takes the function that fits its arguments best.
-/

namespace ShaderEffect.Lowering

structure Overload where
  shared : String
  name : String
  params : List ShaderType
  deriving Repr

def ownName (f : Function) : String :=
  let tag := if f.params.isEmpty then "void"
    else String.intercalate "_" (f.paramTypes.map ShaderType.tag)
  f.name ++ "_" ++ tag

/-- The program has another function of the same name. The entry point keeps its name. -/
def isOverloaded (names : List String) (f : Function) : Bool :=
  decide (2 ≤ names.count f.name) && f.name != "main"

def overloads (p : Program) : List Overload :=
  (p.functions.filter (isOverloaded p.functionNames)).map fun f =>
    { shared := f.name, name := ownName f, params := f.paramTypes }

def nameOverloads (p : Program) : Program :=
  { items := p.items.map (Item.mapFunction fun f =>
      if isOverloaded p.functionNames f then { f with name := ownName f } else f) }

def matchCount (args : List (Option ShaderType)) (o : Overload) : Nat :=
  ((o.params.zip args).filter fun (param, arg) => arg == some param).length

def best (args : List (Option ShaderType)) (os : List Overload) : Option (Overload × Bool) :=
  let top := (os.map (matchCount args)).max?.getD 0
  match os.filter fun o => matchCount args o == top with
  | [] => none
  | [o] => some (o, false)
  | o :: _ => some (o, true)

def resolveCall (all : List Overload) (env : Env) (name : String) (args : List Expr) :
    LowerM Expr := do
  let sharing := all.filter fun o => o.shared == name
  if sharing.isEmpty then
    return .call name args
  match best (env.typesOf args) (sharing.filter fun o => o.params.length == args.length) with
  | none =>
    note (.overloadMissing name args.length)
    return .call name args
  | some (o, ambiguous) =>
    if ambiguous then note (.overloadAmbiguous name)
    return .call o.name args

def separateOverloads (st : Setting) (p : Program) : LowerM Program :=
  let all := overloads p
  if all.isEmpty then pure p
  else
    let p := nameOverloads p
    let walker : Walker State := {
      expr := fun env e =>
        match e with
        | .call name args => resolveCall all env name args
        | e => pure e }
    walker.walk (st.envFor p) p

end ShaderEffect.Lowering
