import ShaderEffect.Lowering.Conditional
import ShaderEffect.Lowering.ControlFlow
import ShaderEffect.Lowering.Conversion
import ShaderEffect.Lowering.Declaration
import ShaderEffect.Lowering.EntryPoint
import ShaderEffect.Lowering.GlobalInit
import ShaderEffect.Lowering.HostName
import ShaderEffect.Lowering.Lane
import ShaderEffect.Lowering.Operation
import ShaderEffect.Lowering.Overload
import ShaderEffect.Lowering.Parameter
import ShaderEffect.Lowering.Renaming
import ShaderEffect.Lowering.Sampling

/-!
# The lowering passes in order

Each pass counts on what the passes before it leave: side effects are moved after conditional
expressions are gone, parameters are lowered after functions have names of their own, and so on.
-/

namespace ShaderEffect.Lowering

inductive Pass where
  | declarations
  | laneAliases
  | conditionals
  | controlFlow
  | laneAssignments
  | conversions
  | operations
  | sampling
  | overloads
  | parameters
  | hostNames
  | reservedNames
  | globalInits
  | entryPoint
  deriving Repr, DecidableEq

namespace Pass

def all : List Pass :=
  [.declarations, .laneAliases, .conditionals, .controlFlow, .laneAssignments, .conversions,
    .operations, .sampling, .overloads, .parameters, .hostNames, .reservedNames, .globalInits,
    .entryPoint]

def name : Pass → String
  | .declarations => "declarations"
  | .laneAliases => "swizzle-aliases"
  | .conditionals => "ternary"
  | .controlFlow => "braces"
  | .laneAssignments => "swizzle-assignment"
  | .conversions => "promotion"
  | .operations => "semantics"
  | .sampling => "textures"
  | .overloads => "overloads"
  | .parameters => "params"
  | .hostNames => "builtins"
  | .reservedNames => "reserved"
  | .globalInits => "globals"
  | .entryPoint => "entry"

def ofName (name : String) : Option Pass :=
  all.find? fun p => p.name == name

def apply : Pass → Setting → Program → LowerM Program
  | .declarations => splitDeclarations
  | .laneAliases => normaliseLanes
  | .conditionals => lowerConditionals
  | .controlFlow => lowerControlFlow
  | .laneAssignments => lowerLaneAssignments
  | .conversions => insertConversions
  | .operations => lowerOperations
  | .sampling => lowerSampling
  | .overloads => separateOverloads
  | .parameters => lowerParameters
  | .hostNames => bindHostNames
  | .reservedNames => renameReserved
  | .globalInits => deferInitialValues
  | .entryPoint => makeEntryPoint

end Pass

def runPasses (st : Setting) : List Pass → Program → LowerM Program
  | [], p => pure p
  | pass :: passes, p => do
    let p ← pass.apply st p
    runPasses st passes p

inductive Survivor where
  | conditional
  | doWhile
  | noEntryPoint
  deriving Repr, DecidableEq

namespace Survivor

def message : Survivor → String
  | .conditional => "conditional expression survived the rewrite pipeline"
  | .doWhile => "do-while loop survived the rewrite pipeline"
  | .noEntryPoint => "missing entry point survived the rewrite pipeline"

end Survivor

def isConditional : Expr → Bool
  | .conditional .. => true
  | _ => false

def isDoWhile : Stmt → Bool
  | .doWhile .. => true
  | _ => false

def survivor? (p : Program) : Option Survivor :=
  if !p.functions.any Function.isEntry then some .noEntryPoint
  else if p.items.any fun i => i.substmts.any isDoWhile then some .doWhile
  else if p.items.any fun i => i.subexprs.any isConditional then some .conditional
  else none

def lower (st : Setting) (p : Program) : Except Survivor Program × State :=
  let (p, s) := (runPasses st Pass.all p).run {}
  match survivor? p with
  | some what => (.error what, s)
  | none => (.ok p, s)

end ShaderEffect.Lowering
