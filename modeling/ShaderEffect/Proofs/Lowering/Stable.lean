import ShaderEffect.Proofs.Lowering.Stable.ControlFlow
import ShaderEffect.Proofs.Lowering.Stable.Conversion
import ShaderEffect.Proofs.Lowering.Stable.Lane
import ShaderEffect.Proofs.Lowering.Stable.Name
import ShaderEffect.Proofs.Lowering.Stable.Operation
import ShaderEffect.Proofs.Lowering.Stable.Parameter

/-!
# Passes that run twice

Six passes leave what they have made of a program as it is when they run once more. The other eight
do not always: what they write can be something that they change. `Pass.Settled` says of each pass
what its outcome must be like for it to stay, and **a pass that runs again leaves its outcome as it
is exactly if the outcome is so** (`rerun_eq_iff_settled`), at every position among the passes.
-/

namespace ShaderEffect.Lowering

/-- What the outcome of a pass must be like, for the pass to leave it when it runs again.

* Control flow: each statement is in shape and no side effect moves out of it. A branch of a `switch`
  that has lost its `break`, a nested comma or a block in a branch are not.
* Lane assignments: none assigns to several lanes of a variable, as one to lanes of lanes does after
  the outer ones are gone.
* Conversions: no vector without a second lane stands beside a vector in a function that wants
  arguments of one shape.
* Operations: no vectors are compared. A comparison stays inside the `all` or `any` that the pass
  puts around it, and gets another one.
* Overloads: functions have names of their own.
* Parameters: none is copied or passed by reference, and each call takes the addresses it has to.
* Host names: no name stands for a value of the host, and no output is taken by its index.
* Reserved names: nothing that can be renamed has one. -/
def Pass.Settled (st : Setting) (outputAlias : Option String) (p : Program) : Pass → Prop
  | .declarations | .laneAliases | .conditionals | .sampling | .globalInits | .entryPoint => True
  | .controlFlow => ∀ q ∈ p.places (st.envFor p), KeepsFlow q.1 q.2
  | .laneAssignments => ∀ q ∈ p.places (st.envFor p), KeepsLanes q.1 q.2
  | .conversions => p.EachNode (st.envFor p) NoneNarrowed
  | .operations => p.EachNode (st.envFor p) fun env e => ¬ ComparesVectors env e
  | .overloads => NamesApart p
  | .parameters => ParamsPassed st p
  | .hostNames => p.EachNode (st.envFor p) (Bound st outputAlias)
  | .reservedNames => ReservedFree st.options.renamePrefix p

/-- A pass on what it has made of a program, whatever happened to the state in between. -/
theorem apply_apply_eq_iff (st : Setting) (pass : Pass) (p : Program) (a b : State) :
    let q := (pass.apply st p a).1
    (pass.apply st q b).1 = q ↔ pass.Settled st b.outputAlias q := by
  cases pass with
  | declarations => exact iff_true_intro (splitDeclarations_again st p a b)
  | laneAliases => exact iff_true_intro (normaliseLanes_again st p a b)
  | conditionals => exact iff_true_intro (lowerConditionals_again st p a b)
  | controlFlow => exact lowerControlFlow_eq_self_iff st _ b
  | laneAssignments => exact lowerLaneAssignments_eq_self_iff st _ b
  | conversions => exact insertConversions_again_iff st p a b
  | operations => exact lowerOperations_again_iff st p a b
  | sampling => exact iff_true_intro (lowerSampling_again st p a b)
  | overloads => exact separateOverloads_eq_self_iff st _ b
  | parameters => exact lowerParameters_eq_self_iff st _ b
  | hostNames => exact bindHostNames_eq_self_iff st _ b
  | reservedNames => exact renameReserved_eq_self_iff st _ b
  | globalInits => exact iff_true_intro (deferInitialValues_again st p a b)
  | entryPoint => exact iff_true_intro (makeEntryPoint_again st p a b)

/-- **After the passes up to the one at position `k` have run on any program, that pass leaves the
outcome as it is when it runs once more exactly if the outcome is settled for it.** -/
theorem rerun_eq_iff_settled (st : Setting) (p : Program) (s : State)
    (k : Fin Pass.all.length) :
    let u := runPasses st (Pass.all.take (k + 1)) p s
    (Pass.all[k].apply st u.1 u.2).1 = u.1 ↔ Pass.all[k].Settled st u.2.outputAlias u.1 := by
  have hpasses : Pass.all.take (k + 1) = Pass.all.take k ++ [Pass.all[k]] :=
    List.take_succ_eq_append_getElem k.isLt
  rw [hpasses, runPasses_append, runPasses_cons]
  exact apply_apply_eq_iff st Pass.all[k] _ _ _

end ShaderEffect.Lowering
