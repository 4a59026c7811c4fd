import ShaderEffect.Proofs.Lowering.Stable.Always

/-!
# When the pass on lane assignments leaves a program as it is

An assignment to several lanes is written anew if the lanes are lanes of a variable whose type is a
known vector; what it becomes assigns to the whole vector. **The pass leaves a program as it is
exactly if no statement of it is such an assignment** (`lowerLaneAssignments_eq_self_iff`).
-/

namespace ShaderEffect.Lowering

open Walker List

/-- The statement is no assignment to several lanes of a variable. -/
def KeepsLanes (env : Env) : Stmt → Prop
  | .expr (.assign _ (.field base name) _) => ¬ AreLanesOf env base name
  | _ => True

namespace LanesTo

variable {env : Env} {s : Stmt} {out : List Stmt} {a b : State}

theorem eq_of_keeps (h : LanesTo env a s out b) (hs : KeepsLanes env s) : out = [s] := by
  cases h with
  | kept | noted => rfl
  | lanes hlanes => exact absurd hlanes hs

theorem keeps_of_mem (h : LanesTo env a s out b) (hs : s ∈ out) : KeepsLanes env s := by
  cases h with
  | kept hother =>
    unfold KeepsLanes
    split
    · intro hlanes
      exact Bool.false_ne_true ((hother _ _ _ _ rfl).symm.trans hlanes.isLanes)
    · trivial
  | noted _ hlanes => exact hlanes
  | @lanes op base rhs _ name _ _ _ _ hto =>
    have hbase : Expr.field base name ≠ base := fun h => by
      have hsize := congrArg sizeOf h
      rw [Expr.field.sizeOf_spec] at hsize
      omega
    have hassign : ∀ x, Stmt.expr (.assign op (.field base name) rhs) ∉
        [Stmt.expr (.assign none base x)] := fun x h =>
      hbase (Expr.assign.inj (Stmt.expr.inj (mem_singleton.mp h))).2.1
    cases hto with
    | whole => exact absurd hs (hassign _)
    | held =>
      rcases mem_cons.mp hs with h | h
      · cases h
      · exact absurd h (hassign _)

end LanesTo

theorem stepwise_lowerLaneStmt :
    Stepwise lowerLaneStmt KeepsLanes (fun _ _ _ _ _ => True) where
  leaves := fun env s a h => (lowerLaneStmt_to env s a).eq_of_keeps h
  block := fun _ _ _ => rfl
  extra := fun _ => trivial
  again := fun hs hmem => by
    have hnode := hs
    cases hs with
    | expr he => exact ⟨congrArg Stmt.expr he, rfl⟩
    | _ => exact hnode.eq_of_mem hmem
  still := (lowerLaneStmt_to _ _ _).keeps_of_mem

/-- **The pass leaves a program as it is exactly if no statement assigns to several lanes of a
variable.** -/
theorem lowerLaneAssignments_eq_self_iff (st : Setting) (p : Program) (b : State) :
    (lowerLaneAssignments st p b).1 = p ↔
      ∀ q ∈ p.places (st.envFor p), KeepsLanes q.1 q.2 :=
  stepwise_lowerLaneStmt.walk_eq_self_iff (st.envFor p) p b

end ShaderEffect.Lowering
