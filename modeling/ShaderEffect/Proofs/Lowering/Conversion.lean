import ShaderEffect.Lowering.Conversion
import ShaderEffect.Proofs.Tree

/-!
# What a conversion does

Writing out the conversions of a node leaves the node and converts some of its operands: an integer
becomes a float, and a scalar may be spread over the lanes of a float vector. `Converted` lists these
ways, and **each operand of a node is converted in one of them** (`exists_convertNode_eq`).
-/

namespace ShaderEffect.Lowering

open List

/-- The ways in which an expression is converted. -/
inductive Converted (env : Env) : Expr → Expr → Prop where
  | same (e : Expr) : Converted env e e
  | float {e : Expr} {type : ShaderType} (htype : env.typeOf e = some type)
    (hint : type.isIntegerBased = true) : Converted env e (toFloat type e)
  | spread {e : Expr} {type target : ShaderType} (htype : env.typeOf e = some type)
    (hscalar : type.isScalar = true) (hfloat : target.isFloatBased = true)
    (hvector : target.isVector = true) :
    Converted env e (.construct target [floatIfInteger env e])

theorem floatIfInteger_of_typeOf {env : Env} {e : Expr} {type : ShaderType}
    (h : env.typeOf e = some type) :
    floatIfInteger env e = if type.isIntegerBased then toFloat type e else e := by
  simp only [floatIfInteger, h]

theorem converted_floatIfInteger (env : Env) (e : Expr) :
    Converted env e (floatIfInteger env e) := by
  unfold floatIfInteger
  split
  · rename_i htype
    split
    · rename_i hint
      exact .float htype hint
    · exact .same e
  · exact .same e

theorem converted_coerce (env : Env) (target : ShaderType) (e : Expr) :
    Converted env e (coerce env target e) := by
  unfold coerce
  split
  · exact converted_floatIfInteger env e
  · exact .same e

theorem converted_unify (env : Env) (lhs rhs : Expr) :
    Converted env lhs (unify env lhs rhs).1 ∧ Converted env rhs (unify env lhs rhs).2 := by
  unfold unify
  split
  · rename_i l r hl hr
    by_cases hright : (l.isFloatBased && r.isIntegerBased) = true
    · rw [if_pos hright]
      exact ⟨.same lhs, .float hr (Bool.and_eq_true_iff.mp hright).2⟩
    · rw [if_neg hright]
      by_cases hleft : (r.isFloatBased && l.isIntegerBased) = true
      · rw [if_pos hleft]
        exact ⟨.float hl (Bool.and_eq_true_iff.mp hleft).2, .same rhs⟩
      · rw [if_neg hleft]
        exact ⟨.same lhs, .same rhs⟩
  · exact ⟨.same lhs, .same rhs⟩

/-! ## Arguments -/

theorem length_of_mem_candidates {env : Env} {name : String} {count : Nat} {s : Signature}
    (h : s ∈ env.candidates name count) : s.params.length = count := by
  have hcount := (mem_filter.mp h).2
  simpa using hcount

theorem forall₂_converted_same (env : Env) (es : List Expr) :
    List.Forall₂ (Converted env) es es :=
  forall₂_same.mpr fun e _ => .same e

theorem converted_zip (env : Env) : ∀ (args : List Expr) (types : List ShaderType),
    types.length = args.length →
      List.Forall₂ (Converted env) args
        ((args.zip types).map fun (arg, type) => coerce env type arg)
  | [], _, _ => by simp
  | arg :: args, [], h => by simp at h
  | arg :: args, type :: types, h => by
    simp only [zip_cons_cons, map_cons]
    exact .cons (converted_coerce env type arg) (converted_zip env args types (by simpa using h))

theorem converted_userArgs (env : Env) (name : String) (args : List Expr) :
    List.Forall₂ (Converted env) args (userArgs env name args) := by
  unfold userArgs
  split
  · rename_i s hs
    exact converted_zip env args s.params
      (length_of_mem_candidates (hs ▸ mem_singleton_self s))
  · exact forall₂_converted_same env args

theorem converted_builtinArg (env : Env) {target : ShaderType} (hfloat : target.isFloatBased = true)
    (spread : Bool) (arg : Expr) : Converted env arg (builtinArg env target spread arg) := by
  unfold builtinArg
  split
  · exact .same arg
  · rename_i type htype
    rw [← floatIfInteger_of_typeOf htype]
    dsimp only
    split
    · rename_i h
      rw [Bool.and_eq_true, Bool.and_eq_true] at h
      exact .spread htype h.1.2 hfloat h.2
    · exact converted_floatIfInteger env arg

theorem converted_builtinArgs (env : Env) (name : String) (args : List Expr) :
    List.Forall₂ (Converted env) args (builtinArgs env name args) := by
  unfold builtinArgs
  dsimp only
  generalize (if name == "mix" then min 2 args.length else args.length) = shaped
  split
  · exact forall₂_converted_same env args
  · rename_i target _
    split
    · rename_i hfloat
      have hshaped := forall₂_map_self (converted_builtinArg env hfloat (sameShape.contains name))
        (args.take shaped)
      have hrest := forall₂_map_self (converted_builtinArg env hfloat false) (args.drop shaped)
      simpa only [take_append_drop] using rel_append hshaped hrest
    · exact forall₂_converted_same env args

theorem converted_constructorArgs (env : Env) (type : ShaderType) (args : List Expr) :
    List.Forall₂ (Converted env) args (constructorArgs env type args) := by
  unfold constructorArgs
  split
  · exact forall₂_converted_same env args
  · refine forall₂_map_self (fun arg => ?_) args
    split
    · rename_i t htype
      split
      · rename_i h
        exact .float htype (Bool.and_eq_true_iff.mp h).1
      · exact .same arg
    · exact .same arg

/-- **A node stays what it is, and each of its operands is converted.** -/
theorem exists_convertNode_eq (env : Env) (e : Expr) :
    ∃ es, convertNode env e = e.withChildren es ∧
      List.Forall₂ (Converted env) e.children es := by
  have hsame : ∀ x : Expr, ∃ es, x = x.withChildren es ∧
      List.Forall₂ (Converted env) x.children es := fun x =>
    ⟨x.children, (Expr.withChildren_children x).symm, forall₂_converted_same env _⟩
  unfold convertNode
  split
  · rename_i name args
    split
    · exact ⟨_, rfl, converted_userArgs env name args⟩
    · split
      · exact ⟨_, rfl, converted_builtinArgs env name args⟩
      · exact hsame _
  · rename_i type args
    exact ⟨_, rfl, converted_constructorArgs env type args⟩
  · rename_i op lhs rhs
    split
    · obtain ⟨hl, hr⟩ := converted_unify env lhs rhs
      exact ⟨[_, _], rfl, .cons hl (.cons hr .nil)⟩
    · exact hsame _
  · rename_i op lhs rhs
    split
    · exact ⟨[_, _], rfl, .cons (.same lhs) (.cons (converted_coerce env _ rhs) .nil)⟩
    · exact hsame _
  · exact hsame _

end ShaderEffect.Lowering
