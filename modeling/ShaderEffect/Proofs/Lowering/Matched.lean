import Mathlib
import ShaderEffect.Proofs.Lowering.Capture
import ShaderEffect.Proofs.Lowering.Stable.Conversion
import ShaderEffect.Proofs.Shader.Parsed

/-!
# Programs without implicit conversions

A node is `Matched` if nothing is left to convert at it: no operation has a float beside an integer,
nothing that is assigned or passed is an integer where a float is wanted, a constructor of floats
takes no integers but as a conversion of its own, and the arguments of a component-wise function are
of one shape. It describes the node by the types of its operands, not by what the pass does.

**The pass leaves a program as it is exactly if it is matched** (`insertConversions_eq_self_iff`),
and **what the pass leaves of a program with proper types is matched** (`matchedProgram_of_proper`).
A program that has been read has proper types; a vector without a second lane would become a scalar
that has to be spread.
-/

namespace ShaderEffect.Lowering

open Walker Expr List

/-! ## Matched nodes -/

/-- The expression is no integer where the target is a float. -/
def Fits (env : Env) (target : ShaderType) (e : Expr) : Prop :=
  target.isFloatBased = true → NoInteger env e

def Mixed (l r : ShaderType) : Prop :=
  l.isFloatBased = true ∧ r.isIntegerBased = true ∨ r.isFloatBased = true ∧ l.isIntegerBased = true

def Matched (env : Env) : Expr → Prop
  | .binary op lhs rhs => (op.isArithmetic || op.isComparison) = true →
    ∀ l r, env.typeOf lhs = some l → env.typeOf rhs = some r → ¬ Mixed l r
  | .assign _ lhs rhs => ∀ target, env.typeOf lhs = some target → Fits env target rhs
  | .construct type args => type.isFloatBased = true → type.isScalar = false →
    ∀ arg ∈ args, ∀ t, env.typeOf arg = some t → t.isIntegerBased = true →
      t.isScalar = false ∧ args.length = 1
  | .call name args =>
    (env.isUserFunction name = true →
      ∀ s, env.candidates name args.length = [s] → ∀ x ∈ args.zip s.params, Fits env x.2 x.1) ∧
    (env.isUserFunction name = false → isComponentwise name = true →
      ∀ target, shapeOf env name args = some target → target.isFloatBased = true →
        (∀ arg ∈ args, NoInteger env arg) ∧
        (name ∈ sameShape → target.isVector = true → ∀ arg ∈ shapedArgs name args, ∀ t,
          env.typeOf arg = some t → t.isScalar = false))
  | _ => True

section Nodes

variable {env : Env} {e : Expr}

theorem toFloat_ne (type : ShaderType) (e : Expr) : toFloat type e ≠ e := fun h =>
  absurd (congrArg weight h) (Nat.ne_of_gt (weight_lt_toFloat type e))

theorem floatIfInteger_eq_self_iff : floatIfInteger env e = e ↔ NoInteger env e := by
  refine ⟨fun h t ht => ?_, floatIfInteger_of_noInteger⟩
  grind [floatIfInteger_of_typeOf, toFloat_ne]

theorem coerce_eq_self_iff (target : ShaderType) : coerce env target e = e ↔ Fits env target e := by
  grind [coerce, Fits, floatIfInteger_eq_self_iff]

theorem unify_eq_self_iff (lhs rhs : Expr) : unify env lhs rhs = (lhs, rhs) ↔
    ∀ l r, env.typeOf lhs = some l → env.typeOf rhs = some r → ¬ Mixed l r := by
  grind [unify, Mixed, toFloat_ne]

theorem map_coerce_eq_self_iff : ∀ {args : List Expr} {types : List ShaderType},
    types.length = args.length →
      (((args.zip types).map fun (arg, type) => coerce env type arg) = args ↔
        ∀ x ∈ args.zip types, Fits env x.2 x.1)
  | [], types, _ => by simp
  | arg :: args, [], h => by simp at h
  | arg :: args, type :: types, h => by
    have hlength : types.length = args.length := by simpa using h
    have ih := map_coerce_eq_self_iff hlength
    rw [zip_cons_cons, map_cons, cons.injEq, ih, coerce_eq_self_iff,
      forall_mem_cons]

theorem userArgs_eq_self_iff (name : String) (args : List Expr) :
    userArgs env name args = args ↔
      ∀ s, env.candidates name args.length = [s] → ∀ x ∈ args.zip s.params, Fits env x.2 x.1 := by
  unfold userArgs
  split
  · rename_i s hs
    have hlength := length_of_mem_candidates (hs ▸ mem_singleton_self s)
    rw [map_coerce_eq_self_iff hlength]
    grind
  · rename_i hnot
    exact iff_of_true rfl fun s hs => absurd hs (hnot s)

theorem builtinArg_eq_self_iff {target : ShaderType} {spread : Bool} {arg : Expr} :
    builtinArg env target spread arg = arg ↔ NoInteger env arg ∧
      (spread = true → target.isVector = true → ∀ t, env.typeOf arg = some t →
        t.isScalar = false) := by
  refine ⟨fun h => ?_, fun h => builtinArg_eq_self h.1 h.2⟩
  cases htype : env.typeOf arg with
  | none =>
    have hnone : ∀ t, env.typeOf arg ≠ some t := fun t ht => by rw [htype] at ht; cases ht
    exact ⟨fun t ht => absurd ht (hnone t), fun _ _ t ht => by cases ht⟩
  | some type =>
    rw [builtinArg_of_typeOf htype] at h
    split at h
    · have hlt := weight_lt_construct target (floatIfInteger env arg)
      rw [h] at hlt
      exact absurd (grows_floatIfInteger env arg).le (Nat.not_le_of_lt hlt)
    grind [floatIfInteger_eq_self_iff]

theorem builtinArgs_eq_self_iff (name : String) (args : List Expr) :
    builtinArgs env name args = args ↔
      ∀ target, shapeOf env name args = some target → target.isFloatBased = true →
        (∀ arg ∈ args, NoInteger env arg) ∧
        (name ∈ sameShape → target.isVector = true → ∀ arg ∈ shapedArgs name args, ∀ t,
          env.typeOf arg = some t → t.isScalar = false) := by
  rcases builtinArgs_cases env name args with ⟨hsame, hnone⟩ | ⟨target, hshape, hfloat, hargs⟩
  · grind
  · have hsplit := shapedArgs_append_otherArgs name args
    have hmaps : builtinArgs env name args = args ↔
        (∀ arg ∈ shapedArgs name args, builtinArg env target (sameShape.contains name) arg = arg) ∧
        ∀ arg ∈ otherArgs name args, builtinArg env target false arg = arg := by
      grind [map_eq_self_iff, append_inj]
    have hmem : ∀ P : Expr → Prop, (∀ arg ∈ args, P arg) ↔
        (∀ arg ∈ shapedArgs name args, P arg) ∧ ∀ arg ∈ otherArgs name args, P arg := fun P => by
      rw [← forall_mem_append, hsplit]
    grind [builtinArg_eq_self_iff]

theorem constructorArgs_eq_self_iff (type : ShaderType) (args : List Expr) :
    constructorArgs env type args = args ↔ (type.isFloatBased = true → type.isScalar = false →
      ∀ arg ∈ args, ∀ t, env.typeOf arg = some t → t.isIntegerBased = true →
        t.isScalar = false ∧ args.length = 1) := by
  unfold constructorArgs
  split
  · rename_i h
    refine iff_of_true rfl fun hfloat hscalar => ?_
    simp [hfloat, hscalar] at h
  · rename_i h
    have htype : type.isFloatBased = true ∧ type.isScalar = false := by simpa using h
    simp only [htype.1, htype.2, forall_const]
    rw [map_eq_self_iff]
    refine forall_congr' fun arg => forall_congr' fun _ => ?_
    cases harg : env.typeOf arg with
    | none => simp
    | some t =>
      by_cases hcond : (t.isIntegerBased && (t.isScalar || args.length != 1)) = true
      · simp only [hcond, if_true]
        refine iff_of_false (toFloat_ne t arg) fun hall => ?_
        rw [Bool.and_eq_true] at hcond
        obtain ⟨hs, hl⟩ := hall t rfl hcond.1
        simp [hs, hl] at hcond
      · simp only [hcond, Bool.false_eq_true, if_false, true_iff]
        intro u hu hint
        obtain rfl := Option.some.inj hu
        simpa [hint] using hcond

/-- **A node stays exactly if it is matched.** -/
theorem convertNode_eq_self_iff (env : Env) (e : Expr) : convertNode env e = e ↔ Matched env e := by
  cases e with
  | call name args =>
    grind [convertNode, Matched, userArgs_eq_self_iff, builtinArgs_eq_self_iff]
  | construct type args =>
    rw [convertNode, Matched, Expr.construct.injEq, and_iff_right rfl, constructorArgs_eq_self_iff]
  | binary op lhs rhs =>
    grind [convertNode, Matched, unify_eq_self_iff]
  | assign op lhs rhs =>
    grind [convertNode, Matched, coerce_eq_self_iff]
  | _ => exact iff_of_true rfl trivial

end Nodes

/-! ## Matched programs -/

/-- Nothing is left to convert in the program: all nodes are matched, and no initial value and no
result of a function is an integer where a float is wanted. Case labels are free. -/
def MatchedProgram (env : Env) (p : Program) : Prop :=
  ∀ q ∈ p.sites env, q.role ≠ .label →
    q.expr.All (Matched q.env) ∧ ∀ type, q.role = .wanted type → Fits q.env type q.expr

/-- An expression stays exactly if its nodes are matched and it is no integer where a float is
wanted. -/
theorem apply_conversions_eq_self_iff {q : Site} (hrole : q.role ≠ .label)
    (hwanted : ∀ type, q.role = .wanted type → q.around = q.env) :
    conversions.apply q = q.expr ↔
      q.expr.All (Matched q.env) ∧ ∀ type, q.role = .wanted type → Fits q.env type q.expr := by
  have hall : q.expr.mapNodes (convertNode q.env) = q.expr ↔ q.expr.All (Matched q.env) := by
    rw [(Faithful.of_grows (grows_convertNode q.env)).mapNodes_eq_self_iff]
    exact forall_congr' fun x => forall_congr' fun _ => convertNode_eq_self_iff q.env x
  have hwhole : conversions.whole q.around q.role q.expr = q.expr ↔
      ∀ type, q.role = .wanted type → Fits q.env type q.expr := by
    cases hq : q.role with
    | wanted type =>
      rw [hwanted type hq]
      refine (coerce_eq_self_iff type).trans ⟨fun h t ht => ?_, fun h => h type rfl⟩
      cases ht
      exact h
    | operand => exact iff_of_true rfl fun _ h => by cases h
    | label => exact absurd hq hrole
  rw [apply_conversions hrole, ← hall, ← hwhole]
  constructor
  · intro h
    have hgrows := grows_converted (converted_whole q.around q.role
      (q.expr.mapNodes (convertNode q.env)))
    have hnodes := (grows_mapNodes (grows_convertNode q.env) q.expr).eq_of_eq hgrows h
    rw [hnodes] at h
    exact ⟨hnodes, h⟩
  · rintro ⟨hnodes, h⟩
    rw [hnodes, h]

/-- **The pass leaves a program as it is exactly if it is matched.** -/
theorem insertConversions_eq_self_iff (st : Setting) (p : Program) (a : State) :
    (insertConversions st p a).1 = p ↔ MatchedProgram (st.envFor p) p := by
  refine (rewrites_converter.walk_eq_iff (st.envFor p) p rfl).trans
    (forall_congr' fun q => forall_congr' fun hq => ?_)
  by_cases hrole : q.role = .label
  · refine iff_of_true ?_ fun h => absurd hrole h
    obtain ⟨env, around, role, e⟩ := q
    cases hrole
    rfl
  grind [apply_conversions_eq_self_iff, Program.around_eq_of_wanted]

/-! ## Conversions keep types proper -/

section Proper

variable {env : Env} {e : Expr}
variable {args : List Expr}

theorem proper_construct {type : ShaderType} {es : List Expr} (ht : type.isProper = true)
    (hes : ∀ x ∈ es, x.Proper) : (Expr.construct type es).Proper :=
  avoids_iff.mpr ⟨by rw [isImproper, ht]; rfl, hes⟩

theorem proper_toFloat {type : ShaderType} (ht : type.isProper = true) (he : e.Proper) :
    (toFloat type e).Proper := by
  have hfloat : ∀ text, (Expr.float text).Proper := fun _ =>
    avoids_iff.mpr ⟨rfl, forall_mem_nil _⟩
  unfold toFloat
  split
  · exact hfloat _
  · exact avoids_iff.mpr ⟨rfl, forall_mem_singleton.mpr (hfloat _)⟩
  · refine proper_construct (ShaderType.isProper_ofComponents _ ?_) (forall_mem_singleton.mpr he)
    have hle := ShaderType.components_le ht
    cases hc : type.components with
    | none => decide
    | some n => rwa [hc] at hle

section

variable (henv : env.Proper)
include henv

theorem proper_floatIfInteger (he : e.Proper) : (floatIfInteger env e).Proper := by
  unfold floatIfInteger
  split
  · rename_i type htype
    split
    · exact proper_toFloat (henv.typeOf he htype) he
    · exact he
  · exact he

theorem proper_builtinArg {target : ShaderType} (ht : target.isProper = true) (spread : Bool)
    (he : e.Proper) : (builtinArg env target spread e).Proper := by
  have hfloat := proper_floatIfInteger henv he
  cases htype : env.typeOf e with
  | none => rwa [builtinArg_of_unknown htype]
  | some type =>
    rw [builtinArg_of_typeOf htype]
    grind [proper_construct]

theorem proper_builtinArgs (name : String) (hargs : ∀ x ∈ args, x.Proper) :
    ∀ x ∈ builtinArgs env name args, x.Proper := by
  rcases builtinArgs_cases env name args with ⟨hsame, -⟩ | ⟨target, hshape, -, heq⟩
  · rwa [hsame]
  · have htarget : target.isProper = true := by
      refine ShaderType.isProper_widest (fun t ht => ?_) hshape
      obtain ⟨x, hx, ht⟩ := mem_typesOf.mp ht
      exact henv.typeOf (hargs x (mem_of_mem_take hx)) ht
    rw [heq, forall_mem_append, forall_mem_map, forall_mem_map]
    exact ⟨fun x hx => proper_builtinArg henv htarget _ (hargs x (mem_of_mem_take hx)),
      fun x hx => proper_builtinArg henv htarget _ (hargs x (mem_of_mem_drop hx))⟩

theorem proper_coerce (target : ShaderType) (he : e.Proper) : (coerce env target e).Proper := by
  unfold coerce
  split
  · exact proper_floatIfInteger henv he
  · exact he

theorem proper_userArgs (name : String) (hargs : ∀ x ∈ args, x.Proper) :
    ∀ x ∈ userArgs env name args, x.Proper := by
  unfold userArgs
  split
  · rw [forall_mem_map]
    exact fun x hx => proper_coerce henv x.2 (hargs x.1 (of_mem_zip hx).1)
  · exact hargs

theorem proper_constructorArgs (type : ShaderType) (hargs : ∀ x ∈ args, x.Proper) :
    ∀ x ∈ constructorArgs env type args, x.Proper := by
  unfold constructorArgs
  split
  · exact hargs
  · rw [forall_mem_map]
    intro x hx
    split
    · rename_i t ht
      split
      · exact proper_toFloat (henv.typeOf (hargs x hx) ht) (hargs x hx)
      · exact hargs x hx
    · exact hargs x hx

theorem proper_unify {lhs rhs : Expr} (hl : lhs.Proper) (hr : rhs.Proper) :
    (unify env lhs rhs).1.Proper ∧ (unify env lhs rhs).2.Proper := by
  unfold unify
  split
  · rename_i l r htl htr
    split
    · exact ⟨hl, proper_toFloat (henv.typeOf hr htr) hr⟩
    · split
      · exact ⟨proper_toFloat (henv.typeOf hl htl) hl, hr⟩
      · exact ⟨hl, hr⟩
  · exact ⟨hl, hr⟩

theorem proper_convertNode (he : e.Proper) : (convertNode env e).Proper := by
  obtain ⟨hnode, hchildren⟩ := avoids_iff.mp he
  cases e with
  | call name args =>
    rw [convertNode]
    split
    · exact avoids_iff.mpr ⟨rfl, proper_userArgs henv name hchildren⟩
    · split
      · exact avoids_iff.mpr ⟨rfl, proper_builtinArgs henv name hchildren⟩
      · exact he
  | construct type args =>
    exact avoids_iff.mpr ⟨hnode, proper_constructorArgs henv type hchildren⟩
  | binary op lhs rhs =>
    obtain ⟨hl, hr⟩ : lhs.Proper ∧ rhs.Proper := by simpa [children] using hchildren
    rw [convertNode]
    split
    · refine avoids_iff.mpr ⟨rfl, ?_⟩
      simpa [children] using proper_unify henv hl hr
    · exact he
  | assign op lhs rhs =>
    obtain ⟨hl, hr⟩ : lhs.Proper ∧ rhs.Proper := by simpa [children] using hchildren
    rw [convertNode]
    split
    · rename_i target htype
      refine avoids_iff.mpr ⟨rfl, ?_⟩
      simpa [children] using ⟨hl, proper_coerce henv target hr⟩
    · exact he
  | _ => exact he

theorem proper_mapNodes (he : e.Proper) : (e.mapNodes (convertNode env)).Proper := by
  induction e using byChildren with
  | node e ih =>
    obtain ⟨hnode, hchildren⟩ := avoids_iff.mp he
    rw [mapNodes_eq]
    refine proper_convertNode henv (avoids_iff.mpr ⟨?_, ?_⟩)
    · rw [← hnode]
      cases e <;> rfl
    · rw [children_withChildren (length_map ..), forall_mem_map]
      exact fun c hc => ih c hc (hchildren c hc)

end

theorem proper_apply_conversions {q : Site} (hrole : q.role ≠ .label)
    (hwanted : ∀ type, q.role = .wanted type → q.around = q.env) (henv : q.env.Proper)
    (he : q.expr.Proper) : (conversions.apply q).Proper := by
  rw [apply_conversions hrole]
  have hnodes := proper_mapNodes henv he
  cases hq : q.role with
  | wanted type =>
    rw [hwanted type hq]
    exact proper_coerce henv type hnodes
  | operand => exact hnodes
  | label => exact absurd hq hrole

theorem noneNarrowed_of_proper (henv : env.Proper) (he : e.Proper) : e.All (NoneNarrowed env) := by
  intro x hx
  unfold NoneNarrowed
  split
  · rename_i name args
    intro _ _ target _ _ _ arg harg
    rintro ⟨v, s, n, rfl, htype, hn⟩
    have hargs : ∀ c ∈ (Expr.call name args).children, c.subexprs ⊆ e.subexprs := fun c hc =>
      List.Subset.trans (subexprs_subset hc) (subexprs_subset_of_mem hx)
    have hv : v.Proper := fun y hy => he y (hargs _ (mem_of_mem_take harg)
      (subexprs_subset (mem_singleton_self v) hy))
    have hwidth := ShaderType.isProper_vector.mp (henv.typeOf hv htype)
    omega
  · trivial

end Proper

/-- **What the pass leaves of a program with proper types is matched.** -/
theorem matchedProgram_of_proper (st : Setting) {p : Program} (a : State) (hp : p.Proper) :
    MatchedProgram (st.envFor (insertConversions st p a).1) (insertConversions st p a).1 := by
  -- it suffices that a second run finds nothing to spread
  refine (insertConversions_eq_self_iff st _ a).mp ((insertConversions_again_iff st p a a).mpr ?_)
  intro q' hq' hrole
  have henv : st.envFor (insertConversions st p a).1 = st.envFor p :=
    envFor_walk rewrites_converter st (st.envFor p) p rfl
  rw [henv] at hq'
  obtain ⟨u, hu, rfl⟩ := rewrites_converter.madeFrom_walk (st.envFor p) p rfl q' hq'
  obtain ⟨huenv, huexpr⟩ := hp.sites (st.proper_envFor hp) u hu
  grind [noneNarrowed_of_proper, proper_apply_conversions, Program.around_eq_of_wanted]

/-- **What the pass leaves of a program that has been read is matched, and the pass leaves such a
program as it is exactly if it is matched already.** It changes nothing but the program. -/
theorem matched_insertConversions {source : String} {p : Program}
    (h : Program.parse source = .ok p) (st : Setting) (a : State) :
    let q := (insertConversions st p a).1
    MatchedProgram (st.envFor q) q ∧ (q = p ↔ MatchedProgram (st.envFor p) p) ∧
      (insertConversions st p a).2 = a :=
  ⟨matchedProgram_of_proper st a (Program.proper_of_parse h), insertConversions_eq_self_iff st p a,
    rfl⟩

/-- A program with an integer beside a float in an operation, an initial value, an assignment, a
result, a call, a constructor and a built-in function. -/
def mixedSource : String :=
  "float f(float x) \x7b float y = 1; y = x + 2; vec2 v = max(vec2(1, x), 3); return f(4); \x7d"

theorem matched_mixedSource : ∃ p, Program.parse mixedSource = .ok p ∧
    let q := (insertConversions emptySetting p {}).1
    MatchedProgram (emptySetting.envFor q) q ∧ (q = p ↔ MatchedProgram (emptySetting.envFor p) p) := by
  obtain ⟨p, hp, -⟩ := @Program.exists_of_parse mixedSource (fun _ => true) (by decide_cbv)
  obtain ⟨hmatched, hsame, -⟩ := matched_insertConversions hp emptySetting {}
  exact ⟨p, hp, hmatched, hsame⟩

end ShaderEffect.Lowering
