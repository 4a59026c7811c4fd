import ShaderEffect.Proofs.Lowering.Stable.Always
import ShaderEffect.Proofs.Weight

/-!
# When the pass on conversions leaves its own outcome alone

A conversion makes an integer a float and spreads a scalar over the lanes of a vector. What has been
converted is a float, so nothing is converted twice, with one exception: a vector of fewer than two
lanes becomes a scalar float, which the next run may spread. **The pass leaves its own outcome as it
is exactly if no such vector stands beside a wider one in a function that wants arguments of one
shape** (`insertConversions_again_iff`).

Every conversion adds to the `Expr.weight` of an expression, so no later conversion can bring back
what an earlier one changed.
-/

namespace ShaderEffect

open List

/-! ## The widest of several types -/

namespace ShaderType

variable {t : ShaderType}

/-- The number of lanes of a scalar or a vector, and none for all else. -/
def lanes (t : ShaderType) : Nat :=
  t.components.getD 0

theorem lanes_ofComponents (s : Scalar) {n : Nat} (h : 0 < n) : (ofComponents s n).lanes = n := by
  grind [ofComponents, lanes, components]

theorem isVector_of_two_le_lanes (h : 2 ≤ t.lanes) : t.isVector = true := by
  cases t with
  | vector => rfl
  | scalar s => simp [lanes, components] at h
  | _ => simp [lanes, components] at h

theorem lanes_eq_one_of_isScalar (h : t.isScalar = true) : t.lanes = 1 := by
  cases t <;> simp_all [isScalar, lanes, components]

/-- The wider of two types has the lanes of the second, unless the first has more or the second
none. -/
theorem widen_cases (t u : ShaderType) :
    (t.lanes ≤ u.lanes ∧ 0 < u.lanes ∧ ∃ s, widen t u = ofComponents s u.lanes) ∨
      (u.lanes < t.lanes ∨ u.lanes = 0) ∧ widen t u = t := by
  grind [widen, lanes]

theorem lanes_widen (t u : ShaderType) : (widen t u).lanes = max t.lanes u.lanes := by
  grind [widen_cases, lanes_ofComponents]

theorem lanes_le_foldl_widen : ∀ (ts : List ShaderType) (c : ShaderType),
    c.lanes ≤ (ts.foldl widen c).lanes ∧ ∀ t ∈ ts, t.lanes ≤ (ts.foldl widen c).lanes
  | [], c => ⟨Nat.le_refl _, forall_mem_nil _⟩
  | t :: ts, c => by
    obtain ⟨hc, hts⟩ := lanes_le_foldl_widen ts (widen c t)
    grind [lanes_widen]

theorem isScalar_widen {u : ShaderType} (ht : t.lanes ≤ 1) (hu : u.lanes ≤ 1)
    (h : t.isScalar = true ∨ u.isScalar = true) : (widen t u).isScalar = true := by
  rcases widen_cases t u with ⟨-, hpos, s, heq⟩ | ⟨hlt, heq⟩
  · rw [heq, show u.lanes = 1 by omega]
    rfl
  grind [lanes_eq_one_of_isScalar]

theorem isScalar_foldl_widen : ∀ (ts : List ShaderType) (c : ShaderType), c.lanes ≤ 1 →
    (∀ t ∈ ts, t.lanes ≤ 1) → (c.isScalar = true ∨ ∃ t ∈ ts, t.isScalar = true) →
      (ts.foldl widen c).isScalar = true
  | [], c, _, _, h => by simpa using h
  | t :: ts, c, hc, hts, h => by
    rw [forall_mem_cons] at hts
    refine isScalar_foldl_widen ts (widen c t) ?_ hts.2 ?_
    · rw [lanes_widen]
      omega
    grind [isScalar_widen]

variable {ts : List ShaderType} {target : ShaderType}

theorem lanes_le_widest (h : widest ts = some target) : ∀ t ∈ ts, t.lanes ≤ target.lanes := by
  cases ts with
  | nil => exact forall_mem_nil _
  | cons t ts =>
    obtain rfl : ts.foldl widen t = target := Option.some.inj h
    obtain ⟨ht, hts⟩ := lanes_le_foldl_widen ts t
    exact forall_mem_cons.mpr ⟨ht, hts⟩

theorem isScalar_widest (h : widest ts = some target) (hts : ∀ t ∈ ts, t.lanes ≤ 1) (ht : t ∈ ts)
    (hscalar : t.isScalar = true) : target.isScalar = true := by
  cases ts with
  | nil => cases ht
  | cons c ts =>
    obtain rfl : ts.foldl widen c = target := Option.some.inj h
    rw [forall_mem_cons] at hts
    refine isScalar_foldl_widen ts c hts.1 hts.2 ?_
    grind

end ShaderType

namespace Lowering

open Walker Expr

/-! ## Types of what has been converted -/

section Types

variable {env : Env} {e x : Expr} {type target : ShaderType}

def NoInteger (env : Env) (e : Expr) : Prop :=
  ∀ type, env.typeOf e = some type → type.isIntegerBased = false

theorem typeOf_construct_of_float (h : target.isFloatBased = true) (es : List Expr) :
    env.typeOf (.construct target es) = some target := by
  cases target with
  | array => cases h
  | _ => simp only [Env.typeOf, ShaderType.sized]

theorem literalType_cases (text : String) :
    Env.literalType text = .scalar .uint ∨ Env.literalType text = .int := by
  grind [Env.literalType]

theorem toFloat_cases (h : env.typeOf e = some type) :
    ((type = .scalar .uint ∨ type = .int) ∧ env.typeOf (toFloat type e) = some .float) ∨
      toFloat type e = .construct (.ofComponents .float (type.components.getD 1)) [e] := by
  unfold toFloat
  grind [Env.typeOf, literalType_cases]

theorem typeOf_toFloat (h : env.typeOf e = some type) :
    env.typeOf (toFloat type e) = some (.ofComponents .float (type.components.getD 1)) := by
  rcases toFloat_cases h with ⟨rfl | rfl, hfloat⟩ | hconstruct
  · exact hfloat
  · exact hfloat
  · rw [hconstruct, Env.typeOf_construct_ofComponents]

theorem noInteger_toFloat (h : env.typeOf e = some type) : NoInteger env (toFloat type e) := by
  intro t ht
  rw [typeOf_toFloat h] at ht
  cases ht
  unfold ShaderType.ofComponents
  split <;> rfl

theorem noInteger_floatIfInteger (env : Env) (e : Expr) : NoInteger env (floatIfInteger env e) := by
  intro t ht
  cases htype : env.typeOf e with
  | none =>
    simp only [floatIfInteger, htype] at ht
    cases ht
  | some type =>
    rw [floatIfInteger_of_typeOf htype] at ht
    by_cases hint : type.isIntegerBased = true
    · rw [if_pos hint] at ht
      exact noInteger_toFloat htype t ht
    grind

theorem floatIfInteger_of_noInteger (h : NoInteger env e) : floatIfInteger env e = e := by
  unfold floatIfInteger
  split
  · rename_i type htype
    rw [h type htype]
    rfl
  · rfl

theorem coerce_of_noInteger (h : NoInteger env e) (target : ShaderType) :
    coerce env target e = e := by
  unfold coerce
  split
  · exact floatIfInteger_of_noInteger h
  · rfl

theorem coerce_coerce (env : Env) (target : ShaderType) (e : Expr) :
    coerce env target (coerce env target e) = coerce env target e := by
  grind [coerce, coerce_of_noInteger, noInteger_floatIfInteger]

end Types

/-! ## Conversions add weight -/

section Weight

variable {env : Env} {e x : Expr}

theorem weight_lt_construct (type : ShaderType) (e : Expr) :
    e.weight < (Expr.construct type [e]).weight := by
  rw [weight_eq (.construct type [e])]
  simp [children, ownWeight, isFloat]

theorem weight_lt_toFloat (type : ShaderType) (e : Expr) : e.weight < (toFloat type e).weight := by
  unfold toFloat
  grind [weight_eq, children, ownWeight, isFloat]

theorem grows_floatIfInteger (env : Env) (e : Expr) : Grows e (floatIfInteger env e) := by
  unfold floatIfInteger
  split
  · split
    · exact .inr (weight_lt_toFloat _ e)
    · exact .inl rfl
  · exact .inl rfl

theorem grows_converted (h : Converted env e x) : Grows e x := by
  cases h with
  | same => exact .inl rfl
  | float => exact .inr (weight_lt_toFloat _ e)
  | spread => exact (grows_floatIfInteger env e).trans (.inr (weight_lt_construct _ _))

theorem grows_convertNode (env : Env) (e : Expr) : Grows e (convertNode env e) := by
  obtain ⟨es, heq, hes⟩ := exists_convertNode_eq env e
  rw [heq]
  exact grows_withChildren (hes.imp fun _ _ => grows_converted)

end Weight

/-! ## Arguments of built-in functions -/

/-- The arguments of a built-in function that are brought to one shape: all but the last of
`mix`. -/
def shapedArgs (name : String) (args : List Expr) : List Expr :=
  args.take (if name == "mix" then min 2 args.length else args.length)

/-- The arguments of a built-in function that keep their shape. -/
def otherArgs (name : String) (args : List Expr) : List Expr :=
  args.drop (if name == "mix" then min 2 args.length else args.length)

/-- The shape that the arguments of a built-in function are brought to. -/
def shapeOf (env : Env) (name : String) (args : List Expr) : Option ShaderType :=
  ShaderType.widest ((env.typesOf (shapedArgs name args)).filterMap id)

/-- A vector without a second lane that has been made a float. -/
def IsNarrowed (env : Env) (e : Expr) : Prop :=
  ∃ v s n, e = .construct .float [v] ∧ env.typeOf v = some (.vector s n) ∧ n ≤ 1

/-- In a function that wants arguments of one shape, no vector without a second lane stands beside a
vector. -/
def NoneNarrowed (env : Env) : Expr → Prop
  | .call name args => env.isUserFunction name = false → name ∈ sameShape →
    ∀ target, shapeOf env name args = some target → target.isFloatBased = true →
      target.isVector = true → ∀ arg ∈ shapedArgs name args, ¬ IsNarrowed env arg
  | _ => True

section Arguments

variable {env : Env} {name : String} {args : List Expr} {arg : Expr} {type target t : ShaderType}
  {spread : Bool}

theorem shapedArgs_append_otherArgs (name : String) (args : List Expr) :
    shapedArgs name args ++ otherArgs name args = args :=
  take_append_drop _ _

theorem builtinArgs_cases (env : Env) (name : String) (args : List Expr) :
    (builtinArgs env name args = args ∧
        ∀ target, shapeOf env name args = some target → target.isFloatBased = false) ∨
      ∃ target, shapeOf env name args = some target ∧ target.isFloatBased = true ∧
        builtinArgs env name args =
          (shapedArgs name args).map (builtinArg env target (sameShape.contains name)) ++
            (otherArgs name args).map (builtinArg env target false) := by
  unfold builtinArgs
  dsimp only
  split
  · rename_i hshape
    refine .inl ⟨rfl, fun t ht => ?_⟩
    cases hshape.symm.trans ht
  · rename_i target hshape
    by_cases hfloat : target.isFloatBased = true
    · exact .inr ⟨target, hshape, hfloat, if_pos hfloat⟩
    · refine .inl ⟨if_neg hfloat, fun t ht => ?_⟩
      cases hshape.symm.trans ht
      exact Bool.eq_false_iff.mpr hfloat

theorem builtinArg_of_typeOf (h : env.typeOf arg = some type) :
    builtinArg env target spread arg =
      if spread && type.isScalar && target.isVector then .construct target [floatIfInteger env arg]
      else floatIfInteger env arg := by
  rw [floatIfInteger_of_typeOf h]
  simp only [builtinArg, h]

theorem builtinArg_of_unknown (h : env.typeOf arg = none) :
    builtinArg env target spread arg = arg := by
  simp only [builtinArg, h]

theorem noInteger_builtinArg (hfloat : target.isFloatBased = true) (spread : Bool) (arg : Expr) :
    NoInteger env (builtinArg env target spread arg) := by
  cases htype : env.typeOf arg with
  | none =>
    rw [builtinArg_of_unknown htype]
    intro t ht
    rw [htype] at ht
    cases ht
  | some type =>
    rw [builtinArg_of_typeOf htype]
    split
    · intro t ht
      grind [typeOf_construct_of_float, ShaderType.isFloatBased, ShaderType.isIntegerBased]
    · exact noInteger_floatIfInteger env arg

theorem builtinArg_eq_self (hint : NoInteger env arg)
    (hspread : spread = true → target.isVector = true → ∀ t, env.typeOf arg = some t →
      t.isScalar = false) : builtinArg env target spread arg = arg := by
  cases htype : env.typeOf arg with
  | none => exact builtinArg_of_unknown htype
  | some type =>
    rw [builtinArg_of_typeOf htype, floatIfInteger_of_noInteger hint, if_neg]
    grind

/-- A float that a shape has been given to is a scalar only if it was a vector without a second
lane, or if no vector was wanted. -/
theorem isNarrowed_builtinArg (ht : env.typeOf (builtinArg env target true arg) = some t)
    (hscalar : t.isScalar = true) (hfloat : target.isFloatBased = true) :
    IsNarrowed env (builtinArg env target true arg) ∨
      target.isVector = false ∧ ∃ type, env.typeOf arg = some type ∧ type.isScalar = true := by
  cases htype : env.typeOf arg with
  | none =>
    rw [builtinArg_of_unknown htype, htype] at ht
    cases ht
  | some type =>
    rw [builtinArg_of_typeOf htype] at ht ⊢
    by_cases hs : type.isScalar = true
    · refine .inr ⟨?_, type, rfl, hs⟩
      by_contra hvector
      rw [Bool.not_eq_false] at hvector
      rw [hs, hvector, Bool.and_self, Bool.and_self, if_pos rfl,
        typeOf_construct_of_float hfloat] at ht
      cases ht
      cases target <;> simp_all [ShaderType.isVector, ShaderType.isScalar]
    · rw [Bool.eq_false_iff.mpr hs, Bool.and_false, Bool.false_and, if_neg Bool.false_ne_true]
        at ht ⊢
      rw [floatIfInteger_of_typeOf htype] at ht ⊢
      by_cases hint : type.isIntegerBased = true
      · rw [if_pos hint] at ht ⊢
        rw [typeOf_toFloat htype] at ht
        cases ht
        cases type with
        | vector s n =>
          have hn : n ≤ 1 := by
            by_contra hn
            simp [ShaderType.ofComponents, ShaderType.components, hn, ShaderType.isScalar] at hscalar
          obtain ⟨h | h, -⟩ | hconstruct := toFloat_cases htype
          · cases h
          · cases h
          · refine .inl ⟨arg, s, n, hconstruct.trans ?_, htype, hn⟩
            simp [ShaderType.ofComponents, ShaderType.components, hn]
        | scalar => exact absurd rfl hs
        | _ => simp [ShaderType.isIntegerBased, ShaderType.component] at hint
      grind

theorem lanes_builtinArg_le (hvector : target.isVector = false)
    (ht : env.typeOf (builtinArg env target spread arg) = some t)
    (harg : ∀ type, env.typeOf arg = some type → type.lanes ≤ 1) : t.lanes ≤ 1 := by
  cases htype : env.typeOf arg with
  | none =>
    rw [builtinArg_of_unknown htype, htype] at ht
    cases ht
  | some type =>
    have hlanes := harg type htype
    rw [builtinArg_of_typeOf htype, hvector, Bool.and_false, if_neg Bool.false_ne_true,
      floatIfInteger_of_typeOf htype] at ht
    by_cases hint : type.isIntegerBased = true
    · rw [if_pos hint] at ht
      rw [typeOf_toFloat htype] at ht
      cases ht
      have hle : type.components.getD 1 ≤ 1 := by
        cases hc : type.components with
        | none => simp
        | some n => simpa [ShaderType.lanes, hc] using hlanes
      rw [ShaderType.ofComponents, if_pos hle]
      exact Nat.le_refl 1
    · rw [if_neg hint, htype] at ht
      cases ht
      exact hlanes

theorem mem_typesOf {es : List Expr} :
    type ∈ (env.typesOf es).filterMap id ↔ ∃ e ∈ es, env.typeOf e = some type := by
  rw [Env.typesOf_eq_map, filterMap_map]
  exact mem_filterMap

theorem shapedArgs_append_map (name : String) (args : List Expr) (f g : Expr → Expr) :
    shapedArgs name ((shapedArgs name args).map f ++ (otherArgs name args).map g) =
      (shapedArgs name args).map f := by
  have hlength : ((shapedArgs name args).map f ++ (otherArgs name args).map g).length =
      args.length := by
    rw [length_append, length_map, length_map, ← length_append,
      shapedArgs_append_otherArgs]
  rw [shapedArgs, hlength]
  refine take_left' ?_
  rw [length_map, shapedArgs, length_take]
  split <;> omega

/-- A scalar among arguments that have been brought to the shape of a vector was a vector without a
second lane. -/
theorem isNarrowed_of_scalar {target' : ShaderType} (hshape : shapeOf env name args = some target)
    (hfloat : target.isFloatBased = true)
    (hshape' : ShaderType.widest ((env.typesOf ((shapedArgs name args).map (builtinArg env target
      true))).filterMap id) = some target') (hvector : target'.isVector = true)
    (harg : arg ∈ (shapedArgs name args).map (builtinArg env target true))
    (ht : env.typeOf arg = some t) (hscalar : t.isScalar = true) : IsNarrowed env arg := by
  obtain ⟨a, ha, rfl⟩ := mem_map.mp harg
  rcases isNarrowed_builtinArg ht hscalar hfloat with h | ⟨hnone, -⟩
  · exact h
  · -- no vector was wanted, so no argument has a second lane, and none gets one
    have hlanes : target.lanes ≤ 1 := by
      grind [ShaderType.isVector_of_two_le_lanes]
    have hargs : ∀ a ∈ shapedArgs name args, ∀ type, env.typeOf a = some type → type.lanes ≤ 1 := by
      intro a ha type htype
      exact Nat.le_trans (ShaderType.lanes_le_widest hshape type (mem_typesOf.mpr ⟨a, ha, htype⟩))
        hlanes
    have hscalar' : target'.isScalar = true := by
      refine ShaderType.isScalar_widest hshape' (fun u hu => ?_) (mem_typesOf.mpr ⟨_, harg, ht⟩)
        hscalar
      grind [mem_typesOf, lanes_builtinArg_le]
    cases target' <;> simp_all [ShaderType.isVector, ShaderType.isScalar]

theorem isComponentwise_of_mem_sameShape : ∀ name ∈ sameShape, isComponentwise name = true := by
  decide

theorem noneNarrowed_of_builtinArgs_eq (h : builtinArgs env name args = args) :
    NoneNarrowed env (.call name args) := by
  intro _ hname target hshape hfloat hvector arg harg hnarrowed
  rcases builtinArgs_cases env name args with ⟨-, hnone⟩ | ⟨target', hshape', -, hargs⟩
  · rw [hnone target hshape] at hfloat
    cases hfloat
  · obtain rfl : target = target' := Option.some.inj (hshape.symm.trans hshape')
    rw [hargs, contains_iff_mem.mpr hname] at h
    have hmap := (append_inj (h.trans (shapedArgs_append_otherArgs name args).symm)
      (length_map ..)).1
    have hself := map_eq_self_iff.mp hmap arg harg
    obtain ⟨v, s, n, rfl, -, -⟩ := hnarrowed
    have htype : env.typeOf (.construct .float [v]) = some .float := typeOf_construct_of_float rfl _
    rw [builtinArg_of_typeOf htype, hvector] at hself
    have hweight := congrArg weight hself
    have hgrows := (grows_floatIfInteger env (.construct .float [v])).le
    grind [weight_lt_construct, ShaderType.isScalar]

theorem builtinArgs_builtinArgs_iff (huser : env.isUserFunction name = false) :
    builtinArgs env name (builtinArgs env name args) = builtinArgs env name args ↔
      NoneNarrowed env (.call name (builtinArgs env name args)) := by
  refine ⟨noneNarrowed_of_builtinArgs_eq, fun hnone => ?_⟩
  rcases builtinArgs_cases env name args with ⟨hsame, -⟩ | ⟨target, hshape, hfloat, hargs⟩
  · rw [hsame, hsame]
  · have hint : ∀ a ∈ builtinArgs env name args, NoInteger env a := by
      grind [noInteger_builtinArg]
    have hshaped := shapedArgs_append_map name args
      (builtinArg env target (sameShape.contains name)) (builtinArg env target false)
    rw [← hargs] at hshaped
    rcases builtinArgs_cases env name (builtinArgs env name args) with
      ⟨hsame, -⟩ | ⟨target', hshape', hfloat', hargs'⟩
    · exact hsame
    · rw [hargs']
      have hfirst : (shapedArgs name (builtinArgs env name args)).map
          (builtinArg env target' (sameShape.contains name)) =
            shapedArgs name (builtinArgs env name args) := by
        refine map_eq_self_iff.mpr fun a ha => ?_
        refine builtinArg_eq_self (hint a (mem_of_mem_take ha)) fun hspread hvector t ht => ?_
        rw [contains_iff_mem] at hspread
        by_contra hscalar
        rw [Bool.not_eq_false] at hscalar
        refine hnone huser hspread target' hshape' hfloat' hvector a ha ?_
        grind [shapeOf, isNarrowed_of_scalar]
      have hrest : (otherArgs name (builtinArgs env name args)).map (builtinArg env target' false) =
          otherArgs name (builtinArgs env name args) := by
        refine map_eq_self_iff.mpr fun a ha => ?_
        exact builtinArg_eq_self (hint a (mem_of_mem_drop ha)) nofun
      rw [hfirst, hrest, shapedArgs_append_otherArgs]

end Arguments

/-! ## Nodes -/

section Nodes

variable {env : Env} {e x : Expr}

theorem coerce_zip_again (env : Env) : ∀ (args : List Expr) (types : List ShaderType),
    ((((args.zip types).map fun (arg, type) => coerce env type arg).zip types).map
      fun (arg, type) => coerce env type arg) =
        (args.zip types).map fun (arg, type) => coerce env type arg
  | [], _ => by simp
  | _ :: _, [] => by simp
  | arg :: args, type :: types => by
    simp only [zip_cons_cons, map_cons, coerce_coerce, coerce_zip_again env args types]

theorem userArgs_userArgs (env : Env) (name : String) (args : List Expr) :
    userArgs env name (userArgs env name args) = userArgs env name args := by
  have hlength := (converted_userArgs env name args).length_eq
  by_cases hone : ∃ s, env.candidates name args.length = [s]
  · obtain ⟨s, hs⟩ := hone
    have hdef : ∀ xs : List Expr, xs.length = args.length → userArgs env name xs =
        (xs.zip s.params).map fun (arg, type) => coerce env type arg := by
      intro xs hxs
      unfold userArgs
      rw [hxs, hs]
    rw [hdef _ hlength.symm, hdef args rfl]
    exact coerce_zip_again env args s.params
  · have hsame : ∀ xs : List Expr, xs.length = args.length → userArgs env name xs = xs := by
      intro xs hxs
      unfold userArgs
      rw [hxs]
      split
      · rename_i s hs
        exact absurd ⟨s, hs⟩ hone
      · rfl
    exact hsame _ hlength.symm

theorem constructorArgs_constructorArgs (env : Env) (type : ShaderType) (args : List Expr) :
    constructorArgs env type (constructorArgs env type args) = constructorArgs env type args := by
  by_cases htype : (!type.isFloatBased || type.isScalar) = true
  · have hargs : ∀ xs, constructorArgs env type xs = xs := fun xs => if_pos htype
    rw [hargs, hargs]
  · have hargs : ∀ xs, constructorArgs env type xs = _ := fun xs => if_neg htype
    rw [hargs args, hargs, length_map, map_eq_self_iff, forall_mem_map]
    intro arg _
    cases ht : env.typeOf arg with
    | none => simp only [ht]
    | some t =>
      by_cases hint : (t.isIntegerBased && (t.isScalar || args.length != 1)) = true
      · simp only [hint, if_true]
        split
        · rename_i t' ht'
          rw [noInteger_toFloat ht t' ht']
          rfl
        · rfl
      · simp only [hint, ht, Bool.false_eq_true, if_false]

theorem unify_of_noInteger {lhs rhs : Expr} (hl : NoInteger env lhs) (hr : NoInteger env rhs) :
    unify env lhs rhs = (lhs, rhs) := by
  unfold unify
  split
  · rename_i l r htl htr
    simp [hl l htl, hr r htr]
  · rfl

theorem noInteger_of_isFloatBased {type : ShaderType} (h : env.typeOf e = some type)
    (hfloat : type.isFloatBased = true) : NoInteger env e := by
  intro t ht
  grind [ShaderType.isFloatBased, ShaderType.isIntegerBased]

theorem unify_unify (env : Env) (lhs rhs : Expr) :
    unify env (unify env lhs rhs).1 (unify env lhs rhs).2 = unify env lhs rhs := by
  grind [unify, noInteger_of_isFloatBased, noInteger_toFloat, unify_of_noInteger]

/-- **A converted node is converted again only if an argument is to be spread.** -/
theorem convertNode_convertNode_iff (env : Env) (e : Expr) :
    convertNode env (convertNode env e) = convertNode env e ↔
      NoneNarrowed env (convertNode env e) := by
  cases e with
  | call name args =>
    by_cases huser : env.isUserFunction name = true
    · have hnode : ∀ xs, convertNode env (.call name xs) = .call name (userArgs env name xs) :=
        fun xs => if_pos huser
      rw [hnode, hnode, userArgs_userArgs]
      refine iff_of_true rfl fun hfalse => ?_
      rw [huser] at hfalse
      cases hfalse
    · by_cases hcomp : isComponentwise name = true
      · grind [convertNode, builtinArgs_builtinArgs_iff]
      · have hnode : ∀ xs, convertNode env (.call name xs) = .call name xs :=
          fun xs => (if_neg huser).trans (if_neg hcomp)
        rw [hnode, hnode]
        refine iff_of_true rfl fun _ hname => ?_
        exact absurd (isComponentwise_of_mem_sameShape name hname) hcomp
  | construct type args =>
    refine iff_of_true ?_ trivial
    simp only [convertNode, constructorArgs_constructorArgs]
  | binary op lhs rhs =>
    by_cases hop : (op.isArithmetic || op.isComparison) = true
    · have hnode : ∀ l r, convertNode env (.binary op l r) =
          .binary op (unify env l r).1 (unify env l r).2 := fun l r => if_pos hop
      rw [hnode, hnode, unify_unify]
      exact iff_of_true rfl trivial
    · have hnode : ∀ l r, convertNode env (.binary op l r) = .binary op l r :=
        fun l r => if_neg hop
      rw [hnode, hnode]
      exact iff_of_true rfl trivial
  | assign op lhs rhs =>
    cases htype : env.typeOf lhs with
    | none =>
      have hnode : convertNode env (.assign op lhs rhs) = .assign op lhs rhs := by
        simp only [convertNode, htype]
      rw [hnode, hnode]
      exact iff_of_true rfl trivial
    | some target =>
      have hnode : ∀ r, convertNode env (.assign op lhs r) =
          .assign op lhs (coerce env target r) := fun r => by
        simp only [convertNode, htype]
      rw [hnode, hnode, coerce_coerce]
      exact iff_of_true rfl trivial
  | _ => exact iff_of_true rfl trivial

theorem noneNarrowed_of_convertNode_eq (h : convertNode env e = e) : NoneNarrowed env e := by
  grind [convertNode_convertNode_iff]

end Nodes

/-! ## Expressions -/

/-- The node stays, unless an argument is to be spread. -/
def StaysConverted (env : Env) (e : Expr) : Prop :=
  NoneNarrowed env e → convertNode env e = e

section Expressions

variable {env : Env} {e x : Expr}

theorem stays_construct_of_noInteger (type : ShaderType) (h : NoInteger env e) :
    StaysConverted env (.construct type [e]) := by
  intro _
  simp only [convertNode, constructorArgs]
  split
  · rfl
  · simp only [map_cons, map_nil]
    split
    · rename_i t ht
      rw [h t ht]
      rfl
    · rfl

theorem stays_construct_ofComponents {type : ShaderType} (h : env.typeOf e = some type) :
    StaysConverted env (.construct (.ofComponents .float (type.components.getD 1)) [e]) := by
  intro _
  simp only [convertNode, constructorArgs, map_cons, map_nil, h]
  by_cases hscalar : type.isScalar = true
  · cases type with
    | scalar => rfl
    | _ => cases hscalar
  · simp [hscalar]

theorem all_stays_toFloat {type : ShaderType} (htype : env.typeOf e = some type)
    (he : e.All (StaysConverted env)) : (toFloat type e).All (StaysConverted env) := by
  unfold toFloat
  split
  · exact all_float.mpr fun _ => rfl
  · exact all_unary.mpr ⟨fun _ => rfl, all_float.mpr fun _ => rfl⟩
  grind [all_construct, stays_construct_ofComponents]

theorem all_stays_floatIfInteger (he : e.All (StaysConverted env)) :
    (floatIfInteger env e).All (StaysConverted env) := by
  unfold floatIfInteger
  split
  · rename_i type htype
    split
    · exact all_stays_toFloat htype he
    · exact he
  · exact he

theorem all_stays_converted (h : Converted env e x) (he : e.All (StaysConverted env)) :
    x.All (StaysConverted env) := by
  cases h with
  | same => exact he
  | float htype => exact all_stays_toFloat htype he
  | @spread _ target =>
    grind [all_construct, all_stays_floatIfInteger, stays_construct_of_noInteger,
        noInteger_floatIfInteger]

theorem all_stays_convertNode (h : ∀ c ∈ e.children, c.All (StaysConverted env)) :
    (convertNode env e).All (StaysConverted env) := by
  refine all_iff.mpr ⟨(convertNode_convertNode_iff env e).mpr, ?_⟩
  obtain ⟨es, heq, hes⟩ := exists_convertNode_eq env e
  rw [heq, children_withChildren hes.length_eq.symm]
  intro x hx
  obtain ⟨c, hc, hconverted⟩ := exists_of_forall₂_right hes hx
  exact all_stays_converted hconverted (h c hc)

end Expressions

/-! ## Programs -/

/-- The conversions as a rewriting: where a type is wanted, the whole expression is converted
too. -/
def conversions : Rewriting where
  node := convertNode
  whole := fun env role e =>
    match role with
    | .wanted type => coerce env type e
    | _ => e

theorem rewrites_converter : converter.Rewrites (fun result a => a = result) conversions where
  expr := fun _ _ _ _ ha => ⟨rfl, ha⟩
  stmt := fun env s result a ha => by
    subst ha
    refine ⟨congrArg (fun s => [s]) ?_, rfl⟩
    have hid := Stmt.mapRoles_id result s
    cases s with
    | decl => rfl
    | ret value => cases value <;> rfl
    | _ => exact hid.symm
  global := fun _ _ _ ha => ⟨rfl, ha⟩
  enter := fun _ _ _ _ => ⟨rfl, rfl⟩
  leave := fun _ _ _ _ _ => ⟨rfl, rfl⟩

theorem converted_whole (env : Env) (role : Role) (e : Expr) :
    Converted env e (conversions.whole env role e) := by
  cases role with
  | wanted type => exact converted_coerce env type e
  | operand | label => exact .same e

theorem whole_whole (env : Env) (role : Role) (e : Expr) :
    conversions.whole env role (conversions.whole env role e) = conversions.whole env role e := by
  cases role with
  | wanted type => exact coerce_coerce env type e
  | operand | label => rfl

theorem apply_conversions {q : Site} (hrole : q.role ≠ .label) :
    conversions.apply q =
      conversions.whole q.around q.role (q.expr.mapNodes (convertNode q.env)) := by
  obtain ⟨env, around, role, e⟩ := q
  cases role with
  | label => exact absurd rfl hrole
  | operand | wanted => rfl

theorem apply_apply_conversions {q : Site} (hrole : q.role ≠ .label)
    (hwanted : ∀ type, q.role = .wanted type → q.around = q.env) :
    conversions.apply { q with expr := conversions.apply q } = conversions.apply q ↔
      (conversions.apply q).All (NoneNarrowed q.env) := by
  rw [apply_conversions (q := { q with expr := conversions.apply q }) hrole]
  constructor
  · intro heq
    have hwhole := grows_converted (converted_whole q.around q.role
      ((conversions.apply q).mapNodes (convertNode q.env)))
    have hnodes : (conversions.apply q).mapNodes (convertNode q.env) = conversions.apply q :=
      (grows_mapNodes (grows_convertNode q.env) _).eq_of_eq hwhole heq
    have hall := (Faithful.of_grows (grows_convertNode q.env)).mapNodes_eq_self_iff.mp hnodes
    exact fun x hx => noneNarrowed_of_convertNode_eq (hall x hx)
  · intro hnone
    have hstays : (conversions.apply q).All (StaysConverted q.env) := by
      rw [apply_conversions hrole]
      have hnodes : (q.expr.mapNodes (convertNode q.env)).All (StaysConverted q.env) :=
        all_mapNodes (fun _ => all_stays_convertNode) q.expr
      cases hq : q.role with
      | wanted type =>
        grind [all_stays_converted, converted_whole]
      | operand => exact hnodes
      | label => exact absurd hq hrole
    have hnodes : (conversions.apply q).mapNodes (convertNode q.env) = conversions.apply q :=
      mapNodes_eq_self fun x hx => hstays x hx (hnone x hx)
    rw [hnodes, apply_conversions hrole]
    exact whole_whole ..

/-- **The pass leaves its own outcome as it is exactly if no vector without a second lane stands
beside a vector in a function that wants arguments of one shape.** -/
theorem insertConversions_again_iff (st : Setting) (p : Program) (a b : State) :
    let q := (insertConversions st p a).1
    (insertConversions st q b).1 = q ↔ q.EachNode (st.envFor q) NoneNarrowed :=
  walk_walk_eq_iff rewrites_converter (fun _ _ => rfl) (fun _ => apply_apply_conversions) st p rfl
    rfl

end Lowering

end ShaderEffect
