import ShaderEffect.Proofs.Tree
import ShaderEffect.Proofs.Typing.Judgement

/-!
# What inference gets right

Inference agrees with the typing rules except at two kinds of nodes. A call takes the first overload
with as many parameters as there are arguments, whatever their types. An operation takes the type of
one operand where it is neither's: a product of matrices of different widths, an integer vector next
to a float, and a bitwise operation of a scalar with a vector. `Misjudged` describes these nodes by
the types of their operands.

**`typeOf_right_iff`**: inference is never wrong on an expression and its parts if and only if none
of them is misjudged, and then it knows the type of each part that has one.
-/

namespace ShaderEffect

open List Expr

variable {t : ShaderType} {e : Expr} {env : Env} {s : Scalar}

/-! ## Operations -/

namespace BinOp

/-- The operand types at which the type of an arithmetic operation is taken from the wrong one. -/
def misjudgesArithmetic (op : BinOp) (l r : ShaderType) : Bool :=
  match l, r with
  | .matrix c _, .matrix d _ => op == .mul && c != d
  | .vector s _, r => s.isInteger && r.isFloatBased
  | l, .vector s _ => s.isInteger && l.isFloatBased
  | _, _ => false

/-- The operand types at which the type of an operation is taken from the wrong one. -/
def misjudges (op : BinOp) (l r : ShaderType) : Bool :=
  if op.isArithmetic then op.misjudgesArithmetic l r else op.isBitwise && l.isScalar && r.isVector

end BinOp

namespace Scalar

theorem eq_of_isInteger (h : s.isInteger = true) : s = .int ∨ s = .uint := by
  cases s with
  | int => exact .inl rfl
  | uint => exact .inr rfl
  | float | bool => cases h

theorem Joins.mem {a b : Scalar} (h : Joins a b s) :
    (a, b, s) ∈ [(Scalar.float, Scalar.float, Scalar.float), (.int, .int, .int),
      (.uint, .uint, .uint), (.float, .int, .float), (.float, .uint, .float),
      (.int, .float, .float), (.uint, .float, .float)] := by
  cases h with
  | float => decide
  | integer h | left h | right h => rcases eq_of_isInteger h with rfl | rfl <;> decide

end Scalar

namespace ShaderType

variable {l r : ShaderType}

/-- The inferred type of an arithmetic operation is its type, save at the operand types that are
misjudged. -/
theorem arithmetic_eq_iff {op : BinOp} (h : Arithmetic op l r t) :
    arithmetic op l r = t ↔ op.misjudgesArithmetic l r = false := by
  cases h with
  | scalars h | vectors h | vectorScalar h | scalarVector h | matrixVector hop h
  | vectorMatrix hop h =>
    have hmem := h.mem
    simp only [mem_cons, not_mem_nil, or_false, Prod.mk.injEq] at hmem
    rcases hmem with ⟨ha, hb, hs⟩ | ⟨ha, hb, hs⟩ | ⟨ha, hb, hs⟩ | ⟨ha, hb, hs⟩ | ⟨ha, hb, hs⟩ |
      ⟨ha, hb, hs⟩ | ⟨ha, hb, hs⟩
    all_goals simp_all [arithmetic, BinOp.misjudgesArithmetic, Scalar.isInteger, isFloatBased,
      component]
  | matrixScalar | scalarMatrix | matrices => simp [arithmetic, BinOp.misjudgesArithmetic]
  | product hop => simp [arithmetic, BinOp.misjudgesArithmetic, hop]

theorem arithmetic_of_integral (hs : s.isInteger = true) (h : Integral s l r t) :
    arithmetic .rem l r = t ∧ BinOp.misjudgesArithmetic .rem l r = false := by
  rcases Scalar.eq_of_isInteger hs with rfl | rfl <;> cases h <;> exact ⟨rfl, rfl⟩

/-- **The inferred type of an operation is its type**, save at the operand types that are
misjudged. -/
theorem binaryType_eq_iff {op : BinOp} (h : Operation op l r t) :
    Env.binaryType op (some l) (some r) = some t ↔ op.misjudges l r = false := by
  cases h with
  | arithmetic hop h =>
    have heq := arithmetic_eq_iff h
    simp only [mem_cons, not_mem_nil, or_false] at hop
    rcases hop with rfl | rfl | rfl | rfl
    all_goals exact Option.some_inj.trans heq
  | remainder hs h =>
    obtain ⟨htype, hright⟩ := arithmetic_of_integral hs h
    exact iff_of_true (congrArg some htype) hright
  | bitwise hop hs h =>
    cases op <;> cases hop <;> cases h <;>
      simp [Env.binaryType, BinOp.misjudges, BinOp.isComparison, BinOp.isLogical, BinOp.isBitwise,
        BinOp.isArithmetic, isScalar, isVector]
  | shift hop h => cases op <;> cases hop <;> exact iff_of_true rfl rfl
  | order hop h =>
    simp only [mem_cons, not_mem_nil, or_false] at hop
    rcases hop with rfl | rfl | rfl | rfl <;> exact iff_of_true rfl rfl
  | equality hop h =>
    simp only [mem_cons, not_mem_nil, or_false] at hop
    rcases hop with rfl | rfl <;> exact iff_of_true rfl rfl
  | logical hop => cases op <;> cases hop <;> exact iff_of_true rfl rfl

theorem sized_of_ne (h : ∀ elem, t ≠ .array elem .unsized) (count : Nat) : t.sized count = t := by
  unfold sized
  split
  · exact absurd rfl (h _)
  · rfl

end ShaderType

/-! ## Names and members -/

namespace Env

theorem lookup_of_stands {name : String} (h : env.Stands name t) : env.lookup name = some t := by
  unfold lookup
  cases h with
  | declared hscopes hidden found =>
    grind
  | host hidden found => rw [findSome?_eq_none_iff.mpr hidden, Option.none_or, found]

theorem typesOf_eq_map (env : Env) : ∀ es : List Expr, env.typesOf es = es.map env.typeOf
  | [] => rfl
  | e :: es => by rw [typesOf, typesOf_eq_map env es, map_cons]

theorem typeOf_construct_ofComponents (env : Env) (s : Scalar) (n : Nat) (es : List Expr) :
    env.typeOf (.construct (.ofComponents s n) es) = some (.ofComponents s n) := by
  simp only [typeOf, ShaderType.ofComponents]
  split <;> rfl

theorem literalType_eq {text : String} :
    (MarkedUnsigned text → literalType text = .scalar .uint) ∧
      (¬ MarkedUnsigned text → literalType text = .int) := by
  grind [MarkedUnsigned, literalType]

end Env

theorem isSwizzle_of_chooses {width : Nat} {name : String} (h : Chooses width name) :
    isSwizzle name = true := by
  obtain ⟨hne, hlen, set, hset, hmem⟩ := h
  have hall : name.toList.all set.contains = true := by
    grind
  grind [isSwizzle]

theorem HaveTypes.length_eq : ∀ {es : List Expr} {ts : List ShaderType},
    HaveTypes env es ts → es.length = ts.length
  | [], _, h => by cases h; rfl
  | e :: es, _, h => by
    cases h with
    | cons _ hs => rw [length_cons, length_cons, hs.length_eq]

theorem HaveTypes.typesOf : ∀ {es : List Expr} {ts : List ShaderType},
    HaveTypes env es ts → (∀ e ∈ es, ∀ t, HasType env e t → env.typeOf e = some t) →
      env.typesOf es = ts.map some
  | [], _, h, _ => by cases h; rfl
  | e :: es, _, h, htypes => by
    cases h with
    | cons he hs =>
      rw [Env.typesOf, htypes e (mem_cons_self ..) _ he,
        hs.typesOf fun x hx => htypes x (mem_cons_of_mem e hx), map_cons]

/-! ## Nodes that are misjudged -/

/-- The first overload with as many parameters as the call has arguments, which inference takes. -/
def Env.firstByCount (env : Env) (name : String) (count : Nat) : Option Signature :=
  (env.candidates name count).head?

/-- The node at which the inferred type is not the type of the node although those of its operands
are right. -/
def Misjudged (env : Env) : Expr → Prop
  | .binary op lhs rhs => ∃ l r t, HasType env lhs l ∧ HasType env rhs r ∧
      ShaderType.Operation op l r t ∧ op.misjudges l r = true
  | .call name args => ∃ s ∈ env.functions, s.name = name ∧ HaveTypes env args s.params ∧
      ∃ first, env.firstByCount name args.length = some first ∧ first.returns ≠ s.returns
  | _ => False

theorem mem_candidates {s : Signature} (hs : s ∈ env.functions) {count : Nat}
    (hcount : s.params.length = count) : s ∈ env.candidates s.name count := by
  simp [Env.candidates, Env.signatures, hs, hcount]

theorem exists_firstByCount {s : Signature} (hs : s ∈ env.functions) {args : List Expr}
    (hargs : HaveTypes env args s.params) :
    ∃ first, env.firstByCount s.name args.length = some first ∧
      env.typeOf (.call s.name args) = some first.returns := by
  have hmem := mem_candidates hs hargs.length_eq.symm
  have hlen : (env.typesOf args).length = args.length := by
    rw [Env.typesOf_eq_map, length_map]
  rw [Env.firstByCount, Env.typeOf, Env.callType, hlen]
  cases hc : env.candidates s.name args.length with
  | nil =>
    rw [hc] at hmem
    cases hmem
  | cons first others => exact ⟨first, rfl, rfl⟩

/-- **Without misjudged parts, inference knows the type of an expression.** -/
theorem typeOf_of_hasType (hright : ∀ x ∈ e.subexprs, ¬ Misjudged env x) (h : HasType env e t) :
    env.typeOf e = some t := by
  induction e using byChildren generalizing t with
  | node e ih =>
    have hchild : ∀ c ∈ e.children, ∀ u, HasType env c u → env.typeOf c = some u :=
      fun c hc u => ih c hc fun x hx => hright x (subexprs_subset hc hx)
    have hself : ¬ Misjudged env e := hright e e.mem_subexprs_self
    cases h with
    | signed h => rw [Env.typeOf, Env.literalType_eq.2 h]
    | unsigned h => rw [Env.typeOf, Env.literalType_eq.1 h]
    | float | bool => rfl
    | ident h => exact Env.lookup_of_stands h
    | not he => rfl
    | unary hop he _ _ =>
      rw [Env.typeOf, if_neg (by simpa using hop)]
      exact hchild _ (by simp [children]) _ he
    | binary hl hr hop =>
      rw [Env.typeOf, hchild _ (by simp [children]) _ hl,
        hchild _ (by simp [children]) _ hr]
      refine (ShaderType.binaryType_eq_iff hop).mpr (Bool.eq_false_iff.mpr fun hmis => ?_)
      exact hself ⟨_, _, _, hl, hr, hop, hmis⟩
    | assign hl _ _ | compound hl _ _ =>
      rw [Env.typeOf]
      exact hchild _ (by simp [children]) _ hl
    | conditional _ ht _ =>
      rw [Env.typeOf, hchild _ (by simp [children]) _ ht]
      rfl
    | call hargs hs hname hparams =>
      subst hname hparams
      obtain ⟨first, hfirst, htype⟩ := exists_firstByCount hs hargs
      rw [htype, Option.some_inj]
      by_contra hne
      exact hself ⟨_, hs, rfl, hargs, first, hfirst, hne⟩
    | construct _ h =>
      rw [Env.typeOf, ShaderType.sized_of_ne h]
    | elements _ => rfl
    | lanes hb h =>
      rw [Env.typeOf, hchild _ (by simp [children]) _ hb, Option.bind_some, Env.fieldType,
        if_pos (isSwizzle_of_chooses h)]
    | member hb h =>
      rw [Env.typeOf, hchild _ (by simp [children]) _ hb]
      exact h
    | component hb _ _ | column hb _ _ | element hb _ _ =>
      rw [Env.typeOf, hchild _ (by simp [children]) _ hb]
      rfl
    | comma hitems h =>
      rw [Env.typeOf, hitems.typesOf hchild, getLast?_map, h]
      rfl

/-- A misjudged node has a type, and where inference knows those of its operands it gives another
one. -/
theorem typeOf_of_misjudged
    (hchild : ∀ c ∈ e.children, ∀ t, HasType env c t → env.typeOf c = some t)
    (h : Misjudged env e) : ∃ t u, HasType env e t ∧ env.typeOf e = some u ∧ u ≠ t := by
  cases e with
  | binary op lhs rhs =>
    obtain ⟨l, r, t, hl, hr, hop, hmis⟩ := h
    have hknown : ∃ u, Env.binaryType op (some l) (some r) = some u := by
      unfold Env.binaryType
      split_ifs <;> exact ⟨_, rfl⟩
    obtain ⟨u, hu⟩ := hknown
    refine ⟨t, u, .binary hl hr hop, ?_, ?_⟩
    · grind [Env.typeOf, children]
    grind [ShaderType.binaryType_eq_iff]
  | call name args =>
    obtain ⟨s, hs, rfl, hargs, first, hfirst, hne⟩ := h
    obtain ⟨other, hother, htype⟩ := exists_firstByCount hs hargs
    rw [hfirst, Option.some_inj] at hother
    subst hother
    exact ⟨s.returns, first.returns, .call hargs hs rfl rfl, htype, hne⟩
  | _ => exact h.elim

theorem not_misjudged_of_right
    (hright : ∀ x ∈ e.subexprs, ∀ t u, HasType env x t → env.typeOf x = some u → u = t) :
    ∀ x ∈ e.subexprs, ¬ Misjudged env x := by
  induction e using byChildren with
  | node e ih =>
    grind [subexprs_eq_cons, typeOf_of_misjudged, typeOf_of_hasType]

/-- **Inference is never wrong on an expression and its parts if and only if none of them is
misjudged.** Then it is also never at a loss: it gives the type of every part that has one. -/
theorem typeOf_right_iff (env : Env) (e : Expr) :
    ((∀ x ∈ e.subexprs, ∀ t u, HasType env x t → env.typeOf x = some u → u = t) ↔
        ∀ x ∈ e.subexprs, ¬ Misjudged env x) ∧
      ((∀ x ∈ e.subexprs, ∀ t, HasType env x t → env.typeOf x = some t) ↔
        ∀ x ∈ e.subexprs, ¬ Misjudged env x) := by
  have hknows : (∀ x ∈ e.subexprs, ¬ Misjudged env x) →
      ∀ x ∈ e.subexprs, ∀ t, HasType env x t → env.typeOf x = some t := fun hright x hx t ht =>
    typeOf_of_hasType (fun y hy => hright y (subexprs_subset_of_mem hx hy)) ht
  have hnever : (∀ x ∈ e.subexprs, ∀ t, HasType env x t → env.typeOf x = some t) →
      ∀ x ∈ e.subexprs, ∀ t u, HasType env x t → env.typeOf x = some u → u = t := by
    intro hall x hx t u ht hu
    rw [hall x hx t ht] at hu
    exact (Option.some_inj.mp hu).symm
  exact ⟨⟨not_misjudged_of_right, fun h => hnever (hknows h)⟩,
    fun h => not_misjudged_of_right (hnever h), hknows⟩

end ShaderEffect
