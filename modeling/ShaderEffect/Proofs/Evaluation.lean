import ShaderEffect.Proofs.Execution
import ShaderEffect.Proofs.Memory
import ShaderEffect.Proofs.Tree

/-!
# Evaluation in a memory

A `Machine` says what the operations of the language do, and `Machine.eval` builds on it the value of
an expression and the memory that it leaves, from left to right. Expressions that can be assigned to
lead to addresses (`Machine.target`). Together they are a meaning in which statements run
(`Machine.meaning`).

The expressions that the passes read twice are those that only read: **a pure target leaves the memory
as it is, and it is evaluated to what is at its address** (`target_pure`, `eval_of_target`), and new
variables with other names change nothing for it.
-/

namespace ShaderEffect

open List Expr

/-- The numbers of the variables that names stand for. -/
abbrev Bindings := String → Option Nat

def Datum.isScalar {κ : Type} : Datum κ → Bool
  | .scalar _ => true
  | _ => false

/-- What literals, operators, constructors and functions do. Components have types, and `cast` brings a
component to a type. -/
structure Machine (κ : Type) where
  int : String → Datum κ
  float : String → Datum κ
  ofBool : Bool → Datum κ
  truth : Datum κ → Bool
  /-- The value is that of a case label. -/
  equals : Datum κ → Expr → Bool
  /-- The number of an element. -/
  position : Datum κ → Option Nat
  unary : UnaryOp → Datum κ → Option (Datum κ)
  binary : BinOp → Datum κ → Datum κ → Option (Datum κ)
  cast : Scalar → κ → κ
  /-- Constructs what is no vector. -/
  build : ShaderType → List (Datum κ) → Option (Datum κ)
  call : String → List (Datum κ) → Memory κ → Option (Datum κ × Memory κ)
  /-- What a variable holds that is declared without a value. -/
  initial : ShaderType → Datum κ
  truth_ofBool : ∀ b, truth (ofBool b) = b
  cast_cast : ∀ k c, cast k (cast k c) = cast k c
  /-- What a compound assignment makes of a vector is no scalar. -/
  binary_vector : ∀ op cs d v, (op.isArithmetic || op.isBitwise || op.isShift) = true →
    binary op (.vector cs) d = some v → v.isScalar = false

def Datum.components {κ : Type} : Datum κ → Option (List κ)
  | .scalar c => some [c]
  | .vector cs => some cs
  | _ => none

/-- The components of a constructed vector: those of all operands, or a single one for all lanes. -/
def Datum.gather {κ : Type} (width : Nat) : List (Datum κ) → Option (List κ)
  | [.scalar c] => some (List.replicate width c)
  | ds => (ds.mapM components).bind fun css =>
    if css.flatten.length = width then some css.flatten else none

namespace Machine

variable {κ : Type} (M : Machine κ)
variable {v : Datum κ} {e : Expr} {es : List Expr}

def operate (op : UnaryOp) (d : Datum κ) : Option (Datum κ) :=
  if op == .not then some (M.ofBool (!M.truth d)) else M.unary op d

def construct : ShaderType → List (Datum κ) → Option (Datum κ)
  | .vector k width, ds => (Datum.gather width ds).map fun cs => .vector (cs.map (M.cast k))
  | type, ds => M.build type ds

/-- The first operand of `&&` or `||` decides. -/
def decides (op : BinOp) (d : Datum κ) : Bool :=
  (op == .and && !M.truth d) || (op == .or && M.truth d)

def combine : Option BinOp → Option (Datum κ) → Datum κ → Option (Datum κ)
  | none, _, d => some d
  | some op, old, d => old.bind fun o => M.binary op o d

mutual

/-- The value of an expression, and the memory after it. -/
def eval (sc : Bindings) : Expr → Memory κ → Option (Datum κ × Memory κ)
  | .int text, m => some (M.int text, m)
  | .float text, m => some (M.float text, m)
  | .bool value, m => some (M.ofBool value, m)
  | .ident name, m => do
    let x ← sc name
    let d ← m[x]?
    pure (d, m)
  | .unary op operand, m =>
    if op.isStep then do
      let t ← target sc operand m
      let old ← t.2.read t.1
      let new ← M.unary op old
      let m ← t.2.write t.1 new
      pure (if op == .preInc || op == .preDec then new else old, m)
    else do
      let x ← eval sc operand m
      let v ← M.operate op x.1
      pure (v, x.2)
  | .binary op lhs rhs, m => do
    let x ← eval sc lhs m
    if M.decides op x.1 then
      pure (M.ofBool (M.truth x.1), x.2)
    else
      let y ← eval sc rhs x.2
      let v ← M.binary op x.1 y.1
      pure (v, y.2)
  | .assign op lhs rhs, m => do
    let t ← target sc lhs m
    let y ← eval sc rhs t.2
    let v ← M.combine op (y.2.read t.1) y.1
    let m ← y.2.write t.1 v
    pure (v, m)
  | .conditional cond whenTrue whenFalse, m => do
    let x ← eval sc cond m
    if M.truth x.1 then eval sc whenTrue x.2 else eval sc whenFalse x.2
  | .call name args, m => do
    let xs ← evalAll sc args m
    M.call name xs.1 xs.2
  | .construct type args, m => do
    let xs ← evalAll sc args m
    let v ← M.construct type xs.1
    pure (v, xs.2)
  | .field base name, m => do
    let x ← eval sc base m
    let v ← x.1.part (.field name)
    pure (v, x.2)
  | .index base position, m => do
    let x ← eval sc base m
    let y ← eval sc position x.2
    let i ← M.position y.1
    let v ← x.1.part (.item i)
    pure (v, y.2)
  | .comma items, m => do
    let xs ← evalAll sc items m
    pure (xs.1.getLastD (M.ofBool false), xs.2)
  | .deref pointer, m => do
    let x ← eval sc pointer m
    match x.1 with
    | .pointer a => do
      let v ← x.2.read a
      pure (v, x.2)
    | _ => none
  | .addrOf operand, m => do
    let t ← target sc operand m
    pure (.pointer t.1, t.2)

/-- The values of expressions from left to right, and the memory after them. -/
def evalAll (sc : Bindings) : List Expr → Memory κ → Option (List (Datum κ) × Memory κ)
  | [], m => some ([], m)
  | e :: es, m => do
    let x ← eval sc e m
    let xs ← evalAll sc es x.2
    pure (x.1 :: xs.1, xs.2)

/-- The address that an expression leads to, and the memory after it. -/
def target (sc : Bindings) : Expr → Memory κ → Option (Address × Memory κ)
  | .ident name, m => do
    let x ← sc name
    pure (⟨x, []⟩, m)
  | .field base name, m => do
    let t ← target sc base m
    pure (t.1.push (.field name), t.2)
  | .index base position, m => do
    let t ← target sc base m
    let y ← eval sc position t.2
    let i ← M.position y.1
    pure (t.1.push (.item i), y.2)
  | .deref pointer, m => do
    let x ← eval sc pointer m
    match x.1 with
    | .pointer a => pure (a, x.2)
    | _ => none
  | _, _ => none

end

/-- A value as a variable of the type takes it. -/
def heldAs : ShaderType → Datum κ → Datum κ
  | .scalar k, .scalar c => .scalar (M.cast k c)
  | .vector k _, .vector cs => .vector (cs.map (M.cast k))
  | _, d => d

/-- The scope and the memory after a declaration. -/
def declare (d : VarDecl) (sc : Bindings) (m : Memory κ) : Option (Bindings × Memory κ) := do
  let x ← d.init.elim (some (M.initial d.type, m)) fun e => M.eval sc e m
  pure (Function.update sc d.name (some x.2.length), x.2 ++ [M.heldAs d.type x.1])

/-! ## Nodes -/

section Steps

variable {α β μ : Type}

theorem step_iff {x : Option (α × μ)} {f : α × μ → Option β} {b : β} :
    (do let s ← x; f s) = some b ↔ ∃ a n, x = some (a, n) ∧ f (a, n) = some b := by
  simp [Option.bind_eq_some_iff]

theorem last_iff {x : Option α} {v : α} {m m' : μ} :
    (do let a ← x; pure (a, m)) = some (v, m') ↔ x = some v ∧ m = m' := by
  simp [Option.bind_eq_some_iff, and_comm]

end Steps

section Nodes

variable {M} {sc : Bindings} {m m' : Memory κ} {e x y : Expr} {v : Datum κ} {a : Address}
variable {name : String}

-- The equations are made here, once for all the proofs that unfold.
attribute [local simp] eval evalAll target

theorem eval_ident_iff : M.eval sc (.ident name) m = some (v, m') ↔
    m' = m ∧ ∃ n, sc name = some n ∧ m[n]? = some v := by
  grind [eval, Option.bind_eq_some_iff]

theorem eval_unary_iff {op : UnaryOp} (h : op.isStep = false) :
    M.eval sc (.unary op x) m = some (v, m') ↔
      ∃ d, M.eval sc x m = some (d, m') ∧ M.operate op d = some v := by
  simp only [eval, h, Bool.false_eq_true, if_false, step_iff, last_iff, exists_eq_right_right]

theorem eval_binary_iff {op : BinOp} : M.eval sc (.binary op x y) m = some (v, m') ↔
    ∃ d n, M.eval sc x m = some (d, n) ∧
      ((M.decides op d = true ∧ v = M.ofBool (M.truth d) ∧ m' = n) ∨
        (M.decides op d = false ∧ ∃ e, M.eval sc y n = some (e, m') ∧ M.binary op d e = some v)) := by
  simp only [eval, step_iff]
  refine exists_congr fun d => exists_congr fun n => and_congr_right fun _ => ?_
  cases M.decides op d with
  | true => simp [eq_comm]
  | false =>
    simp only [Bool.false_eq_true, if_false, step_iff, last_iff, exists_eq_right_right, false_and,
      false_or, true_and]

theorem eval_field_iff : M.eval sc (.field x name) m = some (v, m') ↔
    ∃ d, M.eval sc x m = some (d, m') ∧ d.part (.field name) = some v := by
  simp only [eval, step_iff, last_iff, exists_eq_right_right]

theorem eval_index_iff : M.eval sc (.index x y) m = some (v, m') ↔
    ∃ d n e i, M.eval sc x m = some (d, n) ∧ M.eval sc y n = some (e, m') ∧ M.position e = some i ∧
      d.part (.item i) = some v := by
  simp only [eval, Option.bind_eq_bind, Option.bind_eq_some_iff, Option.pure_def, Option.some.injEq,
    Prod.mk.injEq, Prod.exists]
  constructor
  · rintro ⟨d, n, hd, e, k, he, i, hi, w, hw, rfl, rfl⟩
    exact ⟨d, n, e, i, hd, he, hi, hw⟩
  · rintro ⟨d, n, e, i, hd, he, hi, hv⟩
    exact ⟨d, n, hd, e, m', he, i, hi, v, hv, rfl, rfl⟩

theorem eval_deref_iff : M.eval sc (.deref x) m = some (v, m') ↔
    ∃ a, M.eval sc x m = some (.pointer a, m') ∧ m'.read a = some v := by
  simp only [eval, step_iff]
  constructor
  · rintro ⟨d, n, hd, h⟩
    cases d with
    | pointer a =>
      obtain ⟨hv, rfl⟩ := last_iff.mp h
      exact ⟨a, hd, hv⟩
    | _ => cases h
  · rintro ⟨a, ha, hv⟩
    exact ⟨.pointer a, m', ha, last_iff.mpr ⟨hv, rfl⟩⟩

theorem eval_assign_iff {op : Option BinOp} : M.eval sc (.assign op x y) m = some (v, m') ↔
    ∃ a n d k, M.target sc x m = some (a, n) ∧ M.eval sc y n = some (d, k) ∧
      M.combine op (k.read a) d = some v ∧ k.write a v = some m' := by
  simp only [eval, Option.bind_eq_bind, Option.bind_eq_some_iff, Option.pure_def, Option.some.injEq,
    Prod.mk.injEq, Prod.exists]
  constructor
  · rintro ⟨a, n, ha, d, k, hd, w, hw, l, hl, rfl, rfl⟩
    exact ⟨a, n, d, k, ha, hd, hw, hl⟩
  · rintro ⟨a, n, d, k, ha, hd, hv, hm⟩
    exact ⟨a, n, ha, d, k, hd, v, hv, m', hm, rfl, rfl⟩

theorem eval_construct_iff {type : ShaderType} :
    M.eval sc (.construct type es) m = some (v, m') ↔
      ∃ ds, M.evalAll sc es m = some (ds, m') ∧ M.construct type ds = some v := by
  simp only [eval, step_iff, last_iff, exists_eq_right_right]

theorem evalAll_cons_iff {ds : List (Datum κ)} :
    M.evalAll sc (e :: es) m = some (ds, m') ↔
      ∃ d n ds', M.eval sc e m = some (d, n) ∧ M.evalAll sc es n = some (ds', m') ∧
        ds = d :: ds' := by
  simp only [evalAll, step_iff]
  constructor
  · rintro ⟨d, n, hd, ds', k, hds, h⟩
    cases h
    exact ⟨d, n, ds', hd, hds, rfl⟩
  · rintro ⟨d, n, ds', hd, hds, rfl⟩
    exact ⟨d, n, hd, ds', m', hds, rfl⟩

theorem target_ident_iff : M.target sc (.ident name) m = some (a, m') ↔
    m' = m ∧ ∃ n, sc name = some n ∧ a = ⟨n, []⟩ := by
  simp only [target, Option.bind_eq_bind, Option.bind_eq_some_iff, Option.pure_def,
    Option.some.injEq, Prod.mk.injEq]
  constructor
  · rintro ⟨n, hn, rfl, rfl⟩
    exact ⟨rfl, n, hn, rfl⟩
  · rintro ⟨rfl, n, hn, rfl⟩
    exact ⟨n, hn, rfl, rfl⟩

theorem target_field_iff : M.target sc (.field x name) m = some (a, m') ↔
    ∃ b, M.target sc x m = some (b, m') ∧ a = b.push (.field name) := by
  simp only [target, step_iff]
  constructor
  · rintro ⟨b, n, hb, h⟩
    cases h
    exact ⟨b, hb, rfl⟩
  · rintro ⟨b, hb, rfl⟩
    exact ⟨b, m', hb, rfl⟩

theorem target_index_iff : M.target sc (.index x y) m = some (a, m') ↔
    ∃ b n e i, M.target sc x m = some (b, n) ∧ M.eval sc y n = some (e, m') ∧
      M.position e = some i ∧ a = b.push (.item i) := by
  simp only [target, Option.bind_eq_bind, Option.bind_eq_some_iff, Option.pure_def,
    Option.some.injEq, Prod.mk.injEq, Prod.exists]
  constructor
  · rintro ⟨b, n, hb, e, k, he, i, hi, rfl, rfl⟩
    exact ⟨b, n, e, i, hb, he, hi, rfl⟩
  · rintro ⟨b, n, e, i, hb, he, hi, rfl⟩
    exact ⟨b, n, hb, e, m', he, i, hi, rfl, rfl⟩

theorem target_deref_iff : M.target sc (.deref x) m = some (a, m') ↔
    M.eval sc x m = some (.pointer a, m') := by
  simp only [target, step_iff]
  constructor
  · rintro ⟨d, n, hd, h⟩
    cases d with
    | pointer b =>
      cases h
      exact hd
    | _ => cases h
  · exact fun h => ⟨.pointer a, m', h, rfl⟩

end Nodes

/-! ## The meaning -/

theorem eval_comma_iff {sc : Bindings} {m m' : Memory κ} :
    (∃ v, M.eval sc (.comma es) m = some (v, m')) ↔ ∃ ds, M.evalAll sc es m = some (ds, m') := by
  simp only [eval, step_iff]
  constructor
  · rintro ⟨v, ds, n, hds, h⟩
    cases h
    exact ⟨ds, hds⟩
  · rintro ⟨ds, hds⟩
    exact ⟨_, ds, m', hds, rfl⟩

/-- The meaning of expressions and declarations on a machine. No fragment is discarded within an
expression. -/
def meaning : Meaning where
  Scope := Bindings
  Store := Memory κ
  Value := Datum κ
  eval e sc m r m' := ∃ v, r = some v ∧ M.eval sc e m = some (v, m')
  declare d sc m r m' := ∃ sc', r = some sc' ∧ M.declare d sc m = some (sc', m')
  truth := M.truth
  equals := M.equals
  eval_not e sc m r m' := by
    constructor
    · rintro ⟨_, ⟨v, rfl, hv⟩, rfl⟩
      obtain ⟨d, hd, hop⟩ := (eval_unary_iff rfl).mp hv
      obtain rfl : M.ofBool (!M.truth d) = v := Option.some.inj hop
      exact ⟨some d, ⟨d, rfl, hd⟩, congrArg some (M.truth_ofBool _).symm⟩
    · rintro ⟨_, ⟨d, rfl, hd⟩, rfl⟩
      exact ⟨_, ⟨_, rfl, (eval_unary_iff rfl).mpr ⟨d, hd, rfl⟩⟩, congrArg some (M.truth_ofBool _)⟩
  eval_comma_nil sc m r m' := by
    have hnil : M.eval sc (.comma []) m = some (M.ofBool false, m) := by
      rw [eval, evalAll]
      rfl
    constructor
    · rintro ⟨_, ⟨v, rfl, hv⟩, rfl⟩
      cases hnil.symm.trans hv
      exact ⟨rfl, rfl⟩
    · rintro ⟨rfl, rfl⟩
      exact ⟨_, ⟨_, rfl, hnil⟩, rfl⟩
  eval_comma_cons e es sc m r m' := by
    constructor
    · rintro ⟨_, ⟨v, rfl, hv⟩, rfl⟩
      obtain ⟨ds, hds⟩ := (M.eval_comma_iff).mp ⟨v, hv⟩
      obtain ⟨d, n, ds', hd, hds', -⟩ := evalAll_cons_iff.mp hds
      obtain ⟨w, hw⟩ := (M.eval_comma_iff).mpr ⟨ds', hds'⟩
      exact .inl ⟨d, n, ⟨d, rfl, hd⟩, some w, ⟨w, rfl, hw⟩, rfl⟩
    · rintro (⟨d, n, ⟨_, hd, he⟩, _, ⟨w, rfl, hw⟩, rfl⟩ | ⟨⟨_, h, -⟩, -⟩)
      · obtain ⟨ds', hds'⟩ := (M.eval_comma_iff).mp ⟨w, hw⟩
        obtain ⟨v, hv⟩ := (M.eval_comma_iff).mpr
          ⟨_, evalAll_cons_iff.mpr ⟨_, n, ds', he, hds', rfl⟩⟩
        exact ⟨some v, ⟨v, rfl, hv⟩, rfl⟩
      · cases h

/-! ## Expressions that only read -/

section Reading

variable {M} {sc : Bindings} {m m' : Memory κ}

/-- The names in the expression stand for the same variables. -/
def SameNames (e : Expr) (sc sc' : Bindings) : Prop :=
  ∀ x, .ident x ∈ e.subexprs → sc' x = sc x

theorem SameNames.child {c : Expr} {sc' : Bindings} (h : SameNames e sc sc') (hc : c ∈ e.children) :
    SameNames c sc sc' :=
  fun x hx => h x (subexprs_subset hc hx)

/-- **A pure expression only reads**: it leaves the memory as it is, and new variables with other
names change nothing for it. -/
theorem eval_pure (h : e.isPureTarget = true ∨ e.isPureIndex = true)
    (he : M.eval sc e m = some (v, m')) :
    m' = m ∧ ∀ sc' new, SameNames e sc sc' → M.eval sc' e (m ++ new) = some (v, m ++ new) := by
  induction e using byChildren generalizing m m' v with
  | node e ih =>
    cases e with
    | int text =>
      rw [eval] at he
      cases he
      exact ⟨rfl, fun _ _ _ => by rw [eval]⟩
    | ident name =>
      obtain ⟨rfl, n, hn, hd⟩ := eval_ident_iff.mp he
      refine ⟨rfl, fun sc' new hsc => eval_ident_iff.mpr ⟨rfl, n, ?_, ?_⟩⟩
      · rw [hsc name (mem_subexprs_self _), hn]
      · rw [List.getElem?_append_left (List.getElem?_eq_some_iff.mp hd).1, hd]
    | unary op operand =>
      have hop : op = .neg ∧ operand.isPureIndex = true := by
        rcases h with h | h
        · cases h
        · cases op <;> first | exact ⟨rfl, h⟩ | cases h
      obtain ⟨rfl, hoperand⟩ := hop
      obtain ⟨d, hd, hv⟩ := (eval_unary_iff rfl).mp he
      obtain ⟨rfl, hframe⟩ := ih operand mem_cons_self (.inr hoperand) hd
      exact ⟨rfl, fun sc' new hsc =>
        (eval_unary_iff rfl).mpr ⟨d, hframe sc' new (hsc.child mem_cons_self), hv⟩⟩
    | binary op lhs rhs =>
      have hsides : lhs.isPureIndex = true ∧ rhs.isPureIndex = true := by
        rcases h with h | h
        · cases h
        · exact Bool.and_eq_true_iff.mp h
      have hlhs : lhs ∈ (Expr.binary op lhs rhs).children := mem_cons_self
      have hrhs : rhs ∈ (Expr.binary op lhs rhs).children := mem_cons_of_mem _ mem_cons_self
      obtain ⟨d, n, hd, hrest⟩ := eval_binary_iff.mp he
      obtain ⟨rfl, hframe⟩ := ih lhs hlhs (.inr hsides.1) hd
      rcases hrest with ⟨hdecides, hv, rfl⟩ | ⟨hdecides, d', hd', hv⟩
      · exact ⟨rfl, fun sc' new hsc => eval_binary_iff.mpr
          ⟨d, _, hframe sc' new (hsc.child hlhs), .inl ⟨hdecides, hv, rfl⟩⟩⟩
      · obtain ⟨rfl, hframe'⟩ := ih rhs hrhs (.inr hsides.2) hd'
        exact ⟨rfl, fun sc' new hsc => eval_binary_iff.mpr ⟨d, _, hframe sc' new (hsc.child hlhs),
          .inr ⟨hdecides, d', hframe' sc' new (hsc.child hrhs), hv⟩⟩⟩
    | field base name =>
      have hbase : base.isPureTarget = true := h.resolve_right Bool.false_ne_true
      obtain ⟨d, hd, hv⟩ := eval_field_iff.mp he
      obtain ⟨rfl, hframe⟩ := ih base mem_cons_self (.inl hbase) hd
      exact ⟨rfl, fun sc' new hsc =>
        eval_field_iff.mpr ⟨d, hframe sc' new (hsc.child mem_cons_self), hv⟩⟩
    | index base position =>
      have hparts : base.isPureTarget = true ∧ position.isPureIndex = true :=
        Bool.and_eq_true_iff.mp (h.resolve_right Bool.false_ne_true)
      have hbase : base ∈ (index base position).children := mem_cons_self
      have hposition : position ∈ (index base position).children :=
        mem_cons_of_mem _ mem_cons_self
      obtain ⟨d, n, d', i, hd, hd', hi, hv⟩ := eval_index_iff.mp he
      obtain ⟨rfl, hframe⟩ := ih base hbase (.inl hparts.1) hd
      obtain ⟨rfl, hframe'⟩ := ih position hposition (.inr hparts.2) hd'
      exact ⟨rfl, fun sc' new hsc => eval_index_iff.mpr ⟨d, _, d', i,
        hframe sc' new (hsc.child hbase), hframe' sc' new (hsc.child hposition), hi, hv⟩⟩
    | deref pointer =>
      have hpointer : pointer.isPureTarget = true := h.resolve_right Bool.false_ne_true
      obtain ⟨a, ha, hv⟩ := eval_deref_iff.mp he
      obtain ⟨rfl, hframe⟩ := ih pointer mem_cons_self (.inl hpointer) ha
      exact ⟨rfl, fun sc' new hsc => eval_deref_iff.mpr
        ⟨a, hframe sc' new (hsc.child mem_cons_self), Memory.read_append hv new⟩⟩
    | _ => rcases h with h | h <;> cases h

/-- A pure target leads to its address without a change, whatever else is declared. -/
theorem target_pure (h : e.isPureTarget = true) {a : Address}
    (he : M.target sc e m = some (a, m')) :
    m' = m ∧ ∀ sc' new, SameNames e sc sc' → M.target sc' e (m ++ new) = some (a, m ++ new) := by
  induction e using byChildren generalizing m m' a with
  | node e ih =>
    cases e with
    | ident name =>
      obtain ⟨rfl, n, hn, rfl⟩ := target_ident_iff.mp he
      refine ⟨rfl, fun sc' new hsc => target_ident_iff.mpr ⟨rfl, n, ?_, rfl⟩⟩
      rw [hsc name (mem_subexprs_self _), hn]
    | field base name =>
      obtain ⟨b, hb, rfl⟩ := target_field_iff.mp he
      obtain ⟨rfl, hframe⟩ := ih base mem_cons_self h hb
      exact ⟨rfl, fun sc' new hsc =>
        target_field_iff.mpr ⟨b, hframe sc' new (hsc.child mem_cons_self), rfl⟩⟩
    | index base position =>
      obtain ⟨hbase, hposition⟩ := Bool.and_eq_true_iff.mp h
      obtain ⟨b, n, d, i, hb, hd, hi, rfl⟩ := target_index_iff.mp he
      obtain ⟨rfl, hframe⟩ := ih base mem_cons_self hbase hb
      obtain ⟨rfl, hframe'⟩ := eval_pure (.inr hposition) hd
      exact ⟨rfl, fun sc' new hsc => target_index_iff.mpr ⟨b, _, d, i,
        hframe sc' new (hsc.child mem_cons_self),
        hframe' sc' new (hsc.child (mem_cons_of_mem _ mem_cons_self)), hi, rfl⟩⟩
    | deref pointer =>
      obtain ⟨rfl, hframe⟩ := eval_pure (e := pointer) (.inl h) (target_deref_iff.mp he)
      exact ⟨rfl, fun sc' new hsc =>
        target_deref_iff.mpr (hframe sc' new (hsc.child mem_cons_self))⟩
    | _ => cases h

theorem eval_of_target (h : e.isPureTarget = true) {a : Address}
    (he : M.target sc e m = some (a, m)) (hv : m.read a = some v) :
    M.eval sc e m = some (v, m) := by
  induction e using byChildren generalizing a v with
  | node e ih =>
    cases e with
    | ident name =>
      obtain ⟨-, n, hn, rfl⟩ := target_ident_iff.mp he
      refine eval_ident_iff.mpr ⟨rfl, n, hn, ?_⟩
      rw [← hv, Memory.read]
      exact (Option.bind_fun_some _).symm
    | field base name =>
      obtain ⟨b, hb, rfl⟩ := target_field_iff.mp he
      rw [Memory.read_push, Option.bind_eq_some_iff] at hv
      obtain ⟨d, hd, hv⟩ := hv
      exact eval_field_iff.mpr ⟨d, ih base mem_cons_self h hb hd, hv⟩
    | index base position =>
      obtain ⟨hbase, -⟩ := Bool.and_eq_true_iff.mp h
      obtain ⟨b, n, d, i, hb, hd, hi, rfl⟩ := target_index_iff.mp he
      obtain ⟨rfl, -⟩ := target_pure hbase hb
      rw [Memory.read_push, Option.bind_eq_some_iff] at hv
      obtain ⟨d', hd', hv⟩ := hv
      exact eval_index_iff.mpr ⟨d', _, d, i, ih base mem_cons_self hbase hb hd', hd, hi, hv⟩
    | deref pointer => exact eval_deref_iff.mpr ⟨a, target_deref_iff.mp he, hv⟩
    | _ => cases h

end Reading

/-! ## Statements -/

section Statements

variable {M} {dialect : Dialect} {sc sc' : Bindings} {m m' : Memory κ}

/-- The statements lead from one scope and memory to another one, end normally, and can do nothing
else. -/
def Ends (M : Machine κ) (dialect : Dialect) (ss : List Stmt) (a b : Bindings × Memory κ) : Prop :=
  ∀ c o, Stmt.inOrder (Stmt.run M.meaning dialect) ss a c o ↔ c = b ∧ o = .normal

theorem ends_expr (h : M.eval sc e m = some (v, m')) :
    M.Ends dialect [.expr e] (sc, m) (sc, m') := by
  intro c o
  rw [Stmt.inOrder_singleton, Stmt.run]
  constructor
  · rintro ⟨hscope, _, ⟨w, rfl, hw⟩, rfl⟩
    cases h.symm.trans hw
    exact ⟨Prod.ext hscope rfl, rfl⟩
  · rintro ⟨rfl, rfl⟩
    exact ⟨rfl, some v, ⟨v, rfl, h⟩, rfl⟩

theorem ends_decl {d : VarDecl} (h : M.declare d sc m = some (sc', m')) :
    M.Ends dialect [.decl [d]] (sc, m) (sc', m') := by
  intro c o
  rw [Stmt.inOrder_singleton, Stmt.run, map_singleton, Behaviour.inTurn, Behaviour.inTurn,
    Behaviour.andThen_skip]
  constructor
  · rintro ⟨_, ⟨w, rfl, hw⟩, hscope, rfl⟩
    cases h.symm.trans hw
    exact ⟨Prod.ext hscope rfl, rfl⟩
  · rintro ⟨rfl, rfl⟩
    exact ⟨some sc', ⟨sc', rfl, h⟩, rfl, rfl⟩

theorem Ends.append {ss ts : List Stmt} {a b c : Bindings × Memory κ} (h : M.Ends dialect ss a b)
    (h' : M.Ends dialect ts b c) : M.Ends dialect (ss ++ ts) a c := by
  intro x o
  rw [Stmt.inOrder_append]
  constructor
  · rintro (⟨y, hy, hx⟩ | ⟨hx, hne⟩)
    · obtain ⟨rfl, -⟩ := (h y .normal).mp hy
      exact (h' x o).mp hx
    · exact absurd ((h x o).mp hx).2 hne
  · intro hx
    exact .inl ⟨b, (h b .normal).mpr ⟨rfl, rfl⟩, (h' x o).mpr hx⟩

end Statements

/-! ## Integers

A machine whose components are integers. -/

/-- Combines components lane by lane, a scalar with all lanes. -/
def lanewise (f : κ → κ → κ) : Datum κ → Datum κ → Option (Datum κ)
  | .scalar a, .scalar b => some (.scalar (f a b))
  | .scalar a, .vector bs => some (.vector (bs.map (f a)))
  | .vector as, .scalar b => some (.vector (as.map (f · b)))
  | .vector as, .vector bs =>
    if as.length = bs.length then some (.vector (List.zipWith f as bs)) else none
  | _, _ => none

theorem isScalar_lanewise_vector {f : κ → κ → κ} {as : List κ} {d : Datum κ}
    (h : lanewise f (.vector as) d = some v) : v.isScalar = false := by
  cases d with
  | scalar b =>
    cases h
    rfl
  | vector bs =>
    rw [lanewise] at h
    split at h
    · cases h
      rfl
    · cases h
  | whole | pointer => cases h

def integerOp : BinOp → Option (Int → Int → Int)
  | .add => some (· + ·)
  | .sub => some (· - ·)
  | .mul => some (· * ·)
  | _ => none

def integers : Machine Int where
  int text := .scalar ((Literal.wordValue text.toList).getD 0)
  float _ := .scalar 0
  ofBool b := .scalar (if b then 1 else 0)
  truth
    | .scalar c => c != 0
    | _ => false
  equals _ _ := false
  position
    | .scalar c => some c.toNat
    | _ => none
  unary
    | .neg, d => lanewise (· - ·) (.scalar 0) d
    | .preInc, d | .postInc, d => lanewise (· + ·) d (.scalar 1)
    | .preDec, d | .postDec, d => lanewise (· - ·) d (.scalar 1)
    | _, _ => none
  binary op d e := (integerOp op).bind fun f => lanewise f d e
  cast k c := if k = .bool then (if c = 0 then 0 else 1) else c
  build _ _ := none
  call _ _ _ := none
  initial _ := .scalar 0
  truth_ofBool b := by cases b <;> rfl
  cast_cast k c := by
    by_cases hk : k = .bool
    · by_cases hc : c = 0 <;> simp [hk, hc]
    · simp [hk]
  binary_vector op cs d v _ h := by
    obtain ⟨f, -, hf⟩ := Option.bind_eq_some_iff.mp h
    exact isScalar_lanewise_vector hf

end Machine

end ShaderEffect
