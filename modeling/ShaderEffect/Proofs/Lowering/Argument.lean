import ShaderEffect.Lowering.Parameter
import ShaderEffect.Proofs.Lowering.Lowered

/-!
# How arguments are passed

What the steps of the lowering of parameters can do, said once: an argument that is written back goes
as it is, by its address or through a temporary (`PassesTo`), the arguments of a call go one after the
other (`ArgsTo`), and a statement gets what waits around it (`WrapsTo`).
-/

namespace ShaderEffect.Lowering

open Walker List

variable {env : Env} {a b c : ParamState}
variable {s : Stmt}

/-! ## Arguments -/

/-- An argument waits to be put into a temporary before the statement, and to be copied back after it
if it can be assigned to. -/
def ParamState.hold (a : ParamState) (held : String) (type : ShaderType) (arg : Expr) : ParamState :=
  { a with
    before := a.before ++ [.decl [.var held type (some arg)]]
    after := if arg.root?.isSome then a.after ++ [.expr (.assign none arg (.ident held))]
      else a.after }

/-- The same but for notices and new temporaries. -/
def ParamState.Noted (a b : ParamState) : Prop :=
  ∃ base : State, base.Since a.base ∧ b = { a with base := base }

theorem noted_trans (h : a.Noted b) (h' : b.Noted c) : a.Noted c := by
  obtain ⟨base, hbase, rfl⟩ := h
  obtain ⟨base', hbase', rfl⟩ := h'
  exact ⟨base', hbase'.trans hbase, rfl⟩

/-- An argument that is passed as it is: an address, or a parameter that is a pointer already. -/
def PassedAsIs (lowered : List String) (env : Env) : Expr → Prop
  | .addrOf _ => True
  | .ident name => name ∈ lowered ∧ isParam env name = true
  | _ => False

/-- What becomes of an argument that is written back. -/
inductive PassesTo (env : Env) (a : ParamState) : Expr → Expr → ParamState → Prop
  /-- A parameter that is read through its pointer is passed on by its pointer. -/
  | pointer {name : String} : name ∈ a.pointers →
      PassesTo env a (.deref (.ident name)) (.ident name) a
  | asIs {arg : Expr} : PassedAsIs a.lowered env arg → PassesTo env a arg arg a
  | address {name : String} : ¬ PassedAsIs a.lowered env (.ident name) →
      env.isLocal name = true →
      PassesTo env a (.ident name) (.addrOf (.ident name)) a
  | untyped {arg : Expr} {b : ParamState} : ¬ PassedAsIs a.lowered env arg → a.Noted b →
      PassesTo env a arg (.addrOf arg) b
  | held {arg : Expr} {held : String} {type : ShaderType} {b : ParamState} :
      ¬ PassedAsIs a.lowered env arg →
      (∀ name, arg = .ident name → env.isLocal name = false) →
      (∀ name, arg = .deref (.ident name) → name ∉ a.pointers) → a.Noted b →
      PassesTo env a arg (.addrOf (.ident held)) (b.hold held type arg)

theorem noted_note (n : LoweringNotice) (a : ParamState) : a.Noted (onBase (note n) a).2 :=
  ⟨(note n a.base).2, .of_eq rfl rfl, rfl⟩

theorem noted_temp (kind : TempKind) (a : ParamState) : a.Noted (onBase (temp kind) a).2 :=
  ⟨(temp kind a.base).2, .temp kind a.base, rfl⟩

theorem passThroughTemp_eq (env : Env) (arg : Expr) (a : ParamState) :
    ∃ b, a.Noted b ∧ (passThroughTemp env arg a = (.addrOf arg, b) ∨
      ∃ held type, passThroughTemp env arg a = (.addrOf (.ident held), b.hold held type arg)) := by
  unfold passThroughTemp
  cases env.typeOf arg with
  | none =>
    dsimp only
    split
    · exact ⟨_, noted_trans (noted_note _ _) (noted_note _ _), .inl rfl⟩
    · exact ⟨_, noted_note _ _, .inl rfl⟩
  | some type =>
    dsimp only
    split
    · exact ⟨_, noted_trans (noted_note _ _) (noted_temp .arg _), .inr ⟨_, type, rfl⟩⟩
    · exact ⟨_, noted_temp .arg _, .inr ⟨_, type, rfl⟩⟩

/-- **What becomes of an argument that is written back.** -/
theorem passByRef_to (env : Env) (arg : Expr) (a : ParamState) :
    PassesTo env a arg (passByRef env arg a).1 (passByRef env arg a).2 := by
  have htemp : ¬ PassedAsIs a.lowered env arg →
      (∀ name, arg = .ident name → env.isLocal name = false) →
      (∀ name, arg = .deref (.ident name) → name ∉ a.pointers) →
      PassesTo env a arg (passThroughTemp env arg a).1 (passThroughTemp env arg a).2 := by
    intro hasIs hlocal hpointer
    obtain ⟨b, hb, hout | ⟨held, type, hout⟩⟩ := passThroughTemp_eq env arg a
    · rw [hout]
      exact .untyped hasIs hb
    · rw [hout]
      exact .held hasIs hlocal hpointer hb
  unfold passByRef
  rw [run_bind]
  show PassesTo env a arg ((_ : ParamM Expr) a).1 ((_ : ParamM Expr) a).2
  split
  · rename_i name
    split
    · rename_i hname
      exact .pointer (contains_iff_mem.mp hname)
    · rename_i hname
      refine htemp id (by simp) ?_
      rintro _ ⟨rfl⟩
      exact fun h => hname (contains_iff_mem.mpr h)
  · rename_i name
    split
    · rename_i hname
      rw [Bool.and_eq_true, contains_iff_mem] at hname
      exact .asIs hname
    · rename_i hname
      rw [Bool.and_eq_true, contains_iff_mem] at hname
      split
      · rename_i hlocal
        exact .address hname hlocal
      · rename_i hlocal
        refine htemp hname ?_ (by simp)
        rintro _ ⟨rfl⟩
        exact Bool.eq_false_iff.mpr hlocal
  · exact .asIs trivial
  · rename_i hderef hident haddress
    refine htemp ?_ (fun name h => absurd h (hident name)) fun name h => absurd h (hderef name)
    cases arg with
    | ident name => exact absurd rfl (hident name)
    | addrOf target => exact absurd rfl (haddress target)
    | _ => exact id

/-- What becomes of the arguments of a call, in order. Those beyond the parameters stay. -/
inductive ArgsTo (env : Env) :
    List Bool → List Expr → ParamState → List Expr → ParamState → Prop
  | rest (args : List Expr) (a : ParamState) : ArgsTo env [] args a args a
  | nil (flags : List Bool) (a : ParamState) : ArgsTo env flags [] a [] a
  | value {arg : Expr} {flags : List Bool} {args out : List Expr} {a b : ParamState} :
      ArgsTo env flags args a out b → ArgsTo env (false :: flags) (arg :: args) a (arg :: out) b
  | ref {arg o : Expr} {flags : List Bool} {args out : List Expr} {a b c : ParamState} :
      PassesTo env a arg o b → ArgsTo env flags args b out c →
      ArgsTo env (true :: flags) (arg :: args) a (o :: out) c

theorem passArgs_nil (env : Env) (args : List Expr) : passArgs env [] args = pure args := by
  unfold passArgs
  rfl

theorem passArgs_to (env : Env) : ∀ (flags : List Bool) (args : List Expr) (a : ParamState),
    ArgsTo env flags args a (passArgs env flags args a).1 (passArgs env flags args a).2
  | [], args, a => by
    rw [passArgs_nil]
    exact .rest args a
  | flag :: flags, [], a => .nil _ a
  | flag :: flags, arg :: args, a => by
    rw [passArgs]
    cases flag with
    | false => exact .value (passArgs_to env flags args a)
    | true => exact .ref (passByRef_to env arg a) (passArgs_to env flags args _)

/-! ## Nodes -/

/-- What becomes of a node whose operands have been lowered. -/
inductive LowersTo (table : RefTable) (env : Env) (a : ParamState) :
    Expr → Expr → ParamState → Prop
  | behind {name : String} : name ∈ a.pointers → isParam env name = true →
      LowersTo table env a (.ident name) (.deref (.ident name)) a
  | ident {name : String} : (name ∈ a.pointers → isParam env name = false) →
      LowersTo table env a (.ident name) (.ident name) a
  | call {name : String} {args out : List Expr} {b : ParamState} :
      ArgsTo env ((table.lookup name).getD []) args a out b →
      LowersTo table env a (.call name args) (.call name out) b
  | other {e : Expr} : e.name? = none → e.isCall = false → LowersTo table env a e e a

/-- **What becomes of a node.** -/
theorem lowerParamExpr_to (table : RefTable) (env : Env) (e : Expr) (a : ParamState) :
    LowersTo table env a e (lowerParamExpr table env e a).1 (lowerParamExpr table env e a).2 := by
  cases e with
  | ident name =>
    show LowersTo table env a _ (if a.pointers.contains name && isParam env name then _ else _) a
    split
    · rename_i h
      rw [Bool.and_eq_true, contains_iff_mem] at h
      exact .behind h.1 h.2
    · rename_i h
      rw [Bool.and_eq_true, contains_iff_mem] at h
      exact .ident fun hname => Bool.eq_false_iff.mpr fun hparam => h ⟨hname, hparam⟩
  | call name args =>
    have hargs : lowerParamExpr table env (.call name args) a =
        (.call name (passArgs env ((table.lookup name).getD []) args a).1,
          (passArgs env ((table.lookup name).getD []) args a).2) := by
      simp only [lowerParamExpr]
      cases table.lookup name with
      | none => rw [Option.getD_none, passArgs_nil]; rfl
      | some flags => rfl
    rw [hargs]
    exact .call (passArgs_to env _ args a)
  | _ => exact .other rfl rfl

/-! ## Statements -/

/-- The notices that a statement with copies around it causes. -/
def copyNotices (s : Stmt) : List LoweringNotice :=
  if isLoop s then [.loopHeaderCopy] else []

/-- What becomes of a statement: what waits is put around it, and a result is held back if something
has to come after it. -/
inductive WrapsTo (a : ParamState) : Stmt → List Stmt → ParamState → Prop
  | alone {s : Stmt} : a.before = [] → a.after = [] → WrapsTo a s [s] a
  | around {s : Stmt} {b : ParamState} : ¬ (a.before = [] ∧ a.after = []) →
      (∀ value, s = .ret (some value) → a.after = [] ∨ a.returns = .void) → a.Noted b →
      b.base.notices = a.base.notices ++ copyNotices s →
      WrapsTo a s (a.before ++ [s] ++ a.after) { b with before := [], after := [] }
  | result {value : Expr} {result : String} {b : ParamState} : a.after ≠ [] →
      a.returns ≠ .void → a.Noted b → b.base.notices = a.base.notices →
      WrapsTo a (.ret (some value))
        (a.before ++ [.decl [.var result a.returns (some value)]] ++ a.after ++
          [.ret (some (.ident result))]) { b with before := [], after := [] }

/-- **What becomes of a statement.** -/
theorem wrapStmt_to (s : Stmt) (a : ParamState) :
    WrapsTo a s (wrapStmt s a).1 (wrapStmt s a).2 := by
  have hempty : (a.before.isEmpty && a.after.isEmpty) = true ↔ a.before = [] ∧ a.after = [] := by
    rw [Bool.and_eq_true, List.isEmpty_iff, List.isEmpty_iff]
  have hstay : (∀ value, s = .ret (some value) → a.after = [] ∨ a.returns = .void) →
      ¬ (a.before = [] ∧ a.after = []) → ∀ base : State, base.Since a.base →
      base.notices = a.base.notices ++ copyNotices s →
      WrapsTo a s (a.before ++ [s] ++ a.after) { a with base, before := [], after := [] } :=
    fun hret hwait base hsince hnotices =>
      .around hwait hret ⟨base, hsince, rfl⟩ hnotices
  unfold wrapStmt
  have hget : (get : ParamM ParamState) a = (a, a) := rfl
  simp only [run_bind]
  by_cases hidle : (a.before.isEmpty && a.after.isEmpty) = true
  · simp only [hget, hidle]
    exact .alone (hempty.mp hidle).1 (hempty.mp hidle).2
  · have hwait := mt hempty.mpr hidle
    simp only [hget, hidle]
    cases s with
    | ret value =>
      cases value with
      | none => exact hstay (by simp) hwait a.base (.refl _) (append_nil _).symm
      | some value =>
        have hvoid : (a.after.isEmpty || a.returns == .void) = true ↔
            a.after = [] ∨ a.returns = .void := by
          rw [Bool.or_eq_true, List.isEmpty_iff, beq_iff_eq]
        dsimp only
        by_cases h : (a.after.isEmpty || a.returns == .void) = true
        · simp only [h]
          exact hstay (fun _ _ => hvoid.mp h) hwait a.base (.refl _) (append_nil _).symm
        · have hafter := not_or.mp (mt hvoid.mpr h)
          simp only [h]
          exact .result hafter.1 hafter.2 ⟨(temp .ret a.base).2, .temp .ret a.base, rfl⟩ rfl
    | forLoop | whileLoop | loop =>
      exact hstay (by simp) hwait (note .loopHeaderCopy a.base).2 (.of_eq rfl rfl) rfl
    | _ => exact hstay (by simp) hwait a.base (.refl _) (append_nil _).symm

theorem WrapsTo.of_idle {x : List Stmt × ParamState} (h : WrapsTo a s x.1 x.2)
    (hbefore : a.before = []) (hafter : a.after = []) : x = ([s], a) := by
  obtain ⟨out, b⟩ := x
  cases h with
  | alone => rfl
  | around hwait => exact absurd ⟨hbefore, hafter⟩ hwait
  | result hne => exact absurd hafter hne

theorem WrapsTo.state {out : List Stmt} (h : WrapsTo a s out b) :
    ∃ base : State, base.Since a.base ∧
      b = { a with base := base, before := [], after := [] } := by
  cases h with
  | alone hbefore hafter =>
    cases a
    cases hbefore
    cases hafter
    exact ⟨_, .refl _, rfl⟩
  | around _ _ hnoted | result _ _ hnoted =>
    obtain ⟨base, hbase, rfl⟩ := hnoted
    exact ⟨base, hbase, rfl⟩

theorem WrapsTo.forall_mem {Q : Stmt → Prop} {out : List Stmt} (h : WrapsTo a s out b)
    (hbefore : ∀ t ∈ a.before, Q t) (hafter : ∀ t ∈ a.after, Q t) (hs : Q s)
    (hret : ∀ value result type, s = .ret (some value) → Q (.decl [.var result type (some value)])
      ∧ Q (.ret (some (.ident result)))) : ∀ t ∈ out, Q t := by
  cases h with
  | alone => exact forall_mem_singleton.mpr hs
  | around =>
    grind
  | result =>
    obtain ⟨hdecl, hend⟩ := hret _ _ a.returns rfl
    simp only [forall_mem_append, forall_mem_singleton]
    exact ⟨⟨⟨hbefore, hdecl⟩, hafter⟩, hend⟩

/-! ## What holds throughout -/

/-- The property of states does not depend on notices, and stays when the argument is held. -/
structure Holds (P : ParamState → Prop) (arg : Expr) : Prop where
  noted {a b : ParamState} : a.Noted b → P a → P b
  hold {a : ParamState} (held : String) (type : ShaderType) : P a → P (a.hold held type arg)

section Keeps

variable {P : ParamState → Prop} {arg o e e' : Expr} {flags : List Bool} {args out : List Expr}
  {table : RefTable}

theorem PassesTo.keeps (h : PassesTo env a arg o b) (hP : Holds P arg) (ha : P a) : P b := by
  cases h with
  | pointer | asIs | address => exact ha
  | untyped _ hb => exact hP.noted hb ha
  | held _ _ _ hb => exact hP.hold _ _ (hP.noted hb ha)

theorem ArgsTo.keeps (h : ArgsTo env flags args a out b) (hP : ∀ arg ∈ args, Holds P arg)
    (ha : P a) : P b := by
  induction h with
  | rest | nil => exact ha
  | value _ ih => exact ih (forall_mem_cons.mp hP).2 ha
  | ref hto _ ih =>
    rw [forall_mem_cons] at hP
    exact ih hP.2 (hto.keeps hP.1 ha)

/-- What holds whatever operand is put aside holds behind the node. -/
theorem LowersTo.keeps (h : LowersTo table env a e e' b) (hP : ∀ arg ∈ e.children, Holds P arg)
    (ha : P a) : P b := by
  cases h with
  | behind | ident | other => exact ha
  | call hargs => exact hargs.keeps hP ha

theorem PassesTo.ends {Q : Expr → Prop} (h : PassesTo env a arg o b) (hself : Q arg)
    (hname : ∀ name, Q (.ident name)) (haddress : ∀ x, Q x → Q (.addrOf x)) : Q o := by
  cases h with
  | pointer => exact hname _
  | asIs => exact hself
  | address | untyped => exact haddress _ hself
  | held => exact haddress _ (hname _)

theorem ArgsTo.forall₂ {Q : Expr → Expr → Prop} (h : ArgsTo env flags args a out b)
    (hself : ∀ x, Q x x) (hto : ∀ {x y : Expr} {a b : ParamState}, PassesTo env a x y b → Q x y) :
    List.Forall₂ Q args out := by
  induction h with
  | rest => exact forall₂_same.mpr fun x _ => hself x
  | nil => exact .nil
  | value _ ih => exact .cons (hself _) ih
  | ref hpass _ ih => exact .cons (hto hpass) ih

end Keeps

end ShaderEffect.Lowering
