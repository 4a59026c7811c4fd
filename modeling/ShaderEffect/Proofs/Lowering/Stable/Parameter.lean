import Mathlib.Algebra.GroupWithZero.Nat
import Mathlib.Algebra.Order.BigOperators.Group.List
import Mathlib.Algebra.Order.Group.Nat
import ShaderEffect.Proofs.Lowering.Stable.Always

/-!
# When the pass on parameters leaves a program as it is

The pass changes the functions that assign to their own parameters or write them back, and the calls
that pass an argument to be written back in another way than by its address. **It leaves a program
as it is exactly if there are no such functions and calls** (`lowerParameters_eq_self_iff`).

An argument that moves out of a call into a statement of its own holds fewer calls than the
expression it comes from, so no statement that has been put around another one can be that other one
again: this is what the count `Expr.calls` is for.
-/

namespace ShaderEffect

open List Expr

variable {e : Expr} {es : List Expr}

namespace Expr

def isAddress : Expr → Bool
  | .addrOf _ => true
  | _ => false

def calls (e : Expr) : Nat :=
  e.subexprs.countP isCall

theorem calls_eq (e : Expr) :
    e.calls = (e.children.map calls).sum + if e.isCall then 1 else 0 := by
  rw [calls, subexprs_eq_cons, countP_cons, countP_flatMap]
  rfl

theorem calls_le_sum (h : e ∈ es) : e.calls ≤ (es.map calls).sum :=
  le_sum_of_mem (mem_map_of_mem h)

theorem calls_le_of_mem_children {c : Expr} (h : c ∈ e.children) : c.calls ≤ e.calls := by
  have := calls_le_sum h
  rw [calls_eq e]
  omega

end Expr

namespace Lowering

open Walker

variable {arg : Expr} {c b a : ParamState}

/-! ## What stays -/

/-- All arguments that the node writes back are passed as they are. -/
def Passes (table : RefTable) (lowered : List String) (env : Env) : Expr → Prop
  | .call name args => ∀ flags, table.lookup name = some flags →
    ∀ x ∈ args.zip flags, x.2 = true → PassedAsIs lowered env x.1
  | _ => True

/-- The function assigns to none of its parameters, and those that it writes back are pointers. -/
def KeepsParams (table : RefTable) (f : Function) : Prop :=
  ∀ p ∈ f.params, needsCopy (writtenRoots table f.body) p = false ∧
    (p.passing = .value ∨ p.passing = .pointer)

/-- The parameters that are pointers where an expression stands: those of the function around it. -/
def pointersOf (f : Option Function) : List String :=
  f.elim [] (paramsPassed [.pointer])

/-! ## What waits around a statement -/

/-- No parameter of the current function is to become a pointer, and what waits around the current
statement holds arguments with the property. -/
structure Around (lowered : List String) (Q : Expr → Prop) (a : ParamState) : Prop where
  pointers : a.pointers = []
  lowered : a.lowered = lowered
  before : ∀ t ∈ a.before, ∃ held type arg, Q arg ∧ t = .decl [.var held type (some arg)]
  after : ∀ t ∈ a.after, ∃ held arg, Q arg ∧ t = .expr (.assign none arg (.ident held))

namespace Around

variable {lowered : List String} {Q Q' : Expr → Prop} {a : ParamState}

theorem mono (h : Around lowered Q a) (hQ : ∀ x, Q x → Q' x) : Around lowered Q' a where
  pointers := h.pointers
  lowered := h.lowered
  before := fun t ht => by
    obtain ⟨held, type, arg, hq, heq⟩ := h.before t ht
    exact ⟨held, type, arg, hQ arg hq, heq⟩
  after := fun t ht => by
    obtain ⟨held, arg, hq, heq⟩ := h.after t ht
    exact ⟨held, arg, hQ arg hq, heq⟩

theorem before_eq_nil (h : Around lowered (fun _ => False) a) : a.before = [] :=
  eq_nil_iff_forall_not_mem.mpr fun t ht => by
    obtain ⟨_, _, _, hfalse, _⟩ := h.before t ht
    exact hfalse

theorem after_eq_nil (h : Around lowered (fun _ => False) a) : a.after = [] :=
  eq_nil_iff_forall_not_mem.mpr fun t ht => by
    obtain ⟨_, _, hfalse, _⟩ := h.after t ht
    exact hfalse

theorem noted (h : Around lowered Q a) (hb : a.Noted b) : Around lowered Q b := by
  obtain ⟨base, -, rfl⟩ := hb
  exact ⟨h.pointers, h.lowered, h.before, h.after⟩

theorem hold (h : Around lowered Q a) (hQ : Q arg) (held : String) (type : ShaderType) :
    Around lowered Q (a.hold held type arg) where
  pointers := h.pointers
  lowered := h.lowered
  before := forall_mem_append.mpr ⟨h.before, forall_mem_singleton.mpr
    ⟨held, type, arg, hQ, rfl⟩⟩
  after := by
    show ∀ t ∈ (if arg.root?.isSome then _ else a.after : List Stmt), _
    split
    · exact forall_mem_append.mpr ⟨h.after, forall_mem_singleton.mpr
        ⟨held, arg, hQ, rfl⟩⟩
    · exact h.after

end Around

/-! ## Arguments -/

section Arguments

variable {lowered : List String} {Q : Expr → Prop} {env : Env} {a b : ParamState}

theorem Around.passesTo (ha : Around lowered Q a) {o : Expr} (h : PassesTo env a arg o b)
    (hQ : Q arg) : Around lowered Q b ∧ o.calls ≤ arg.calls ∧
      (o.isAddress = arg.isAddress → o = arg ∧ b = a ∧ PassedAsIs lowered env arg) := by
  have haddress : ∀ {x : Expr}, ¬ PassedAsIs a.lowered env arg →
      (addrOf x).isAddress = arg.isAddress →
      addrOf x = arg ∧ b = a ∧ PassedAsIs lowered env arg := by
    intro x harg haddress
    cases arg with
    | addrOf => exact absurd trivial harg
    | _ => cases haddress
  have hcalls : ∀ x : Expr, x.calls ≤ arg.calls → (addrOf x).calls ≤ arg.calls :=
    fun x hx => by simpa [calls_eq (.addrOf x), children, isCall] using hx
  cases h with
  | pointer hname =>
    rw [ha.pointers] at hname
    cases hname
  | asIs harg => exact ⟨ha, Nat.le_refl _, fun _ => ⟨rfl, rfl, ha.lowered ▸ harg⟩⟩
  | address harg => exact ⟨ha, hcalls _ (Nat.le_refl _), haddress harg⟩
  | untyped harg hb => exact ⟨ha.noted hb, hcalls _ (Nat.le_refl _), haddress harg⟩
  | held harg _ _ hb => exact ⟨(ha.noted hb).hold hQ _ _, hcalls _ (Nat.zero_le _), haddress harg⟩

theorem Around.argsTo {flags : List Bool} {args out : List Expr}
    (h : ArgsTo env flags args a out b) (ha : Around lowered Q a) (hQ : ∀ arg ∈ args, Q arg) :
    Around lowered Q b ∧ (out.map Expr.calls).sum ≤ (args.map Expr.calls).sum ∧
      (out.map Expr.isAddress = args.map Expr.isAddress → out = args ∧ b = a ∧
        ∀ x ∈ args.zip flags, x.2 = true → PassedAsIs lowered env x.1) := by
  induction h with
  | rest =>
    grind
  | nil => exact ⟨ha, Nat.le_refl _, fun _ => ⟨rfl, rfl, forall_mem_nil _⟩⟩
  | value _ ih =>
    obtain ⟨hb, hcalls, hsame⟩ := ih ha (forall_mem_cons.mp hQ).2
    refine ⟨hb, Nat.add_le_add_left hcalls _, fun haddress => ?_⟩
    obtain ⟨rfl, rfl, hargs⟩ := hsame (cons.inj haddress).2
    exact ⟨rfl, rfl, forall_mem_cons.mpr ⟨fun hfalse => absurd hfalse Bool.false_ne_true, hargs⟩⟩
  | ref hto _ ih =>
    rw [forall_mem_cons] at hQ
    obtain ⟨hb, hcall, hone⟩ := ha.passesTo hto hQ.1
    grind

theorem PassesTo.of_asIs {o : Expr} (h : PassesTo env a arg o b)
    (harg : PassedAsIs a.lowered env arg) : o = arg ∧ b = a := by
  cases h with
  | pointer => exact harg.elim
  | asIs => exact ⟨rfl, rfl⟩
  | address hnot => exact absurd harg hnot
  | untyped hnot => exact absurd harg hnot
  | held hnot => exact absurd harg hnot

theorem ArgsTo.of_asIs {flags : List Bool} {args out : List Expr}
    (h : ArgsTo env flags args a out b) (ha : a.lowered = lowered)
    (hargs : ∀ x ∈ args.zip flags, x.2 = true → PassedAsIs lowered env x.1) :
    out = args ∧ b = a := by
  induction h with
  | rest | nil => exact ⟨rfl, rfl⟩
  | value _ ih =>
    grind
  | ref hto _ ih =>
    rw [zip_cons_cons, forall_mem_cons] at hargs
    obtain ⟨rfl, rfl⟩ := hto.of_asIs (ha ▸ hargs.1 rfl)
    obtain ⟨rfl, rfl⟩ := ih ha hargs.2
    exact ⟨rfl, rfl⟩

end Arguments

/-! ## Expressions -/

/-- What the walk makes of an expression where no parameter is to become a pointer: what moves out
of it holds fewer calls, and it is the same afterwards exactly if nothing has moved. -/
def Gathers (table : RefTable) (env : Env) (e : Expr) (a : ParamState) (e' : Expr)
    (b : ParamState) : Prop :=
  ∀ lowered Q, Around lowered Q a → (∀ arg : Expr, arg.calls < e.calls → Q arg) →
    Around lowered Q b ∧ e'.calls ≤ e.calls ∧ e'.isAddress = e.isAddress ∧
      (e' = e → b = a ∧ e.All (Passes table lowered env)) ∧
      (e.All (Passes table lowered env) → e' = e)

section Expressions

variable {table : RefTable} {env : Env} {lowered : List String} {Q : Expr → Prop}

theorem gathers_exprs {es' : List Expr} (h : ExprsTo (Gathers table) env es a es' b)
    (ha : Around lowered Q a) (hQ : ∀ e ∈ es, ∀ arg : Expr, arg.calls < e.calls → Q arg) :
    Around lowered Q b ∧ (es'.map Expr.calls).sum ≤ (es.map Expr.calls).sum ∧
      es'.map Expr.isAddress = es.map Expr.isAddress ∧
      (es' = es → b = a ∧ ∀ e ∈ es, e.All (Passes table lowered env)) ∧
      ((∀ e ∈ es, e.All (Passes table lowered env)) → es' = es) := by
  induction h with
  | nil => grind
  | cons he _ ih =>
    rw [forall_mem_cons] at hQ
    obtain ⟨hb, hcalls, haddress, hsame, hback⟩ := he lowered Q ha hQ.1
    grind

theorem calls_withChildren (h : es.length = e.children.length) :
    (e.withChildren es).calls = (es.map Expr.calls).sum + if e.isCall then 1 else 0 := by
  rw [calls_eq, children_withChildren h, isCall_withChildren]

theorem LowersTo.of_passes {e' : Expr} (h : LowersTo table env a e e' b) (ha : Around lowered Q a)
    (he : Passes table lowered env e) : e' = e ∧ b = a := by
  cases h with
  | behind hname =>
    rw [ha.pointers] at hname
    cases hname
  | ident | other => exact ⟨rfl, rfl⟩
  | @call name args out _ hargs =>
    cases htable : table.lookup name with
    | none =>
      rw [htable] at hargs
      cases hargs <;> exact ⟨rfl, rfl⟩
    | some flags =>
      rw [htable] at hargs
      obtain ⟨rfl, rfl⟩ := hargs.of_asIs ha.lowered (he flags htable)
      exact ⟨rfl, rfl⟩

theorem gathers_node {e' : Expr} (hes : ExprsTo (Gathers table) env e.children a es b)
    (h : LowersTo table env b (e.withChildren es) e' c) : Gathers table env e a e' c := by
  intro lowered Q ha hQ
  have hlength := hes.length_eq
  obtain ⟨hb, hcalls, haddress, hsame, hback⟩ := gathers_exprs hes ha fun c hc arg harg =>
    hQ arg (Nat.lt_of_lt_of_le harg (calls_le_of_mem_children hc))
  have hpasses : e.All (Passes table lowered env) → e' = e := fun hall => by
    obtain ⟨hnode, hchildren⟩ := all_iff.mp hall
    rw [hback hchildren, withChildren_children] at h
    exact (h.of_passes hb hnode).1
  suffices hfront : Around lowered Q c ∧ e'.calls ≤ e.calls ∧ e'.isAddress = e.isAddress ∧
      (e' = e → c = a ∧ e.All (Passes table lowered env)) from
    ⟨hfront.1, hfront.2.1, hfront.2.2.1, hfront.2.2.2, hpasses⟩
  -- a node that stays as it is put together from its operands
  have hstay : e.isCall = false → Around lowered Q b ∧ (e.withChildren es).calls ≤ e.calls ∧
      (e.withChildren es).isAddress = e.isAddress ∧
      (e.withChildren es = e → b = a ∧ e.All (Passes table lowered env)) := by
    intro hcall
    refine ⟨hb, ?_, ?_, fun heq => ?_⟩
    · grind [calls_withChildren, calls_eq]
    · unfold withChildren
      split <;> rfl
    · have hchildren := congrArg children heq
      rw [children_withChildren hlength] at hchildren
      obtain ⟨rfl, hall⟩ := hsame hchildren
      refine ⟨rfl, all_iff.mpr ⟨?_, hall⟩⟩
      cases e with
      | call => cases hcall
      | _ => trivial
  have hcall := isCall_withChildren e es
  generalize hx : e.withChildren es = x at h hstay hcall
  cases h with
  | behind hname =>
    rw [hb.pointers] at hname
    cases hname
  | ident => exact hstay hcall.symm
  | other _ hother => exact hstay (hcall.symm.trans hother)
  | call hargs =>
    cases e with
    | call name args =>
      obtain ⟨rfl, rfl⟩ := call.inj hx
      have hcalls' : (call name args).calls = (args.map calls).sum + 1 := calls_eq _
      -- an argument of the walked call holds fewer calls than the call itself
      obtain ⟨hc, hsum, hout⟩ := Around.argsTo hargs hb fun arg harg => hQ arg (by
        have hle := calls_le_sum harg
        have hcalls : _ ≤ (args.map calls).sum := hcalls
        omega)
      refine ⟨hc, ?_, rfl, fun heq => ?_⟩
      · rw [hcalls', calls_eq]
        exact Nat.add_le_add_right (Nat.le_trans hsum hcalls) 1
      · obtain rfl := (call.inj heq).2
        obtain ⟨rfl, rfl, hpasses⟩ := hout haddress.symm
        obtain ⟨rfl, hall⟩ := hsame rfl
        refine ⟨rfl, all_call.mpr ⟨fun flags hflags => ?_, hall⟩⟩
        rw [hflags] at hpasses
        exact hpasses
    | _ => cases hcall

end Expressions

/-! ## Statements -/

/-- Nothing waits around the current statement of a function. -/
def Idle (f : Option Function) (a : ParamState) : Prop :=
  Around (pointersOf f) (fun _ => False) a

def PassesIn (table : RefTable) (f : Option Function) (env : Env) (e : Expr) : Prop :=
  Passes table (pointersOf f) env e

structure WrapsIn (table : RefTable) (f : Function) (env : Env) (s : Stmt) (out : List Stmt)
    (b : ParamState) : Prop where
  idle : Idle (some f) b
  again : s ∈ out → out = [s]
  stays : out = [s] ↔ ∀ q ∈ s.places env, Quiet (fun _ _ _ => True) (PassesIn table) f q
  block : ∀ body, s = .block body → ∃ body', out = [.block body']

/-- What the walk makes of a statement, in any function. -/
def Wraps (table : RefTable) (env : Env) (s : Stmt) (a : ParamState) (out : List Stmt)
    (b : ParamState) : Prop :=
  ∀ f, Idle (some f) a → WrapsIn table f env s out b

section Statements

variable {table : RefTable} {env : Env} {s : Stmt} {f : Function}

theorem stays_of_gathers {o : Option Function} {e' : Expr} (h : Gathers table env e a e' b) :
    Stays (Idle o a) (Idle o b) (e' = e) (e.All (PassesIn table o env)) := by
  intro ha
  obtain ⟨-, -, -, hsame, hback⟩ := h _ (fun arg => arg.calls < e.calls)
    (ha.mono fun _ => False.elim) fun _ h => h
  exact ⟨⟨fun heq => (hsame heq).2, hback⟩, fun heq => (hsame heq).1 ▸ ha⟩

theorem settling_wraps (table : RefTable) (f : Function) :
    Settling (Gathers table) (Wraps table) (Idle (some f))
      (Quiet (fun _ _ _ => True) (PassesIn table) f)
      (fun env e => e.All (PassesIn table (some f) env)) where
  expr := stays_of_gathers
  inv := fun h ha => (h f ha).idle
  stmt := fun h ha => (h f ha).stays
  again := fun h ha => (h f ha).again
  block := fun h ha => (h f ha).block _ rfl

theorem around_node {s' : Stmt} {before : List Stmt}
    (h : NodeTo (Gathers table) (Wraps table) env s a s' before b) (ha : Idle (some f) a) :
    Around (pointersOf (some f)) (fun arg => ∃ e ∈ s.operands, arg.calls < e.calls) b := by
  obtain ⟨outs, c, hchildren, hoperands, -⟩ := h.parts
  have hc : Idle (some f) c := hchildren.keeps (fun ⟨_, hs⟩ hidle => (hs f hidle).idle) ha
  refine (hoperands.threads (A := fun _ => True) (P := fun _ _ => True)
    (D := fun e => ∀ arg : Expr, arg.calls < e.calls → ∃ e ∈ s.operands, arg.calls < e.calls)
    (fun ⟨_, he⟩ hdom hb => ⟨(he _ _ hb hdom).1, fun _ => ⟨trivial, trivial⟩⟩)
    (fun e he arg harg => ⟨e, he, harg⟩) ?_).1
  exact hc.mono fun _ => False.elim

/-- A statement that is among what it becomes has not changed: what waits around it holds fewer
calls than it does, and a result that is held back becomes a single name. -/
theorem eq_of_mem_wrapsTo {s' : Stmt} {before out : List Stmt}
    (h : NodeTo (Gathers table) (Wraps table) env s a s' before b) (ha : Idle (some f) a)
    (hto : WrapsTo b s' out c) (hmem : s ∈ out) : s' = s := by
  have hb := around_node h ha
  have hbefore : s ∉ b.before := fun hs => by
    obtain ⟨held, type, arg, ⟨e, he, hlt⟩, rfl⟩ := hb.before s hs
    rw [List.mem_singleton.mp he] at hlt
    exact Nat.lt_irrefl _ hlt
  have hafter : s ∉ b.after := fun hs => by
    obtain ⟨held, arg, ⟨e, he, hlt⟩, rfl⟩ := hb.after s hs
    rw [List.mem_singleton.mp he, calls_eq (.assign ..)] at hlt
    simp [children, isCall, calls, subexprs] at hlt
  cases hto with
  | alone => exact (List.mem_singleton.mp hmem).symm
  | around =>
    grind
  | result hne =>
    -- the walked statement is a `return`, so this one is too, and its value is a name
    rw [mem_append, mem_append, mem_append, mem_singleton,
      mem_singleton] at hmem
    rcases hmem with ((hmem | rfl) | hmem) | rfl
    · exact absurd hmem hbefore
    · cases h
    · exact absurd hmem hafter
    · obtain ⟨t, ht⟩ := exists_mem_of_ne_nil _ hne
      obtain ⟨held, arg, ⟨e, he, hlt⟩, rfl⟩ := hb.after t ht
      rw [List.mem_singleton.mp he] at hlt
      exact absurd hlt (Nat.not_lt_zero _)

theorem Around.wrapsTo {lowered : List String} {Q : Expr → Prop} {out : List Stmt}
    (hb : Around lowered Q b) (h : WrapsTo b s out c) : Around lowered (fun _ => False) c := by
  obtain ⟨base, -, rfl⟩ := h.state
  exact ⟨hb.pointers, hb.lowered, forall_mem_nil _, forall_mem_nil _⟩

theorem Idle.wrapStmt {o : Option Function} (h : Idle o a) (s : Stmt) : wrapStmt s a = ([s], a) :=
  (wrapStmt_to s a).of_idle (Around.before_eq_nil h) (Around.after_eq_nil h)

theorem establishes_wraps (st : Setting) (table : RefTable) :
    (paramWalker st table).Establishes (Gathers table) (Wraps table) where
  expr := fun _ _ _ _ _ hes => gathers_node hes (lowerParamExpr_to ..)
  stmt := fun env s a s' before b hs f ha => by
    obtain ⟨hiff, hidle⟩ := (settling_wraps table f).onNode f.returns hs ha
    have hself : s ∈ finish before ((paramWalker st table).stmt env s' b).1 →
        s' = s ∧ before = [] := by
      intro hmem
      have hbefore : before = [] := by
        by_contra hne
        have hblock : finish before ((paramWalker st table).stmt env s' b).1 = [.block _] :=
          if_neg (by rwa [List.isEmpty_iff])
        rw [hblock] at hmem
        obtain rfl := List.mem_singleton.mp hmem
        cases hs
        exact hne rfl
      subst hbefore
      exact ⟨eq_of_mem_wrapsTo hs ha (wrapStmt_to s' b) hmem, rfl⟩
    have hsame : s' = s ∧ before = [] →
        finish before ((paramWalker st table).stmt env s' b).1 = [s] := by
      rintro ⟨rfl, rfl⟩
      exact congrArg Prod.fst ((hidle ⟨rfl, rfl⟩).wrapStmt s')
    refine ⟨(around_node hs ha).wrapsTo (wrapStmt_to s' b), fun hmem => hsame (hself hmem), ?_, ?_⟩
    · grind [Stmt.places_eq_cons, Walker.Quiet, mem_cons_self]
    · rintro body rfl
      cases hs with
      | block hbody =>
        have hb : Idle (some f) b := (settling_wraps table f).invStmts hbody ha
        exact ⟨_, congrArg Prod.fst (hb.wrapStmt _)⟩

end Statements

/-! ## Functions -/

theorem incomingName_ne (st : Setting) (name : String) : incomingName st name ≠ name := by
  grind [incomingName, String.toList_append, length_append]

theorem isByRef_eq_false_iff {q : Param} : q.isByRef = false ↔ q.passing = .value :=
  bne_eq_false_iff_eq

/-- What the walk makes of a parameter of a function with the given writes. -/
def loweredParam (st : Setting) (written : List String) (q : Param) : Param :=
  let q := if needsCopy written q then { q with name := incomingName st q.name } else q
  if q.isByRef then { q with passing := .pointer } else q

theorem loweredParam_eq_self_iff (st : Setting) (written : List String) (q : Param) :
    loweredParam st written q = q ↔
      needsCopy written q = false ∧ (q.passing = .value ∨ q.passing = .pointer) := by
  unfold loweredParam
  by_cases hcopy : needsCopy written q = true
  · grind [incomingName_ne]
  · have hfalse := Bool.eq_false_iff.mpr hcopy
    rw [if_neg hcopy, and_iff_right hfalse]
    dsimp only
    by_cases href : q.isByRef = true
    · rw [if_pos href]
      have hne : q.passing ≠ .value := fun h => by
        grind [isByRef_eq_false_iff]
      rw [or_iff_right hne]
      refine ⟨fun h => (congrArg Param.passing h).symm, fun h => ?_⟩
      cases q
      cases h
      rfl
    grind [isByRef_eq_false_iff]

variable (st : Setting) (table : RefTable)

/-- What the walk makes of the parameters of a function, whatever becomes of the body. -/
theorem params_leaveParams (f : Function) (body : List Stmt) (a c : ParamState) :
    (leaveParams { (enterParams st table f a).1 with body := body } c).1 =
      { f with
        params := f.params.map (loweredParam st (writtenRoots table f.body))
        body := body } := by
  show ({ f with params := map _ (map _ f.params), body := body } : Function) = _
  rw [map_map]
  rfl

theorem keepsParams_iff (f : Function) : KeepsParams table f ↔
    f.params.map (loweredParam st (writtenRoots table f.body)) = f.params := by
  rw [map_eq_self_iff]
  exact forall_congr' fun q => forall_congr' fun _ => (loweredParam_eq_self_iff st _ q).symm

theorem enterParams_of_keeps {f : Function} (hf : KeepsParams table f) (ha : Idle none a) :
    (enterParams st table f a).1.body = f.body ∧ Idle (some f) (enterParams st table f a).2 := by
  have hcopies : f.params.filter (needsCopy (writtenRoots table f.body)) = [] := by
    rw [filter_eq_nil_iff]
    intro q hq
    rw [(hf q hq).1]
    exact Bool.false_ne_true
  have hpointers : paramsPassed [.out, .inOut] f = [] := by
    rw [paramsPassed, map_eq_nil_iff, filter_eq_nil_iff]
    intro q hq
    rcases (hf q hq).2 with h | h <;>
    · rw [h]
      decide
  refine ⟨?_, hpointers, rfl, ha.before, ha.after⟩
  show (copyParams st (writtenRoots table f.body) f).body = f.body
  rw [copyParams, hcopies]
  rfl

/-! ## Programs -/

theorem settles_paramWalker : (paramWalker st table).Settles Idle (KeepsParams table)
    (fun _ _ _ => True) (PassesIn table) (Gathers table) (Wraps table) where
  establishes := establishes_wraps st table
  init := stays_of_gathers
  global := fun _ _ _ => rfl
  body := settling_wraps table
  enter := fun _ _ _ hf ha => enterParams_of_keeps st table hf ha
  leave := fun _ _ _ _ ha => ⟨rfl, rfl, ha.before, ha.after⟩
  function := fun _ f a body c => by
    show (leaveParams { (enterParams st table f a).1 with body := body } c).1 = f ↔ _
    rw [params_leaveParams, keepsParams_iff st]
    refine ⟨fun heq => ⟨congrArg Function.params heq, congrArg Function.body heq⟩, fun heq => ?_⟩
    rw [heq.1, heq.2]

/-- No function of the program assigns to its parameters, those that are written back are pointers,
and every call passes what it writes back as it is. -/
structure ParamsPassed (st : Setting) (p : Program) : Prop where
  functions : ∀ f ∈ p.functions, KeepsParams (refTable p) f
  calls : ∀ i ∈ p.items, ∀ u ∈ i.sites (st.envFor p), u.role ≠ .label →
    u.expr.All (Passes (refTable p) (pointersOf i.function?) u.env)

/-- **The pass leaves a program as it is exactly if all parameters are passed already.** -/
theorem lowerParameters_eq_self_iff (p : Program) (b : State) :
    (lowerParameters st p b).1 = p ↔ ParamsPassed st p := by
  have hstart : Idle none { base := b } :=
    ⟨rfl, rfl, forall_mem_nil _, forall_mem_nil _⟩
  refine ((settles_paramWalker st (refTable p)).walk_eq_self_iff hstart).trans ?_
  refine ⟨fun h => ⟨fun f hf => (h.1 f hf).1, h.2⟩, fun h => ⟨fun f hf => ?_, h.calls⟩⟩
  exact ⟨h.functions f hf, fun _ _ => trivial⟩

end Lowering

end ShaderEffect
