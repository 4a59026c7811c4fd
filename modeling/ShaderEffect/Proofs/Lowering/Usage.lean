import ShaderEffect.Proofs.Lowering.Stable.Name
import ShaderEffect.Proofs.Lowering.Stable.Parameter
import ShaderEffect.Proofs.Shader.Parsed

/-!
# How expressions use parameters

The variables of an expression that stand for values (`values`), those that it writes to (`targets`),
and those in the arguments that may be put into temporaries (`held`). `Usage.Fits` says which of them
may be parameters. A walked expression fits where it stands, and an argument that has been put aside
fits where it ends up (`walks_node`), if no name in it changes its meaning on the way.
-/

namespace ShaderEffect

open List Expr

variable {n : String} {env : Env}

/-! ## Scopes -/

namespace Env

theorem depth?_declare (h : env.scopes ≠ []) (m : String) (type : ShaderType) (n : String) :
    (env.declare m type).depth? n = if n = m then some (env.scopes.length - 1) else env.depth? n := by
  grind [declare, depth?, depthIn]

theorem isLocal_declare (h : 1 < env.scopes.length) (m : String) (type : ShaderType) (n : String) :
    (env.declare m type).isLocal n = true ↔ env.isLocal n = true ∨ n = m := by
  grind [ne_nil_of_length_pos, isLocal, depth?_declare]

theorem length_scopes_declare (env : Env) (m : String) (type : ShaderType) :
    (env.declare m type).scopes.length = env.scopes.length := by
  unfold declare
  split
  · rename_i hs
    rw [hs]
    rfl
  · rfl

theorem length_scopes_declareAll : ∀ (ds : List VarDecl) (env : Env),
    (env.declareAll ds).scopes.length = env.scopes.length
  | [], _ => rfl
  | d :: ds, env => (length_scopes_declareAll ds _).trans (length_scopes_declare env d.name d.type)

theorem length_scopes_declareParams : ∀ (ps : List Param) (env : Env),
    (env.declareParams ps).scopes.length = env.scopes.length
  | [], _ => rfl
  | q :: ps, env => (length_scopes_declareParams ps _).trans (length_scopes_declare env q.name q.type)

theorem length_scopes_declareItems : ∀ (is : List Item) (env : Env),
    (is.foldl declareItem env).scopes.length = env.scopes.length
  | [], _ => rfl
  | i :: is, env => by
    refine (length_scopes_declareItems is _).trans ?_
    cases i with
    | globals ds => exact length_scopes_declareAll ds env
    | struct | function => rfl

theorem isLocal_declareParams (n : String) : ∀ (ps : List Param) {env : Env},
    1 < env.scopes.length →
      ((env.declareParams ps).isLocal n = true ↔ env.isLocal n = true ∨ n ∈ ps.map Param.name)
  | [], env, _ => by simp [declareParams]
  | q :: ps, env, h => by
    refine (isLocal_declareParams n ps ?_).trans ?_
    · rwa [length_scopes_declare]
    · rw [isLocal_declare h, map_cons, mem_cons, or_assoc]

theorem depthIn_lt {d : Nat} : ∀ {ss : List Scope}, depthIn n ss = some d → d < ss.length
  | s :: ss, h => by
    unfold depthIn at h
    split at h
    · obtain rfl := Option.some.inj h
      exact Nat.lt_succ_self _
    · exact Nat.lt_succ_of_lt (depthIn_lt h)

end Env

namespace Expr

theorem name?_withChildren (e : Expr) (es : List Expr) : (e.withChildren es).name? = e.name? := by
  unfold withChildren
  split <;> rfl

theorem eq_ident_of_name? {e : Expr} (h : e.name? = some n) : e = .ident n := by
  cases e with
  | ident => exact congrArg _ (Option.some.inj h)
  | _ => cases h

end Expr

namespace Lowering

open Walker Env

variable {ss : List Stmt}

abbrev Deep (env : Env) : Prop :=
  2 < env.scopes.length

/-- The name stands for a variable of the body, whatever the parameters are. -/
def Hidden (env : Env) (n : String) : Prop :=
  (env.depth? n).any (paramDepth < ·) = true

theorem isParam_of_hidden (h : Hidden env n) : isParam env n = false := by
  grind [Hidden, isParam]

theorem hidden_of_isParam (hparam : isParam env n = false) (hlocal : env.isLocal n = true) :
    Hidden env n := by
  unfold isParam at hparam
  unfold Env.isLocal at hlocal
  unfold Hidden
  cases hdepth : env.depth? n with
  | none =>
    rw [hdepth] at hlocal
    cases hlocal
  | some d =>
    rw [hdepth, Option.any_some, decide_eq_true_eq] at hlocal
    rw [hdepth, beq_eq_false_iff_ne, Ne, Option.some.injEq] at hparam
    exact decide_eq_true (Nat.lt_of_le_of_ne hlocal (Ne.symm hparam))

theorem not_hidden_push (h : env.scopes.length = 2) (n : String) : ¬Hidden env.push n := by
  intro hn
  unfold Hidden at hn
  cases hdepth : env.push.depth? n with
  | none =>
    rw [hdepth] at hn
    cases hn
  | some d =>
    have hbound : d < env.scopes.length := depthIn_lt hdepth
    grind [paramDepth]

theorem deep_declare (h : Deep env) (m : String) (type : ShaderType) :
    Deep (env.declare m type) := by
  rwa [Deep, length_scopes_declare]

theorem hidden_declare (h : Deep env) (m : String) (type : ShaderType) (n : String) :
    Hidden (env.declare m type) n ↔ Hidden env n ∨ n = m := by
  have hne : env.scopes ≠ [] := fun hnil => by
    rw [Deep, hnil] at h
    cases h
  grind [paramDepth, Hidden, depth?_declare]

/-- The variables that statements declare for those after them. -/
def declared (ss : List Stmt) : List String :=
  ss.flatMap declNames

theorem mem_declared_append {ts : List Stmt} :
    n ∈ declared (ss ++ ts) ↔ n ∈ declared ss ∨ n ∈ declared ts := by
  rw [declared, flatMap_append, mem_append]
  rfl

theorem hidden_declareAll (n : String) : ∀ (ds : List VarDecl) {env : Env}, Deep env →
    (Hidden (env.declareAll ds) n ↔ Hidden env n ∨ n ∈ ds.map VarDecl.name)
  | [], env, _ => by simp [declareAll]
  | d :: ds, env, h => by
    refine (hidden_declareAll n ds (deep_declare h _ _)).trans ?_
    rw [hidden_declare h, map_cons, mem_cons, or_assoc]

/-- Deeper inside the same function, where at least the same parameters are hidden. -/
structure Covers (x y : Env) : Prop where
  left : Deep x
  right : Deep y
  hidden : ∀ n, Hidden x n → Hidden y n

theorem persists_covers : Persists Covers where
  push := fun h => ⟨Nat.lt_succ_of_lt h.left, Nat.lt_succ_of_lt h.right, h.hidden⟩
  declare := fun {x y} m type h => by
    refine ⟨deep_declare h.left m type, deep_declare h.right m type, fun n hn => ?_⟩
    rw [hidden_declare h.left] at hn
    rw [hidden_declare h.right]
    exact hn.imp_left (h.hidden n)

theorem deep_declareStmts (h : Deep env) (ss : List Stmt) : Deep (env.declareStmts ss) :=
  (persists_covers.declareStmts ss ⟨h, h, fun _ => id⟩).left

theorem hidden_declareStmts (n : String) : ∀ (ss : List Stmt) {env : Env}, Deep env →
    (Hidden (env.declareStmts ss) n ↔ Hidden env n ∨ n ∈ declared ss)
  | [], env, _ => by simp [declared]
  | s :: ss, env, h => by
    have hhead : Hidden (env.declareStmt s) n ↔ Hidden env n ∨ n ∈ declNames s := by
      cases s with
      | decl ds => exact hidden_declareAll n ds h
      | _ => simp [declareStmt, declNames]
    have hdeep : Deep (env.declareStmt s) := deep_declareStmts h [s]
    rw [declareStmts_cons, hidden_declareStmts n ss hdeep, hhead, declared, declared,
      flatMap_cons, mem_append, or_assoc]

theorem covers_declareStmts (h : Deep env) (ss : List Stmt) : Covers env (env.declareStmts ss) :=
  ⟨h, deep_declareStmts h ss, fun n hn => (hidden_declareStmts n ss h).mpr (.inl hn)⟩

theorem covers_push (h : Deep env) : Covers env.push env :=
  ⟨Nat.lt_succ_of_lt h, h, fun _ => id⟩

theorem Covers.pushRight {x y : Env} (h : Covers x y) : Covers x y.push :=
  ⟨h.left, Nat.lt_succ_of_lt h.right, h.hidden⟩

theorem Covers.trans {x y z : Env} (h : Covers x y) (h' : Covers y z) : Covers x z :=
  ⟨h.left, h'.right, fun n hn => h'.hidden n (h.hidden n hn)⟩

/-! ## Uses -/

/-- The arguments of a call that are written back, or those that are not. -/
def argsPassed (back : Bool) : List Bool → List Expr → List Expr
  | flag :: flags, arg :: args =>
    if flag = back then arg :: argsPassed back flags args else argsPassed back flags args
  | _, args => if back then [] else args

/-- The arguments of a node that are written back. -/
def passedBack (table : RefTable) : Expr → List Expr
  | .call name args => argsPassed true ((table.lookup name).getD []) args
  | _ => []

def pointee : Expr → Expr
  | .addrOf x => x
  | x => x

/-- What a node writes to: the target of an assignment or a step, and the arguments that a call
writes back. -/
def targetsAt (table : RefTable) : Expr → List Expr
  | .assign _ lhs _ => [lhs]
  | .unary op x => if op.isStep then [x] else []
  | e => (passedBack table e).map pointee

/-- The operands of a node that stand for values: not a pointer that is read through, and not an
argument that is written back. -/
def valuesAt (table : RefTable) : Expr → List Expr
  | .deref _ => []
  | .call name args => argsPassed false ((table.lookup name).getD []) args
  | e => e.children

/-- The variables that an expression writes to. -/
def targets (table : RefTable) (e : Expr) : List String :=
  (e.subexprs.flatMap (targetsAt table)).filterMap Expr.root?

/-- The variables that stand for values in an expression. -/
def values (table : RefTable) (e : Expr) : List String :=
  (e :: e.subexprs.flatMap (valuesAt table)).filterMap Expr.name?

/-- The arguments of a node that may be put into a temporary: those that are written back and are no
variables. -/
def heldAt (table : RefTable) (e : Expr) : List Expr :=
  (passedBack table e).filter (·.name?.isNone)

/-- The variables in the arguments that may be put into temporaries. -/
def held (table : RefTable) (e : Expr) : List String :=
  ((e.subexprs.flatMap (heldAt table)).flatMap Expr.subexprs).filterMap Expr.name?

/-- The statement is a loop that declares the variable and may move its name out of the header. -/
def captures (table : RefTable) (n : String) : Stmt → Bool
  | .forLoop start cond step _ =>
    (declared start.toList).contains n &&
      ((cond.toList ++ step.toList).flatMap (held table)).contains n
  | _ => false

section Nodes

variable {table : RefTable} {e x : Expr} {es : List Expr} {back : Bool}

theorem mem_zip_of_argsPassed : ∀ {flags : List Bool} {args : List Expr},
    x ∈ argsPassed true flags args → (x, true) ∈ args.zip flags
  | [], args, h => by simp [argsPassed] at h
  | flag :: flags, [], h => by simp [argsPassed] at h
  | flag :: flags, arg :: args, h => by
    cases flag with
    | false => exact mem_cons_of_mem _ (mem_zip_of_argsPassed h)
    | true =>
      rcases mem_cons.mp h with rfl | h
      · exact mem_cons_self
      · exact mem_cons_of_mem _ (mem_zip_of_argsPassed h)

theorem forall₂_argsPassed {R : Expr → Expr → Prop} (back : Bool) : ∀ (flags : List Bool) {xs ys : List Expr},
    List.Forall₂ R xs ys → List.Forall₂ R (argsPassed back flags xs) (argsPassed back flags ys)
  | [], _, _, h => by
    unfold argsPassed
    split
    · exact .nil
    · exact h
  | flag :: flags, _, _, .nil => by
    unfold argsPassed
    split <;> exact .nil
  | flag :: flags, _, _, .cons hhead htail => by
    unfold argsPassed
    split
    · exact .cons hhead (forall₂_argsPassed back flags htail)
    · exact forall₂_argsPassed back flags htail

theorem mem_of_argsPassed {flags : List Bool} {args : List Expr} (h : x ∈ argsPassed back flags args) :
    x ∈ args := by
  have hall : List.Forall₂ (fun _ y => y ∈ args) args args := forall₂_same.mpr fun _ hy => hy
  exact (exists_of_forall₂_right (forall₂_argsPassed back flags hall) h).choose_spec.2

theorem mem_children_of_valuesAt (h : x ∈ valuesAt table e) : x ∈ e.children := by
  cases e with
  | deref => cases h
  | call => exact mem_of_argsPassed h
  | _ => exact h

theorem root?_withChildren
    (h : List.Forall₂ (fun s x : Expr => x.root? = s.root?) e.children es) :
    (e.withChildren es).root? = e.root? := by
  cases e with
  | field | deref =>
    obtain ⟨x, _, hx, hnil, rfl⟩ := forall₂_cons_left_iff.mp h
    cases hnil
    exact hx
  | index =>
    obtain ⟨x, _, hx, hrest, rfl⟩ := forall₂_cons_left_iff.mp h
    obtain ⟨y, _, -, hnil, rfl⟩ := forall₂_cons_left_iff.mp hrest
    cases hnil
    exact hx
  | _ =>
    unfold withChildren
    split <;> first | rfl | contradiction

theorem isAddress_withChildren (e : Expr) (es : List Expr) :
    (e.withChildren es).isAddress = e.isAddress := by
  unfold withChildren
  split <;> rfl

theorem exists_of_mem_targetsAt (hcall : e.isCall = false)
    (h : List.Forall₂ (fun s x : Expr => x.root? = s.root?) e.children es) {t : Expr}
    (ht : t ∈ targetsAt table (e.withChildren es)) :
    ∃ s ∈ targetsAt table e, t.root? = s.root? := by
  cases e with
  | call => cases hcall
  | assign op l r =>
    obtain ⟨x, _, hx, hrest, rfl⟩ := forall₂_cons_left_iff.mp h
    obtain ⟨y, _, -, hnil, rfl⟩ := forall₂_cons_left_iff.mp hrest
    cases hnil
    obtain rfl := mem_singleton.mp ht
    exact ⟨l, mem_singleton_self _, hx⟩
  | unary op operand =>
    obtain ⟨x, _, hx, hnil, rfl⟩ := forall₂_cons_left_iff.mp h
    cases hnil
    have ht : t ∈ if op.isStep then [x] else [] := ht
    show ∃ s ∈ if op.isStep then [operand] else [], t.root? = s.root?
    grind
  | _ =>
    unfold withChildren at ht
    split at ht <;> contradiction

theorem mem_held : n ∈ held table e ↔
    ∃ x ∈ e.subexprs, ∃ arg ∈ heldAt table x, .ident n ∈ arg.subexprs := by
  simp only [held, mem_filterMap, mem_flatMap]
  constructor
  · grind [eq_ident_of_name?]
  · rintro ⟨x, hx, arg, harg, hy⟩
    exact ⟨_, ⟨arg, ⟨x, hx, harg⟩, hy⟩, rfl⟩

theorem held_of_mem_children {s : Expr} (hs : s ∈ e.children) (h : n ∈ held table s) :
    n ∈ held table e := by
  rw [mem_held] at h ⊢
  obtain ⟨x, hx, arg, harg, hn⟩ := h
  exact ⟨x, subexprs_subset hs hx, arg, harg, hn⟩

end Nodes

/-- What is known of a function: the variables that it writes to, its parameters that become
pointers, and those of them whose names are followed. -/
structure Usage where
  table : RefTable
  written : List String
  pointers : List String
  names : List String
  followed : names ⊆ pointers

namespace Usage

variable (k : Usage)

/-- The values of the node have the property `P` where their names are followed, and its targets are
among those that the function writes to, but for temporaries. -/
structure Node (P temp : String → Prop) (x : Expr) : Prop where
  values : ∀ c ∈ valuesAt k.table x, ∀ n, c.name? = some n → n ∈ k.names → P n ∨ temp n
  targets : ∀ t ∈ targetsAt k.table x, ∀ n, t.root? = some n → n ∈ k.written ∨ temp n

/-- The same of an expression and all nodes in it. -/
structure Fits (P temp : String → Prop) (e : Expr) : Prop where
  nodes : e.All (k.Node P temp)
  own : ∀ n, e.name? = some n → n ∈ k.names → P n ∨ temp n

/-- The expression uses parameters as it may. -/
abbrev FitsIn (env : Env) (e : Expr) : Prop :=
  k.Fits (Hidden env) (Hidden env) e

/-- All expressions of the statement at the place do. -/
def SitesFit (q : Env × Stmt) : Prop :=
  ∀ result, ∀ u ∈ q.2.sites result q.1, u.role ≠ .label → k.FitsIn u.env u.expr

def UsesFit (env : Env) (ss : List Stmt) : Prop :=
  ∀ q ∈ Stmt.placesAll env ss, k.SitesFit q

end Usage

namespace Usage

variable {k : Usage} {P P' temp temp' : String → Prop} {x y z env : Env} {e : Expr}
variable {es : List Expr}

theorem Node.mono (h : k.Node P temp e) (hP : ∀ n ∈ k.names, P n → P' n ∨ temp' n)
    (htemp : ∀ n, temp n → temp' n) : k.Node P' temp' e where
  values := fun c hc n hn hname => (h.values c hc n hn hname).elim (hP n hname) (.inr ∘ htemp n)
  targets := fun t ht n hn => (h.targets t ht n hn).imp_right (htemp n)

theorem Fits.mono (h : k.Fits P temp e) (hP : ∀ n ∈ k.names, P n → P' n ∨ temp' n)
    (htemp : ∀ n, temp n → temp' n) : k.Fits P' temp' e where
  nodes := fun x hx => (h.nodes x hx).mono hP htemp
  own := fun n hn hname => (h.own n hn hname).elim (hP n hname) (.inr ∘ htemp n)

theorem sitesFit_mono {qs rs : List (Env × Stmt)} (h : ∀ q ∈ qs, k.SitesFit q)
    (hplaces : List.Forall₂ (SamePlace Covers) qs rs) : ∀ r ∈ rs, k.SitesFit r := by
  intro r hr result u hu hrole
  obtain ⟨q, hq, hcovers, hstmt⟩ := exists_of_forall₂_right hplaces hr
  rw [← hstmt] at hu
  obtain ⟨v, hv, hsite, hrole', hexpr⟩ :=
    exists_of_forall₂_right (persists_covers.sites result _ hcovers) hu
  rw [← hexpr]
  exact (h q hq result v hv (hrole'.symm ▸ hrole)).mono (fun n _ hn => .inl (hsite.hidden n hn))
    hsite.hidden

theorem UsesFit.mono (h : k.UsesFit x ss) (hxy : Covers x y) : k.UsesFit y ss :=
  sitesFit_mono h (persists_covers.placesAll ss hxy)

theorem usesFit_append {ts : List Stmt} :
    k.UsesFit env (ss ++ ts) ↔ k.UsesFit env ss ∧ k.UsesFit (env.declareStmts ss) ts := by
  rw [UsesFit, Stmt.placesAll_append, forall_mem_append]
  rfl

theorem usesFit_nil : k.UsesFit env [] :=
  forall_mem_nil _

/-! ## Arguments -/

/-- What waits around the current statement uses parameters as it may where it ends up. -/
structure Waits (k : Usage) (z : Env) (a : ParamState) : Prop where
  pointers : a.pointers = k.pointers
  before : k.UsesFit z a.before
  after : ∀ t ∈ a.after, ∃ e, t = .expr e ∧ k.FitsIn (z.declareStmts a.before) e

/-- An argument that is written back. If it is put into a temporary, it may leave its place. -/
structure Ready (k : Usage) (env z : Env) (a : ParamState) (arg : Expr) : Prop where
  address : arg.isAddress = false
  root : ∀ n, arg.root? = some n → n ∈ k.written
  fits : (∀ m, arg = .ident m → env.isLocal m = false) →
    (∀ m, arg = .deref (.ident m) → m ∉ k.pointers) → k.FitsIn (z.declareStmts a.before) arg

variable {a b c : ParamState} {arg o : Expr} {flags : List Bool} {args out : List Expr}

abbrev Temp (a : ParamState) (n : String) : Prop :=
  n ∈ declared a.before

theorem temp_mono (h : a.before <+: b.before) (n : String) : Temp a n → Temp b n := by
  obtain ⟨ss, hss⟩ := h
  rw [Temp, Temp, ← hss, mem_declared_append]
  exact .inl

theorem hidden_mono (hz : Deep z) (h : a.before <+: b.before) (n : String) :
    Hidden (z.declareStmts a.before) n → Hidden (z.declareStmts b.before) n := by
  grind [hidden_declareStmts, temp_mono]

theorem FitsIn.later (h : k.FitsIn (z.declareStmts a.before) e) (hz : Deep z)
    (hlater : a.before <+: b.before) : k.FitsIn (z.declareStmts b.before) e :=
  h.mono (fun n _ hn => .inl (hidden_mono hz hlater n hn)) (hidden_mono hz hlater)

theorem Ready.later (h : k.Ready env z a arg) (hz : Deep z) (hlater : a.before <+: b.before) :
    k.Ready env z b arg :=
  ⟨h.address, h.root, fun hident hderef => (h.fits hident hderef).later hz hlater⟩

theorem Waits.noted (h : k.Waits z a) (hb : a.Noted b) : k.Waits z b := by
  obtain ⟨base, -, rfl⟩ := hb
  exact ⟨h.pointers, h.before, h.after⟩

theorem prefix_of_noted (hb : a.Noted b) : a.before <+: b.before := by
  obtain ⟨base, -, rfl⟩ := hb
  exact prefix_refl _

theorem all_ident (n : String) : (Expr.ident n).All (k.Node P temp) :=
  all_iff.mpr ⟨⟨forall_mem_nil _, forall_mem_nil _⟩, forall_mem_nil _⟩

theorem fits_ident (h : n ∈ k.names → P n ∨ temp n) : k.Fits P temp (.ident n) where
  nodes := all_ident n
  own := fun m hm hname => by
    obtain rfl := Option.some.inj hm
    exact h hname

theorem Waits.hold (h : k.Waits z a) (hz : Deep z) (type : ShaderType) (name : String)
    (hfits : k.FitsIn (z.declareStmts a.before) arg)
    (hroot : ∀ n, arg.root? = some n → n ∈ k.written) : k.Waits z (a.hold name type arg) := by
  have hlater : a.before <+: (a.hold name type arg).before := prefix_append _ _
  have hfits' := hfits.later hz hlater
  refine ⟨h.pointers, usesFit_append.mpr ⟨h.before, ?_⟩, ?_⟩
  · rintro q hq result u hu -
    obtain rfl := mem_singleton.mp hq
    obtain rfl := mem_singleton.mp hu
    exact hfits
  · have hafter : ∀ t ∈ a.after, ∃ e, t = .expr e ∧
        k.FitsIn (z.declareStmts (a.hold name type arg).before) e := fun t ht => by
      obtain ⟨e, rfl, he⟩ := h.after t ht
      exact ⟨e, rfl, he.later hz hlater⟩
    show ∀ t ∈ (if arg.root?.isSome then _ else a.after : List Stmt), _
    split
    · refine forall_mem_append.mpr ⟨hafter, forall_mem_singleton.mpr ⟨_, rfl, ?_⟩⟩
      have hname : Hidden (z.declareStmts (a.hold name type arg).before) name := by
        rw [hidden_declareStmts name _ hz]
        refine .inr (mem_flatMap.mpr ⟨_, mem_append_right _ (mem_singleton_self _), ?_⟩)
        exact mem_singleton_self _
      refine ⟨all_iff.mpr ⟨⟨?_, ?_⟩, ?_⟩, fun _ h => by cases h⟩
      · refine forall_mem_cons.mpr ⟨hfits'.own, forall_mem_singleton.mpr ?_⟩
        rintro _ ⟨rfl⟩ -
        exact .inl hname
      · exact forall_mem_singleton.mpr fun n hn => .inl (hroot n hn)
      · exact forall_mem_cons.mpr ⟨hfits'.nodes, forall_mem_singleton.mpr
          (all_ident name)⟩
    · exact hafter

theorem all_addrOf (h : k.Fits P temp arg) : (Expr.addrOf arg).All (k.Node P temp) :=
  all_iff.mpr ⟨⟨forall_mem_singleton.mpr h.own, forall_mem_nil _⟩,
    forall_mem_singleton.mpr h.nodes⟩

theorem Ready.passesTo (h : k.Ready env z a arg) (hto : PassesTo env a arg o b) (hz : Deep z)
    (ha : k.Waits z a) (hfits : k.Fits P (Temp a) arg) :
    k.Waits z b ∧ a.before <+: b.before ∧ o.All (k.Node P (Temp b)) ∧
      ∀ n, (pointee o).root? = some n → n ∈ k.written ∨ Temp b n := by
  have hroot : ∀ {x : Expr}, x.root? = arg.root? → ∀ n, x.root? = some n →
      n ∈ k.written ∨ Temp b n := fun hx n hn => .inl (h.root n (hx ▸ hn))
  cases hto with
  | pointer => exact ⟨ha, prefix_refl _, all_ident _, hroot rfl⟩
  | asIs =>
    refine ⟨ha, prefix_refl _, hfits.nodes, ?_⟩
    have haddress := h.address
    cases arg with
    | addrOf => cases haddress
    | _ => exact hroot rfl
  | address => exact ⟨ha, prefix_refl _, all_addrOf hfits, hroot rfl⟩
  | untyped _ hb =>
    have hlater := prefix_of_noted hb
    refine ⟨ha.noted hb, hlater, all_addrOf ?_, hroot rfl⟩
    exact hfits.mono (fun _ _ => .inl) (temp_mono hlater)
  | @held _ name type c _ hident hderef hb =>
    have hlater := prefix_of_noted hb
    have htemp : Temp (c.hold name type arg) name := by
      refine mem_flatMap.mpr ⟨_, mem_append_right _ (mem_singleton_self _), ?_⟩
      exact mem_singleton_self _
    refine ⟨(ha.noted hb).hold hz type name ?_ h.root, hlater.trans (prefix_append _ _),
      all_addrOf (fits_ident fun _ => .inr htemp), ?_⟩
    · exact (h.fits hident (ha.pointers ▸ hderef)).later hz hlater
    · rintro _ ⟨rfl⟩
      exact .inr htemp

theorem argsTo_fits (h : ArgsTo env flags args a out c) (hz : Deep z) (ha : k.Waits z a)
    (hfits : ∀ x ∈ args, k.Fits P (Temp a) x)
    (hready : ∀ x ∈ argsPassed true flags args, k.Ready env z a x) :
    k.Waits z c ∧ a.before <+: c.before ∧ (∀ o ∈ out, o.All (k.Node P (Temp c))) ∧
      (∀ o ∈ argsPassed true flags out, ∀ n, (pointee o).root? = some n →
        n ∈ k.written ∨ Temp c n) ∧
      ∀ o ∈ argsPassed false flags out, o ∈ args := by
  induction h with
  | rest args a =>
    exact ⟨ha, prefix_refl _, fun o ho => (hfits o ho).nodes, by simp [argsPassed],
      by simp [argsPassed]⟩
  | nil flags a =>
    grind [argsPassed]
  | @value arg flags args out a b hrest ih =>
    rw [forall_mem_cons] at hfits
    obtain ⟨hc, hlater, hnodes, htargets, hvalues⟩ := ih ha hfits.2 (by simpa [argsPassed] using hready)
    refine ⟨hc, hlater, forall_mem_cons.mpr ⟨?_, hnodes⟩, by simpa [argsPassed] using htargets, ?_⟩
    · exact (hfits.1.mono (fun _ _ => .inl) (temp_mono hlater)).nodes
    grind [argsPassed]
  | @ref arg o flags args out a b c hto hrest ih =>
    have hpassed : argsPassed true (true :: flags) (arg :: args) = arg :: argsPassed true flags args := rfl
    have hkept : argsPassed true (true :: flags) (o :: out) = o :: argsPassed true flags out := rfl
    rw [forall_mem_cons] at hfits
    rw [hpassed, forall_mem_cons] at hready
    obtain ⟨hb, hfirst, hnode, htarget⟩ := hready.1.passesTo hto hz ha hfits.1
    obtain ⟨hc, hlater, hnodes, htargets, hvalues⟩ := ih hb
      (fun x hx => (hfits.2 x hx).mono (fun _ _ => .inl) (temp_mono hfirst))
      fun x hx => (hready.2 x hx).later hz hfirst
    refine ⟨hc, hfirst.trans hlater, forall_mem_cons.mpr ⟨?_, hnodes⟩, ?_, ?_⟩
    · exact fun x hx => (hnode x hx).mono (fun _ _ => .inl) (temp_mono hlater)
    · grind [temp_mono]
    · exact fun x hx => mem_cons_of_mem _ (hvalues x hx)

/-! ## Expressions -/

/-- A node of the source that makes the argument fail: one that has to do with pointers, or that
writes to another variable. -/
def strays (k : Usage) (x : Expr) : Bool :=
  x.isImproper || !(writtenAt k.table x).all k.written.contains

structure Made (k : Usage) (env : Env) (temp : String → Prop) (e e' : Expr) : Prop where
  fits : k.Fits (fun n => Hidden env n ∧ .ident n ∈ e.subexprs) temp e'
  root : e'.root? = e.root?
  address : e'.isAddress = false
  ident : ∀ m, e = .ident m → e' = e ∨ m ∈ k.pointers ∧ e' = .deref e

/-- Inside the body of a function whose parameters are followed. -/
structure Inside (k : Usage) (env : Env) : Prop where
  deep : Deep env
  known : ∀ n ∈ k.names, env.isLocal n = true

/-- What the walk makes of an expression that may leave the place `env` for the place `z`. Where no
argument is written back, nothing is put aside. -/
def Walks (table : RefTable) (env : Env) (e : Expr) (a : ParamState) (e' : Expr) (b : ParamState) :
    Prop :=
  (∀ (k : Usage) (z : Env), k.table = table → e.Avoids k.strays → k.Inside env → Deep z →
    (∀ n ∈ held table e, n ∈ k.names → Hidden env n → Hidden z n) → k.Waits z a →
    k.Waits z b ∧ a.before <+: b.before ∧ k.Made env (Temp b) e e') ∧
  ((∀ x ∈ e.subexprs, passedBack table x = []) → b = a)

theorem Made.mono {e' : Expr} (h : k.Made env temp e e') (htemp : ∀ n, temp n → temp' n) :
    k.Made env temp' e e' :=
  ⟨h.fits.mono (fun _ _ => .inl) htemp, h.root, h.address, h.ident⟩

theorem walks_exprs {es' : List Expr} (h : ExprsTo (Walks k.table) env es a es' b)
    (hes : ∀ e ∈ es, e.Avoids k.strays) (henv : k.Inside env) (hz : Deep z)
    (hheld : ∀ e ∈ es, ∀ n ∈ held k.table e, n ∈ k.names → Hidden env n → Hidden z n)
    (ha : k.Waits z a) :
    k.Waits z b ∧ a.before <+: b.before ∧ List.Forall₂ (k.Made env (Temp b)) es es' := by
  induction h with
  | nil => exact ⟨ha, prefix_refl _, .nil⟩
  | cons he _ ih =>
    rw [forall_mem_cons] at hes hheld
    obtain ⟨hb, hfirst, hmade⟩ := he.1 k z rfl hes.1 henv hz hheld.1 ha
    obtain ⟨hc, hlater, hrest⟩ := ih hes.2 hheld.2 hb
    exact ⟨hc, hfirst.trans hlater, .cons (hmade.mono (temp_mono hlater)) hrest⟩

theorem argsTo_still (h : ArgsTo env flags args a out c) (hnone : argsPassed true flags args = []) :
    c = a := by
  induction h with
  | rest | nil => rfl
  | value _ ih => exact ih hnone
  | ref => cases hnone

theorem walks_still {table : RefTable} {es' : List Expr}
    (h : ExprsTo (Walks table) env es a es' b)
    (hes : ∀ e ∈ es, ∀ x ∈ e.subexprs, passedBack table x = []) :
    b = a ∧ List.Forall₂ (fun _ _ => True) es es' := by
  induction h with
  | nil => exact ⟨rfl, .nil⟩
  | cons he _ ih =>
    rw [forall_mem_cons] at hes
    obtain ⟨rfl, hrest⟩ := ih hes.2
    exact ⟨he.2 hes.1, .cons trivial hrest⟩

theorem isAddress_of_avoids (he : e.Avoids k.strays) : e.isAddress = false := by
  have hproper := (Bool.or_eq_false_iff.mp (avoids_iff.mp he).1).1
  cases e with
  | addrOf => cases hproper
  | _ => rfl

theorem pointee_of_avoids (he : e.Avoids k.strays) : pointee e = e := by
  have haddress := isAddress_of_avoids he
  cases e with
  | addrOf => cases haddress
  | _ => rfl

theorem written_of_target (he : e.Avoids k.strays) {t : Expr} (ht : t ∈ targetsAt k.table e)
    (hn : t.root? = some n) : n ∈ k.written := by
  obtain ⟨hnode, hchildren⟩ := avoids_iff.mp he
  have hwritten : ∀ m ∈ writtenAt k.table e, m ∈ k.written := by
    simpa [strays] using (Bool.or_eq_false_iff.mp hnode).2
  refine hwritten n ?_
  cases e with
  | assign op l r =>
    obtain rfl := mem_singleton.mp ht
    exact Option.mem_toList.mpr hn
  | unary op operand =>
    have ht : t ∈ if op.isStep then [operand] else [] := ht
    show n ∈ if op.isStep then operand.root?.toList else []
    grind
  | call name args =>
    obtain ⟨arg, harg, rfl⟩ := mem_map.mp ht
    rw [pointee_of_avoids (hchildren arg (mem_of_argsPassed harg))] at hn
    cases hflags : k.table.lookup name with
    | none =>
      rw [passedBack, hflags] at harg
      simp [argsPassed] at harg
    | some flags =>
      rw [passedBack, hflags] at harg
      simp only [writtenAt, hflags]
      refine mem_filterMap.mpr ⟨(arg, true), mem_zip_of_argsPassed harg, ?_⟩
      exact hn
  | _ => cases ht

theorem Made.operand {s : Expr} {x : Expr} (h : k.Made env temp s x) (hs : s ∈ e.children) :
    k.Fits (fun n => Hidden env n ∧ .ident n ∈ e.subexprs) temp x :=
  h.fits.mono (fun _ _ hn => .inl ⟨hn.1, subexprs_subset hs hn.2⟩) fun _ => id

theorem made_other (he : e.Avoids k.strays) (hname : e.name? = none) (hcall : e.isCall = false)
    (hmade : List.Forall₂ (k.Made env temp) e.children es) :
    k.Made env temp e (e.withChildren es) := by
  have hchildren := children_withChildren hmade.length_eq.symm
  have hroots : List.Forall₂ (fun s x : Expr => x.root? = s.root?) e.children es :=
    hmade.imp fun _ _ h => h.root
  have hoperand : ∀ x ∈ es, k.Fits (fun n => Hidden env n ∧ .ident n ∈ e.subexprs) temp x := by
    intro x hx
    obtain ⟨s, hs, hsx⟩ := exists_of_forall₂_right hmade hx
    exact hsx.operand hs
  refine ⟨⟨all_iff.mpr ⟨⟨fun x hx => ?_, fun t ht n hn => ?_⟩, ?_⟩, fun n hn => ?_⟩,
    root?_withChildren hroots, ?_, fun m hm => ?_⟩
  · exact (hoperand x (hchildren ▸ mem_children_of_valuesAt hx)).own
  · grind [exists_of_mem_targetsAt, written_of_target]
  · rw [hchildren]
    exact fun x hx => (hoperand x hx).nodes
  · rw [name?_withChildren, hname] at hn
    cases hn
  · rw [isAddress_withChildren]
    exact isAddress_of_avoids he
  · rw [hm] at hname
    cases hname

theorem made_call {name : String} {sources : List Expr} (henv : k.Inside env) (hz : Deep z)
    (he : (Expr.call name sources).Avoids k.strays)
    (hheld : ∀ n ∈ held k.table (.call name sources), n ∈ k.names → Hidden env n → Hidden z n)
    (hb : k.Waits z b) (hmade : List.Forall₂ (k.Made env (Temp b)) sources args)
    (hto : ArgsTo env ((k.table.lookup name).getD []) args b out c) :
    k.Waits z c ∧ b.before <+: c.before ∧ k.Made env (Temp c) (.call name sources) (.call name out) := by
  have hready : ∀ x ∈ argsPassed true ((k.table.lookup name).getD []) args, k.Ready env z b x := by
    intro x hx
    obtain ⟨s, hs, hsx⟩ := exists_of_forall₂_right (forall₂_argsPassed true _ hmade) hx
    have havoids := (avoids_iff.mp he).2 s (mem_of_argsPassed hs)
    refine ⟨hsx.address, fun n hn => ?_, fun hident hderef => ?_⟩
    · refine written_of_target he (mem_map_of_mem hs) ?_
      rw [pointee_of_avoids havoids, ← hsx.root]
      exact hn
    · cases hname : s.name? with
      | some m =>
        obtain rfl := eq_ident_of_name? hname
        rcases hsx.ident m rfl with rfl | ⟨hpointer, rfl⟩
        · refine fits_ident fun hm => ?_
          exact absurd ((hident m rfl).symm.trans (henv.known m hm)) Bool.false_ne_true
        · exact absurd hpointer (hderef m rfl)
      | none =>
        have hmem : s ∈ heldAt k.table (.call name sources) :=
          mem_filter.mpr ⟨hs, by rw [hname]; rfl⟩
        refine hsx.fits.mono (fun n hn hsn => .inl ?_) fun n hn => ?_
        · refine (covers_declareStmts hz _).hidden n (hheld n (mem_held.mpr ?_) hn hsn.1)
          exact ⟨_, mem_subexprs_self _, s, hmem, hsn.2⟩
        · exact (hidden_declareStmts n _ hz).mpr (.inr hn)
  obtain ⟨hc, hlater, hnodes, htargets, hvalues⟩ := argsTo_fits hto hz hb (fun x hx => by
    obtain ⟨s, hs, hsx⟩ := exists_of_forall₂_right hmade hx
    exact hsx.operand (e := .call name sources) hs) hready
  refine ⟨hc, hlater, ⟨⟨all_call.mpr ⟨⟨fun x hx n hn hname => ?_, fun t ht n hn => ?_⟩, hnodes⟩,
    fun _ h => by cases h⟩, rfl, rfl, fun _ h => by cases h⟩⟩
  · obtain ⟨s, hs, hsx⟩ := exists_of_forall₂_right hmade (hvalues x hx)
    exact ((hsx.operand (e := .call name sources) hs).own n hn hname).imp_right
      (temp_mono hlater n)
  · obtain ⟨o, ho, rfl⟩ := mem_map.mp ht
    exact htargets o ho n hn

theorem walks_node {table : RefTable} {e' : Expr}
    (hes : ExprsTo (Walks table) env e.children a es b)
    (h : LowersTo table env b (e.withChildren es) e' c) : Walks table env e a e' c := by
  have hname := name?_withChildren e es
  generalize hx : e.withChildren es = x at h hname
  refine ⟨?_, fun hnone => ?_⟩
  · rintro k z rfl he henv hz hheld ha
    obtain ⟨hb, hlater, hmade⟩ := walks_exprs hes (avoids_iff.mp he).2 henv hz
      (fun s hs n hn => hheld n (held_of_mem_children hs hn)) ha
    cases h with
    | @behind name hpointer =>
      obtain rfl := eq_ident_of_name? hname.symm
      refine ⟨hb, hlater, ⟨⟨all_iff.mpr ⟨⟨forall_mem_nil _, forall_mem_nil _⟩, ?_⟩,
        fun _ h => by cases h⟩, rfl, rfl, ?_⟩⟩
      · exact forall_mem_singleton.mpr (all_ident name)
      · rintro _ ⟨rfl⟩
        exact .inr ⟨hb.pointers ▸ hpointer, rfl⟩
    | @ident name hparam =>
      obtain rfl := eq_ident_of_name? hname.symm
      refine ⟨hb, hlater, ⟨fits_ident fun hn => ?_, rfl, rfl, fun _ _ => .inl rfl⟩⟩
      exact .inl ⟨hidden_of_isParam (hparam (hb.pointers ▸ k.followed hn)) (henv.known name hn),
        mem_subexprs_self _⟩
    | call hargs =>
      obtain ⟨sources, rfl, rfl⟩ := eq_call_of_withChildren hx
      obtain ⟨hc, hlast, hcall⟩ := made_call henv hz he hheld hb hmade hargs
      exact ⟨hc, hlater.trans hlast, hcall⟩
    | other hother hcall =>
      grind [isCall_withChildren, made_other]
  · obtain ⟨rfl, hlength⟩ := walks_still hes fun s hs x hx =>
      hnone x (subexprs_subset hs hx)
    cases h with
    | behind | ident | other => rfl
    | @call name _ _ _ hargs =>
      obtain ⟨sources, rfl, rfl⟩ := eq_call_of_withChildren hx
      have hpassed := forall₂_argsPassed true ((table.lookup name).getD []) hlength
      have hnode : argsPassed true _ (call name sources).children = [] :=
        hnone _ (mem_subexprs_self _)
      rw [hnode] at hpassed
      exact argsTo_still hargs (forall₂_nil_left_iff.mp hpassed)

end Usage

end Lowering

end ShaderEffect
