import ShaderEffect.Proofs.Lowering.Survivor

/-!
# Calls on their way through the passes

An expression `Follows` others if each call in it has an origin. Either it is a new one, or it comes
from a call of one of the others: with as many arguments, each of which follows the argument in its
place, and with a name that goes with the old name. The relation composes along the passes
(`Follows.trans`), and a walker whose nodes follow the nodes that they were makes programs that
follow the programs that they were (`follows_walk`).
-/

namespace ShaderEffect.Lowering

open Walker List Expr

variable {cs : List Expr}

/-- The calls of an expression come from calls of the expressions `es`, or are new. A call of `n` with
`k` arguments may become one of `n'` if `names n k n'`, and be new if `new n k`. -/
inductive Follows (names : String → Nat → String → Prop) (new : String → Nat → Prop) :
    List Expr → Expr → Prop where
  | node {es : List Expr} {e : Expr} : e.isCall = false → (∀ c ∈ e.children, Follows names new es c) →
      Follows names new es e
  | call {es : List Expr} {n n' : String} {args args' : List Expr} :
      .call n args ∈ es.flatMap Expr.subexprs → names n args.length n' →
      args'.length = args.length →
      (∀ (i : Nat) (a a' : Expr), args[i]? = some a → args'[i]? = some a' →
        Follows names new [a] a') →
      Follows names new es (.call n' args')
  | new {es : List Expr} {n : String} {args : List Expr} : new n args.length →
      (∀ a ∈ args, Follows names new es a) → Follows names new es (.call n args)

def Same (n : String) (_ : Nat) (n' : String) : Prop :=
  n' = n

theorem same_self (n : String) (k : Nat) : Same n k n :=
  rfl

def Twice (names names' : String → Nat → String → Prop) (n : String) (k : Nat) (n' : String) : Prop :=
  ∃ m, names n k m ∧ names' m k n'

/-- A call is new, or was new and has been renamed since. -/
def Since (new new' : String → Nat → Prop) (names' : String → Nat → String → Prop) (n : String)
    (k : Nat) : Prop :=
  new' n k ∨ ∃ m, new m k ∧ names' m k n

namespace Follows

variable {names names' : String → Nat → String → Prop} {new new' : String → Nat → Prop}
  {es fs : List Expr} {e c x y z : Expr} {xs : List Expr}

theorem mono (h : Follows names new es e)
    (hsub : es.flatMap Expr.subexprs ⊆ fs.flatMap Expr.subexprs) : Follows names new fs e := by
  induction h generalizing fs with
  | node he _ ih => exact .node he fun c hc => ih c hc hsub
  | call hmem hname hlength hargs _ => exact .call (hsub hmem) hname hlength hargs
  | new hnew _ ih => exact .new hnew fun a ha => ih a ha hsub

theorem of_mem (h : Follows names new [x] e) (hx : x ∈ es) : Follows names new es e :=
  h.mono fun y hy => by
    rw [List.flatMap_singleton] at hy
    exact mem_flatMap.mpr ⟨x, hx, hy⟩

theorem of_subexpr (h : Follows names new [x] e) (hx : x ∈ y.subexprs) : Follows names new [y] e :=
  h.mono fun z hz => by
    rw [List.flatMap_singleton] at hz ⊢
    exact subexprs_subset_of_mem hx hz

theorem weaken (h : Follows names new es e) (hnames : ∀ n k n', names n k n' → names' n k n')
    (hnew : ∀ n k, new n k → new' n k) : Follows names' new' es e := by
  induction h with
  | node he _ ih => exact .node he ih
  | call hmem hname hlength _ ih => exact .call hmem (hnames _ _ _ hname) hlength ih
  | new hn _ ih => exact .new (hnew _ _ hn) ih

theorem child (h : Follows names new es e) (hc : c ∈ e.children) : Follows names new es c := by
  cases h with
  | node _ hch => exact hch c hc
  | @call _ n n' args args' hmem _ hlength hargs =>
    obtain ⟨i, hi⟩ := List.mem_iff_getElem?.mp (show c ∈ args' from hc)
    obtain ⟨hlt, -⟩ := List.getElem?_eq_some_iff.mp hi
    have ha : args[i]? = some (args[i]) := List.getElem?_eq_getElem (hlength ▸ hlt)
    obtain ⟨y, hy, hcall⟩ := List.mem_flatMap.mp hmem
    refine ((hargs i _ c ha hi).of_subexpr ?_).of_mem hy
    exact subexprs_subset_of_mem hcall
      (subexprs_subset (List.getElem_mem (hlength ▸ hlt)) (mem_subexprs_self _))
  | new _ hargs => exact hargs c hc

theorem subexpr (h : Follows names new es e) (hx : x ∈ e.subexprs) : Follows names new es x := by
  induction e using byChildren with
  | node e ih =>
    rw [subexprs_eq_cons, mem_cons] at hx
    rcases hx with rfl | hx
    · exact h
    · obtain ⟨c, hc, hx⟩ := List.mem_flatMap.mp hx
      exact ih c hc (h.child hc) hx

theorem iff_children (he : e.isCall = false) :
    Follows names new es e ↔ ∀ c ∈ e.children, Follows names new es c :=
  ⟨fun h _ hc => h.child hc, .node he⟩

theorem of_args {n n' : String} {args args' : List Expr} (hname : names n args.length n')
    (hargs : List.Forall₂ (fun a a' => Follows names new [a] a') args args') :
    Follows names new [.call n args] (.call n' args') := by
  refine .call ?_ hname hargs.length_eq.symm fun i a a' ha ha' => ?_
  · rw [List.flatMap_singleton]
    exact mem_subexprs_self _
  · obtain ⟨hi, rfl⟩ := List.getElem?_eq_some_iff.mp ha
    obtain ⟨hi', rfl⟩ := List.getElem?_eq_some_iff.mp ha'
    exact hargs.get hi hi'

theorem refl (hnames : ∀ n k, names n k n) (e : Expr) : Follows names new [e] e := by
  induction e using byChildren with
  | node e ih =>
    cases e with
    | call n args => exact .of_args (hnames _ _) (forall₂_same.mpr ih)
    | _ =>
      exact .node rfl fun c hc =>
        (ih c hc).of_subexpr (subexprs_subset hc (mem_subexprs_self c))

theorem trans (hes : ∀ x ∈ fs, Follows names new es x) (h : Follows names' new' fs e) :
    Follows (Twice names names') (Since new new' names') es e := by
  induction h generalizing es with
  | node he _ ih => exact .node he fun c hc => ih c hc hes
  | @call fs n n' args args' hmem hname hlength _ ih =>
    obtain ⟨x, hx, hcall⟩ := List.mem_flatMap.mp hmem
    -- the call in the middle has an origin of its own
    cases (hes x hx).subexpr hcall with
    | node hcall => cases hcall
    | @call _ m _ origs _ hmem' hname' hlength' hargs' =>
      refine .call hmem' ⟨n, hname', hlength' ▸ hname⟩ (hlength.trans hlength') ?_
      grind
    | new hnew hargs' =>
      refine .new (.inr ⟨n, hlength ▸ hnew, hlength ▸ hname⟩) fun a' ha' => ?_
      grind [List.mem_iff_getElem?]
  | new hnew _ ih => exact .new (.inl hnew) fun a ha => ih a ha hes

theorem keep (hes : ∀ x ∈ fs, Follows names new es x) (h : Follows Same new fs e) :
    Follows names new es e := by
  refine (trans hes h).weaken ?_ ?_
  · rintro n k n' ⟨m, hm, rfl⟩
    exact hm
  · rintro n k (hn | ⟨m, hm, rfl⟩)
    · exact hn
    · exact hm

theorem of_children (he : e.isCall = false)
    (h : List.Forall₂ (fun c c' => Follows names new [c] c') e.children cs) :
    Follows names new [e] (e.withChildren cs) := by
  refine .node ((isCall_withChildren e cs).trans he) ?_
  rw [children_withChildren h.length_eq.symm]
  intro c' hc'
  obtain ⟨c, hc, hfollows⟩ := exists_of_forall₂_right h hc'
  exact hfollows.of_subexpr (subexprs_subset hc (mem_subexprs_self c))

theorem withChildren (hnames : ∀ n k, names n k n)
    (h : List.Forall₂ (fun c c' => Follows names new [c] c') e.children cs) :
    Follows names new [e] (e.withChildren cs) := by
  cases e with
  | call n args => exact .of_args (hnames _ _) h
  | _ => exact .of_children rfl h

theorem after (hes : ∀ x ∈ fs, Follows Same (fun _ _ => False) es x) (h : Follows names new fs e) :
    Follows names new es e := by
  refine (trans hes h).weaken ?_ ?_
  · rintro n k n' ⟨m, rfl, hm⟩
    exact hm
  · rintro n k (hn | ⟨m, hm, -⟩)
    · exact hn
    · exact hm.elim

section Nodes

@[simp] theorem ident (name : String) : Follows names new es (.ident name) :=
  .node rfl (forall_mem_nil _)

@[simp] theorem unary_iff {op : UnaryOp} :
    Follows names new es (.unary op x) ↔ Follows names new es x := by
  simp [iff_children (e := .unary op x) rfl, children]

@[simp] theorem binary_iff {op : BinOp} :
    Follows names new es (.binary op x y) ↔ Follows names new es x ∧ Follows names new es y := by
  simp [iff_children (e := .binary op x y) rfl, children]

@[simp] theorem assign_iff {op : Option BinOp} :
    Follows names new es (.assign op x y) ↔ Follows names new es x ∧ Follows names new es y := by
  simp [iff_children (e := .assign op x y) rfl, children]

@[simp] theorem conditional_iff :
    Follows names new es (.conditional x y z) ↔
      Follows names new es x ∧ Follows names new es y ∧ Follows names new es z := by
  simp [iff_children (e := .conditional x y z) rfl, children]

@[simp] theorem construct_iff {type : ShaderType} :
    Follows names new es (.construct type xs) ↔ ∀ x ∈ xs, Follows names new es x :=
  iff_children (e := .construct type xs) rfl

@[simp] theorem field_iff {name : String} :
    Follows names new es (.field x name) ↔ Follows names new es x := by
  simp [iff_children (e := .field x name) rfl, children]

@[simp] theorem comma_iff :
    Follows names new es (.comma xs) ↔ ∀ x ∈ xs, Follows names new es x :=
  iff_children (e := .comma xs) rfl

@[simp] theorem deref_iff : Follows names new es (.deref x) ↔ Follows names new es x := by
  simp [iff_children (e := .deref x) rfl, children]

@[simp] theorem addrOf_iff : Follows names new es (.addrOf x) ↔ Follows names new es x := by
  simp [iff_children (e := .addrOf x) rfl, children]

end Nodes

end Follows

/-! ## Walkers -/

/-- An expression whose calls all come from calls of the given expressions, as they are. -/
abbrev Original (es : List Expr) (e : Expr) : Prop :=
  Follows Same (fun _ _ => False) es e

theorem original_of_mem {es : List Expr} {e : Expr} (h : e ∈ es) : Original es e :=
  (Follows.refl same_self e).of_mem h

/-- Every node that the walker makes follows the node that it was, and every statement the expressions
`es`, with which the walk starts. -/
structure Carries {σ : Type} (w : Walker σ) (I : σ → Prop) (names : String → Nat → String → Prop)
    (new : String → Nat → Prop) (es : List Expr) : Prop where
  expr : ∀ env e cs a, I a →
    List.Forall₂ (fun c c' => Follows names new [c] c') e.children cs →
    (∀ c ∈ cs, Follows names new es c) →
    I (w.expr env (e.withChildren cs) a).2 ∧
      Follows names new [e] (w.expr env (e.withChildren cs) a).1
  stmt : ∀ env s a, I a → (∀ e ∈ s.evaluated, Follows names new es e) →
    I (w.stmt env s a).2 ∧
      ∀ t ∈ (w.stmt env s a).1, ∀ e ∈ t.evaluated, Follows names new es e
  global : ∀ env d a, I a → (∀ e ∈ d.init.toList, Follows names new es e) →
    I (w.global env d a).2 ∧ ∀ e ∈ (w.global env d a).1.init.toList, Follows names new es e
  enter : ∀ env f a, I a → (∀ s ∈ f.body, ∀ e ∈ s.evaluated, Original es e) →
    I (w.enter env f a).2 ∧ ∀ s ∈ (w.enter env f a).1.body, ∀ e ∈ s.evaluated, Original es e
  leave : ∀ env f a, I a → I (w.leave env f a).2 ∧ (w.leave env f a).1.body = f.body

namespace Carries

variable {σ : Type} {w : Walker σ} {I : σ → Prop} {names : String → Nat → String → Prop}
  {new : String → Nat → Prop} {es : List Expr}

theorem traces (h : Carries w I names new es) :
    w.Traces I (fun _ => True) (Original es) (Original es) (fun e e' => Follows names new [e] e')
      (Follows names new es) where
  expr := by
    intro env e cs a he ha hcs
    have hfollows : ∀ c ∈ cs, Follows names new es c := by
      intro c' hc'
      obtain ⟨c, hc, hc'⟩ := exists_of_forall₂_right (hcs trivial) hc'
      exact .after (forall_mem_singleton.mpr (he.child hc)) hc'
    obtain ⟨hI, hout⟩ := h.expr env e cs a ha (hcs trivial) hfollows
    exact ⟨hI, fun _ => ⟨trivial, hout⟩⟩
  stmt := fun _ _ env _ _ s _ a _ _ ha hs => by
    obtain ⟨hI, hout⟩ := h.stmt env s a ha (Stmt.forall_mem_evaluated.mpr (hs trivial))
    exact ⟨hI, fun _ => ⟨trivial, hout⟩⟩
  global := by
    intro env d a ha hd
    obtain ⟨hI, hout⟩ := h.global env d a ha (hd trivial)
    exact ⟨hI, fun _ => ⟨trivial, hout⟩⟩
  enter := by
    intro env f a ha hf
    obtain ⟨hI, hout⟩ := h.enter env f a ha hf
    exact ⟨hI, fun _ => trivial, hout⟩
  leave := by
    intro env f a ha
    obtain ⟨hI, hbody⟩ := h.leave env f a ha
    exact ⟨hI, fun _ => trivial, fun hs => hbody ▸ hs⟩
  parts := fun _ => Stmt.forall_mem_evaluated.mp
  part_of_whole := fun _ he => he
  part_of_child := fun _ _ he hc => he.child hc
  block := ofBlocks_evaluated _
  holds := fun _ _ he he' => .after (forall_mem_singleton.mpr he) he'

theorem evaluated_walk {p : Program} (h : Carries w I names new es) (env : Env) {a : σ} (ha : I a)
    (hp : ∀ e ∈ p.evaluated, Original es e) :
    I (w.walk env p a).2 ∧ ∀ e ∈ (w.walk env p a).1.evaluated, Follows names new es e := by
  obtain ⟨hI, hout⟩ := Traces.evaluated_walk h.traces env ha hp
  exact ⟨hI, (hout trivial).2⟩

end Carries

theorem follows_step {new : String → Nat → Prop} {e x : Expr}
    (hcs : List.Forall₂ (fun c c' => Follows Same new [c] c') e.children cs)
    (h : Follows Same new [e.withChildren cs] x) : Follows Same new [e] x :=
  .keep (forall_mem_singleton.mpr (.withChildren same_self hcs)) h

/-! ## Passes -/

/-- What the pass leaves of a program follows what it got, and what was set aside for the entry point
stays as it is. -/
def PassFollows (names : String → Nat → String → Prop) (new : String → Nat → Prop)
    (pass : Program → LowerM Program) : Prop :=
  ∀ p s, (pass p s).2.deferred = s.deferred ∧
    ∀ e ∈ (pass p s).1.evaluated, Follows names new p.evaluated e

section Passes

variable {names : String → Nat → String → Prop} {new : String → Nat → Prop}

theorem passFollows_walk {w : Walker State} (env : Program → Env)
    (h : ∀ es d, Carries w (fun a => a.deferred = d) names new es) :
    PassFollows names new fun p => w.walk (env p) p := fun p s =>
  (h p.evaluated s.deferred).evaluated_walk (env p) rfl fun _ he => original_of_mem he

theorem carries_of_expr {f : Env → Expr → LowerM Expr}
    (hf : ∀ env e, Yields (f env e) fun x => Follows Same new [e] x) (es : List Expr)
    (d : List Stmt) :
    Carries ({ expr := f } : Walker State) (fun a => a.deferred = d) Same new es := by
  refine ⟨fun env e cs a ha hcs _ => ?_, fun _ _ _ ha hs => ⟨ha, forall_mem_singleton.mpr hs⟩,
    fun _ _ _ ha hd => ⟨ha, hd⟩, fun _ _ _ ha hf => ⟨ha, hf⟩, fun _ _ _ ha => ⟨ha, rfl⟩⟩
  obtain ⟨hx, hsince⟩ := hf env (e.withChildren cs) a
  exact ⟨hsince.deferred.trans ha, follows_step hcs hx⟩

theorem carries_of_stmt {f : Env → Stmt → LowerM (List Stmt)}
    (hf : ∀ es env s, Yields (f env s) fun out => (∀ e ∈ s.evaluated, Follows Same new es e) →
      ∀ t ∈ out, ∀ e ∈ t.evaluated, Follows Same new es e) (es : List Expr) (d : List Stmt) :
    Carries ({ stmt := f } : Walker State) (fun a => a.deferred = d) Same new es := by
  refine ⟨fun env e cs a ha hcs _ => ⟨ha, .withChildren same_self hcs⟩,
    fun env s a ha hs => ?_, fun _ _ _ ha hd => ⟨ha, hd⟩, fun _ _ _ ha hf => ⟨ha, hf⟩,
    fun _ _ _ ha => ⟨ha, rfl⟩⟩
  obtain ⟨hout, hsince⟩ := hf es env s a
  exact ⟨hsince.deferred.trans ha, hout hs⟩

theorem passFollows_runPasses {st : Setting} : ∀ {passes : List Pass},
    (∀ pass ∈ passes, PassFollows Same new (pass.apply st)) →
      PassFollows Same new (runPasses st passes)
  | [], _ => fun _ _ => ⟨rfl, fun e he => (Follows.refl same_self e).of_mem he⟩
  | pass :: passes, h => fun p s => by
    rw [forall_mem_cons] at h
    obtain ⟨hdeferred, hout⟩ := h.1 p s
    obtain ⟨hdeferred', hout'⟩ := passFollows_runPasses h.2 (pass.apply st p s).1 (pass.apply st p s).2
    exact ⟨hdeferred'.trans hdeferred, fun e he => .keep hout (hout' e he)⟩

end Passes

end ShaderEffect.Lowering
