import Mathlib.Logic.Function.Basic
import ShaderEffect.Lowering.Pipeline
import ShaderEffect.Proofs.Lowering.Deferral

/-!
# Initial values that wait come to the same

Initial values that are not constant are assigned at the start of the entry point, after all others.
A constant uses no global that waits, and a value that waits uses no global after it, so **every
global gets the value that it has if all are initialised one after the other**
(`deferred_initialised`), however expressions are evaluated.
-/

namespace ShaderEffect.Lowering

open List Expr

variable {functions consts : List String} {d : VarDecl} {ds ks moved waiting : List VarDecl}
  {e : Expr}

/-! ## What is constant -/

/-- A name in a constant expression is a constant's, and a call is one of a built-in function. -/
def ConstantNode (isConst : String → Prop) (functions : List String) (x : Expr) : Prop :=
  (∀ n, x = .ident n → isConst n) ∧
    ∀ f args, x = .call f args → f ∉ functions ∧ f ∉ runtimeBuiltins

theorem areConstant_eq_all (consts functions : List String) : ∀ es : List Expr,
    areConstant consts functions es = es.all (isConstant consts functions)
  | [] => rfl
  | e :: es => by rw [areConstant, areConstant_eq_all consts functions es, all_cons]

theorem constantNode_of_isConstant (h : isConstant consts functions e = true) :
    ∀ x ∈ e.subexprs, ConstantNode (· ∈ consts) functions x := by
  induction e using byChildren with
  | node e ih =>
    have hparts : ConstantNode (· ∈ consts) functions e ∧
        ∀ c ∈ e.children, isConstant consts functions c = true := by
      cases e <;> simp_all [isConstant, areConstant_eq_all, children, ConstantNode]
    exact forall_subexprs_iff.mpr ⟨hparts.1, fun c hc => ih c hc (hparts.2 c hc)⟩

/-- One of the globals is a constant of this name, with an initial value. -/
def HasConst (ds : List VarDecl) (n : String) : Prop :=
  ∃ c ∈ ds, c.name = n ∧ c.storage = .const ∧ c.init.isSome = true

theorem hasConst_of_constsAfter {before : List VarDecl}
    (hbefore : ∀ n ∈ consts, HasConst before n) :
    ∀ n ∈ constsAfter consts d, HasConst (before ++ [d]) n := by
  intro n hn
  have hleft : n ∈ consts → HasConst (before ++ [d]) n := fun h =>
    have ⟨c, hc, hconst⟩ := hbefore n h
    ⟨c, mem_append_left _ hc, hconst⟩
  unfold constsAfter at hn
  split at hn
  · rename_i hd
    rw [Bool.and_eq_true, beq_iff_eq] at hd
    rcases mem_cons.mp hn with rfl | hn
    · exact ⟨d, by simp, rfl, hd⟩
    · exact hleft hn
  · exact hleft hn

/-- What stays uses constants among the globals before it, and no functions of the program. -/
theorem Deferral.constantNodes (h : Deferral functions consts ds ks moved) :
    ∀ before : List VarDecl, (∀ n ∈ consts, HasConst before n) → ∀ pre k post,
      ks = pre ++ k :: post → ∀ e ∈ k.init, ∀ x ∈ e.subexprs,
        ConstantNode (HasConst (before ++ pre)) functions x := by
  induction h with
  | nil => intro _ _ pre k post heq; cases pre <;> cases heq
  | @stays _ d _ _ _ hconst _ ih =>
    intro before hbefore pre k post heq e he x hx
    cases pre with
    | nil =>
      obtain ⟨rfl, -⟩ := cons.inj heq
      rw [append_nil]
      exact (constantNode_of_isConstant (hconst e he) x hx).imp_left
        fun h n hn => hbefore n (h n hn)
    | cons a pre =>
      obtain ⟨rfl, htail⟩ := cons.inj heq
      rw [append_cons]
      exact ih _ (hasConst_of_constsAfter hbefore) pre k post htail e he x hx
  | @moves _ d _ _ _ _ _ ih =>
    intro before hbefore pre k post heq e he x hx
    cases pre with
    | nil =>
      obtain ⟨rfl, -⟩ := cons.inj heq
      cases he
    | cons a pre =>
      obtain ⟨rfl, htail⟩ := cons.inj heq
      rw [append_cons]
      refine ih _ (fun n hn => ?_) pre k post htail e he x hx
      obtain ⟨c, hc, hconst⟩ := hbefore n hn
      exact ⟨c, mem_append_left _ hc, hconst⟩

/-- A global loses its initial value if it is one of the names, and else stays as it is. -/
def LeftBy (names : List String) (d k : VarDecl) : Prop :=
  (d.name ∈ names → d.init.isSome = true ∧ k = withoutInit d) ∧ (d.name ∉ names → k = d)

theorem Deferral.leftBy {names : List String} (h : Deferral functions consts ds ks moved)
    (hnodup : (ds.map VarDecl.name).Nodup) (hmoved : ∀ d ∈ moved, d.name ∈ names)
    (hnames : ∀ d ∈ ds, d.name ∈ names → d.name ∈ moved.map VarDecl.name) :
    Forall₂ (LeftBy names) ds ks := by
  induction h with
  | nil => exact .nil
  | stays _ hrest ih =>
    rw [map_cons, nodup_cons] at hnodup
    rw [forall_mem_cons] at hnames
    refine .cons ⟨fun h => absurd ?_ hnodup.1, fun _ => rfl⟩ (ih hnodup.2 hmoved hnames.2)
    exact (hrest.sublist.map _).subset (hnames.1 h)
  | moves hinit _ ih =>
    rw [map_cons, nodup_cons] at hnodup
    rw [forall_mem_cons] at hmoved hnames
    refine .cons ⟨fun _ => ⟨hinit, rfl⟩, fun h => absurd hmoved.1 h⟩
      (ih hnodup.2 hmoved.2 fun x hx hmem => ?_)
    refine (mem_cons.mp (hnames.2 x hx hmem)).resolve_left fun heq => hnodup.1 ?_
    exact heq ▸ mem_map_of_mem hx

/-! ## Values -/

section Values

variable {V : Type} (eval : Expr → (String → V) → V) (start : ShaderType → V)

/-- A global gets its initial value, or the one that its type starts with. -/
def initialised (ρ : String → V) (d : VarDecl) : String → V :=
  Function.update ρ d.name (d.init.elim (start d.type) (eval · ρ))

/-- An assignment to a variable takes effect. -/
def assigned (ρ : String → V) : Stmt → String → V
  | .expr (.assign none (.ident x) e) => Function.update ρ x (eval e ρ)
  | _ => ρ

/-- The value of an expression depends on the values of the names in it, and on nothing else. -/
def ByNames : Prop :=
  ∀ e ρ ρ', (∀ n, .ident n ∈ e.subexprs → ρ n = ρ' n) → eval e ρ = eval e ρ'

/-- The initial value of the first global, and its name, have nothing to do with the second. -/
def Precedes (d x : VarDecl) : Prop :=
  d.name ≠ x.name ∧ ∀ e ∈ d.init, .ident x.name ∉ e.subexprs

theorem pairwise_precedes (hnames : (ds.map VarDecl.name).Nodup)
    (hearlier : ∀ before d after, ds = before ++ d :: after → ∀ e ∈ d.init, ∀ n,
      .ident n ∈ e.subexprs → n ∉ (d :: after).map VarDecl.name) : ds.Pairwise Precedes := by
  induction ds with
  | nil => exact .nil
  | cons d ds ih =>
    rw [map_cons, nodup_cons] at hnames
    refine pairwise_cons.mpr ⟨fun x hx => ⟨fun heq => hnames.1 ?_, fun e he hmem => ?_⟩, ?_⟩
    · exact heq ▸ mem_map_of_mem hx
    · exact hearlier [] d ds rfl e he _ hmem (mem_map_of_mem (mem_cons_of_mem _ hx))
    · exact ih hnames.2 fun before x after heq => hearlier (d :: before) x after (by rw [heq]; rfl)

def caughtUp (ρ : String → V) (ds : List VarDecl) : String → V :=
  (ds.filterMap initialisation).foldl (assigned eval) ρ

variable {eval start} {ρ : String → V}

theorem caughtUp_cons (h : d.init = some e) :
    caughtUp eval ρ (d :: ds) = caughtUp eval (Function.update ρ d.name (eval e ρ)) ds := by
  rw [caughtUp, filterMap_cons_some (b := .expr (.assign none (.ident d.name) e))
    (by rw [initialisation, h]; rfl)]
  rfl

theorem caughtUp_skip (h : d.init = none) : caughtUp eval ρ (d :: ds) = caughtUp eval ρ ds := by
  rw [caughtUp, filterMap_cons_none (by rw [initialisation, h]; rfl)]
  rfl

theorem caughtUp_append (ρ : String → V) (ds es : List VarDecl) :
    caughtUp eval ρ (ds ++ es) = caughtUp eval (caughtUp eval ρ ds) es := by
  simp only [caughtUp, filterMap_append, foldl_append]

theorem caughtUp_other {n : String} (h : ∀ d ∈ ds, d.name ≠ n) : caughtUp eval ρ ds n = ρ n := by
  induction ds generalizing ρ with
  | nil => rfl
  | cons d ds ih =>
    rw [forall_mem_cons] at h
    cases hinit : d.init with
    | none => rw [caughtUp_skip hinit, ih h.2]
    | some e => rw [caughtUp_cons hinit, ih h.2, Function.update_of_ne h.1.symm]

theorem eval_update (heval : ByNames eval) {x : String} (h : .ident x ∉ e.subexprs)
    (ρ : String → V) (v : V) : eval e (Function.update ρ x v) = eval e ρ := by
  refine heval e _ _ fun n hn => Function.update_of_ne ?_ _ _
  rintro rfl
  exact h hn

/-- A global that nothing uses may be set before or after. -/
theorem caughtUp_update (heval : ByNames eval) {x : VarDecl} (v : V)
    (h : ∀ d ∈ ds, Precedes d x) :
    caughtUp eval (Function.update ρ x.name v) ds =
      Function.update (caughtUp eval ρ ds) x.name v := by
  induction ds generalizing ρ with
  | nil => rfl
  | cons d ds ih =>
    rw [forall_mem_cons] at h
    cases hinit : d.init with
    | none => rw [caughtUp_skip hinit, caughtUp_skip hinit, ih h.2]
    | some e =>
      rw [caughtUp_cons hinit, caughtUp_cons hinit, eval_update heval (h.1.2 e hinit),
        Function.update_comm h.1.1.symm, ih h.2]

theorem Deferral.caughtUp_eq (heval : ByNames eval) (h : Deferral functions consts ds ks moved) :
    ∀ (waiting : List VarDecl) {σ : String → V}, (waiting ++ ds).Pairwise Precedes →
      (∀ d ∈ ds, ∀ e ∈ d.init, .ident d.name ∉ e.subexprs) →
      (∀ n ∈ consts, ∀ d ∈ waiting ++ ds, d.name ≠ n) →
        caughtUp eval (ks.foldl (initialised eval start) σ) (waiting ++ moved) =
          ds.foldl (initialised eval start) (caughtUp eval σ waiting) := by
  -- the globals that wait are caught up with at any time, as later ones do not matter to them
  induction h with
  | nil =>
    intro waiting σ _ _ _
    rw [append_nil]
    rfl
  | @stays consts d ds _ _ hconst _ ih =>
    intro waiting σ hpair hself hconsts
    obtain ⟨hwaiting, hds, hacross⟩ := pairwise_append.mp hpair
    have hbefore : ∀ x ∈ waiting, Precedes x d := fun x hx => hacross x hx d mem_cons_self
    have hsublist := (sublist_cons_self d ds).append_left waiting
    rw [foldl_cons, foldl_cons, ih waiting (hpair.sublist hsublist)
      (fun x hx => hself x (mem_cons_of_mem _ hx)) ?_]
    · congr 1
      unfold initialised
      rw [caughtUp_update heval _ hbefore]
      congr 1
      cases hinit : d.init with
      | none => rfl
      | some e =>
        refine heval e _ _ fun n hn => (caughtUp_other fun x hx => ?_).symm
        have hmem := (constantNode_of_isConstant (hconst e hinit) _ hn).1 n rfl
        exact hconsts n hmem x (mem_append_left _ hx)
    · intro n hn x hx
      have hx' : x ∈ waiting ++ d :: ds := hsublist.subset hx
      unfold constsAfter at hn
      split at hn
      · rcases mem_cons.mp hn with rfl | hn
        · rcases mem_append.mp hx with hx | hx
          · exact (hbefore x hx).1
          · exact ((pairwise_cons.mp hds).1 x hx).1.symm
        · exact hconsts n hn x hx'
      · exact hconsts n hn x hx'
  | @moves consts d ds _ moved hinit _ ih =>
    intro waiting σ hpair hself hconsts
    obtain ⟨e, he⟩ := Option.isSome_iff_exists.mp hinit
    have hbefore : ∀ x ∈ waiting, Precedes x d := fun x hx =>
      (pairwise_append.mp hpair).2.2 x hx d mem_cons_self
    rw [foldl_cons, foldl_cons, append_cons, ih (waiting ++ [d]) (by rwa [← append_cons])
      (fun x hx => hself x (mem_cons_of_mem _ hx)) (by rwa [← append_cons])]
    congr 1
    have hstart : initialised eval start σ (withoutInit d) =
        Function.update σ d.name (start d.type) := rfl
    rw [hstart, caughtUp_append, caughtUp_update heval _ hbefore, caughtUp_cons he,
      eval_update heval (hself d mem_cons_self e he), Function.update_idem, initialised, he]
    rfl

end Values

/-! ## The entry point -/

theorem globals_makeEntryPoint (st : Setting) (p : Program) (s : State) :
    (makeEntryPoint st p s).1.globals = p.globals := by
  by_cases hentry : HasEntry p
  · rw [makeEntryPoint_of_hasEntry st s hentry]
  by_cases hmain : p.functions.any isMain = true
  · rw [makeEntryPoint_of_main st s hentry hmain]
    rcases mapFirst_cases isMain (asEntry (prologue ++ s.deferred)) p.items with
      ⟨heq, -⟩ | ⟨before, f, after, hitems, -, -, heq⟩
    · rw [heq]
    · unfold Program.globals
      rw [heq, hitems]
      simp [Item.decls]
  · rw [makeEntryPoint_without_main st s hentry hmain]
    simp [Program.globals, Item.decls]

/-- The entry point starts with the prologue and what waits, and goes on with `main`. -/
theorem exists_entry (st : Setting) {p : Program} (s : State) (h : ¬ HasEntry p) :
    ∃ f rest, f ∈ (makeEntryPoint st p s).1.functions ∧ f.isEntry = true ∧
      f.body = prologue ++ s.deferred ++ rest ∧
        ∀ main, p.functions.find? isMain = some main → rest = colorBody main.body := by
  by_cases hmain : p.functions.any isMain = true
  · rw [makeEntryPoint_of_main st s h hmain]
    rcases mapFirst_cases isMain (asEntry (prologue ++ s.deferred)) p.items with
      ⟨-, hnone⟩ | ⟨before, f, after, hitems, hf, hbefore, heq⟩
    · obtain ⟨f, hmem, hf⟩ := any_eq_true.mp hmain
      exact absurd hf (by simp [hnone f (mem_functions.mp hmem)])
    · refine ⟨asEntry _ f, colorBody f.body, mem_functions.mpr ?_, rfl, rfl, fun main hfind => ?_⟩
      · rw [heq]
        exact mem_append_right _ mem_cons_self
      · have hskip : (before.filterMap Item.function?).find? isMain = none :=
          find?_eq_none.mpr fun g hg => by simp [hbefore g (mem_functions.mp hg)]
        rw [Program.functions, hitems, filterMap_append, find?_append, hskip] at hfind
        rw [filterMap_cons_some (show Item.function? (.function f) = some f from rfl),
          find?_cons_of_pos hf] at hfind
        exact Option.some.inj hfind ▸ rfl
  · rw [makeEntryPoint_without_main st s h hmain]
    refine ⟨_, _, mem_functions.mpr (mem_append_right _ mem_cons_self), rfl, rfl, ?_⟩
    intro main hfind
    exact absurd (any_eq_true.mpr ⟨main, mem_of_find?_eq_some hfind, find?_some hfind⟩) hmain

/-- **What waits for the entry point comes to the same.** The initial values that stay use constants
that stay before them and built-in functions that are constant. Those that are taken away become
assignments, in order, between the prologue and `main`. And once these have run, the globals have
the values that they get if all are initialised one after the other. -/
theorem deferred_initialised (st : Setting) (p : Program) (s : State)
    (hnames : (p.globals.map VarDecl.name).Nodup)
    (hearlier : ∀ before d after, p.globals = before ++ d :: after → ∀ e ∈ d.init, ∀ n,
      .ident n ∈ e.subexprs → n ∉ (d :: after).map VarDecl.name) :
    let q := (runPasses st [.globalInits, .entryPoint] p s).1
    ∃ moved : List VarDecl, moved.Sublist p.globals ∧
      Forall₂ (LeftBy (moved.map VarDecl.name)) p.globals q.globals ∧
      (∀ before k after, q.globals = before ++ k :: after → ∀ e ∈ k.init, ∀ x ∈ e.subexprs,
        ConstantNode (HasConst before) p.functionNames x) ∧
      (¬ HasEntry p → ∃ f rest, f ∈ q.functions ∧ f.isEntry = true ∧
        f.body = prologue ++ s.deferred ++ moved.filterMap initialisation ++ rest ∧
          ∀ main, p.functions.find? isMain = some main → rest = colorBody main.body) ∧
      ∀ (V : Type) (eval : Expr → (String → V) → V) (start : ShaderType → V) (ρ : String → V),
        ByNames eval →
          (moved.filterMap initialisation).foldl (assigned eval)
              (q.globals.foldl (initialised eval start) ρ) =
            p.globals.foldl (initialised eval start) ρ := by
  intro q
  obtain ⟨moved, h, hdeferred⟩ := deferral_deferInits p.functionNames p.globals [] s
  obtain ⟨hdecls, hstate⟩ := deferItems_eq p.functionNames p.items [] s
  have hglobals : q.globals = (deferInits p.functionNames [] p.globals s).1.1 :=
    (globals_makeEntryPoint st _ _).trans hdecls
  rw [← hglobals] at h
  refine ⟨moved, h.sublist, h.leftBy hnames (fun d hd => mem_map_of_mem hd) fun _ _ => id,
    fun before k after heq => ?_, fun hentry => ?_, fun V eval start ρ heval => ?_⟩
  · simpa using h.constantNodes [] (by simp) before k after heq
  · have hfunctions : (deferInitialValues st p s).1.functions = p.functions :=
      functions_deferItems p.functionNames p.items [] s
    obtain ⟨f, rest, hf, hisEntry, hbody, hrest⟩ :=
      exists_entry st (deferInitialValues st p s).2 (p := (deferInitialValues st p s).1)
        (by rwa [HasEntry, hfunctions])
    refine ⟨f, rest, hf, hisEntry, ?_, by rwa [hfunctions] at hrest⟩
    rw [hbody, append_assoc prologue s.deferred, ← hdeferred]
    exact congrArg (fun t : State => prologue ++ t.deferred ++ rest) hstate
  · refine h.caughtUp_eq heval [] (pairwise_precedes hnames hearlier)
      (fun d hd e he hmem => ?_) (by simp)
    obtain ⟨before, after, heq⟩ := append_of_mem hd
    exact hearlier before d after heq e he _ hmem mem_cons_self

/-- `float b = t;`, where the host provides `t`. -/
def waitingGlobal : Program where
  items := [.globals [⟨.var, .float, "b", some (.ident "t")⟩]]

theorem deferred_initialised_waitingGlobal :
    ∃ moved : List VarDecl, moved.Sublist waitingGlobal.globals ∧
      Forall₂ (LeftBy (moved.map VarDecl.name)) waitingGlobal.globals
        (runPasses { options := {}, header := {}, layout := {} } [.globalInits, .entryPoint]
          waitingGlobal {}).1.globals := by
  refine (deferred_initialised { options := {}, header := {}, layout := {} } waitingGlobal {}
    (by decide) ?_).imp fun _ h => ⟨h.1, h.2.1⟩
  rintro (_ | ⟨_, before⟩) d after heq e he n hn
  · obtain ⟨rfl, rfl⟩ := cons.inj heq
    cases he
    obtain rfl : n = "t" := by simpa [subexprs] using hn
    decide
  · exact absurd (cons.inj heq).2.symm (by simp)

end ShaderEffect.Lowering
