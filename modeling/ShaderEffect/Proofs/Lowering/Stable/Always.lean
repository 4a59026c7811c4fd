import ShaderEffect.Proofs.Lowering.Survivor
import ShaderEffect.Proofs.Settle

/-!
# Passes that always leave their own outcome alone

Six passes recognise everything that they produce: run on their own outcome, they change nothing.
Respelled lanes have no letters left to respell, `select` is no conditional expression, the reads of
textures are no image functions, and so on.
-/

namespace ShaderEffect

open List Expr

namespace Stmt

theorem mapRoles_id (result : ShaderType) (s : Stmt) : s.mapRoles (fun _ e => e) result = s := by
  have hlabel : CaseLabel.map (fun e => e) = id := by
    funext l
    cases l <;> rfl
  cases s with
  | switch selector cases =>
    have hcase : (fun c : Case => Case.mk (c.labels.map (CaseLabel.map fun e => e)) c.body) = id := by
      funext c
      cases c
      rw [hlabel, map_id]
      rfl
    rw [mapRoles, hcase, map_id]
  | _ => simp [mapRoles]

end Stmt

namespace Lowering

open Walker

/-! ## Rewritings that settle -/

section Rewritings

variable {σ : Type} {w : Walker σ} {Inv : Option ShaderType → σ → Prop} {r : Rewriting}
variable {a : σ}

theorem envFor_walk (h : w.Rewrites Inv r) (st : Setting) (env : Env) (p : Program)
    (ha : Inv none a) : st.envFor (w.walk env p a).1 = st.envFor p := by
  unfold Setting.envFor
  rw [h.ofProgram_walk env p ha]

/-- Every expression that a walk leaves is made by the rewriting, as seen from the program that the
walk leaves. -/
theorem made_envFor (h : w.Rewrites Inv r) (st : Setting) (p : Program) (ha : Inv none a) :
    r.Made ((w.walk (st.envFor p) p a).1.sites (st.envFor (w.walk (st.envFor p) p a).1)) := by
  rw [envFor_walk h st _ p ha]
  exact (h.madeFrom_walk _ p ha).made

theorem rewrites_of_expr {f : Env → Expr → LowerM Expr} {I : State → Prop}
    {node : Env → Expr → Expr}
    (h : ∀ env e a, I a → (f env e a).1 = node env e ∧ I (f env e a).2) :
    Walker.Rewrites { expr := f : Walker State } (fun _ => I) { node := node } where
  expr := fun env e _ a ha => h env e a ha
  stmt := fun _ s result _ ha => ⟨by rw [Stmt.mapRoles_id]; rfl, ha⟩
  global := fun _ d _ ha => ⟨by rw [Option.map_id_fun']; rfl, ha⟩
  enter := fun _ _ _ ha => ⟨rfl, ha⟩
  leave := fun _ _ _ _ ha => ⟨rfl, ha⟩

theorem walk_walk_of_nodes (node : Env → Expr → Expr) {f : Env → Expr → LowerM Expr}
    (h : ∀ env e a, (f env e a).1 = node env e)
    (hnode : ∀ env (e : Expr), (∀ c ∈ e.children, c.All fun x => node env x = x) →
      (node env e).All fun x => node env x = x)
    (st : Setting) (p : Program) (a b : State) :
    let w : Walker State := { expr := f }
    let q := (w.walk (st.envFor p) p a).1
    (w.walk (st.envFor q) q b).1 = q := by
  have hw : Walker.Rewrites { expr := f : Walker State } (fun _ _ => True) { node := node } :=
    rewrites_of_expr fun env e a _ => ⟨h env e a, trivial⟩
  refine (hw.walk_eq_iff _ _ trivial).mpr fun q hq => ?_
  obtain ⟨e, he⟩ := made_envFor hw st p trivial q hq
  obtain ⟨env, around, role, expr⟩ := q
  cases role with
  | label => rfl
  | operand | wanted =>
    obtain rfl : expr = e.mapNodes (node env) := he
    exact mapNodes_eq_self (all_mapNodes (hnode env) e)

/-- **A walk leaves its own outcome exactly if `X` holds at each node of it**, where `X` tells the
expressions that the rewriting made and would leave from those that it made and would change. -/
theorem walk_walk_eq_iff (h : w.Rewrites Inv r) {X : Env → Expr → Prop}
    (hlabel : ∀ env e, r.whole env .label (r.whole env .label e) = r.whole env .label e)
    (hmade : ∀ q : Site, q.role ≠ .label → (∀ type, q.role = .wanted type → q.around = q.env) →
      (r.apply { q with expr := r.apply q } = r.apply q ↔ (r.apply q).All (X q.env)))
    (st : Setting) (p : Program) {b : σ} (ha : Inv none a) (hb : Inv none b) :
    let q := (w.walk (st.envFor p) p a).1
    (w.walk (st.envFor q) q b).1 = q ↔ q.EachNode (st.envFor q) X := by
  refine (h.walk_eq_iff _ _ hb).trans (forall_congr' fun q => forall_congr' fun hq => ?_)
  have hwanted : ∀ type, q.role = .wanted type → q.around = q.env := fun _ =>
    Program.around_eq_of_wanted hq
  obtain ⟨e, he⟩ := made_envFor h st p ha q hq
  obtain ⟨env, around, role, expr⟩ := q
  by_cases hrole : role = .label
  · subst hrole
    refine iff_of_true ?_ fun hne => absurd rfl hne
    obtain rfl : expr = r.whole around .label e := he
    exact hlabel around e
  grind

end Rewritings

theorem all_fixed {g : Expr → Expr} {e : Expr} (he : g e = e)
    (hc : ∀ c ∈ e.children, c.All fun x => g x = x) : (g e).All fun x => g x = x := by
  rw [he]
  exact all_iff.mpr ⟨he, hc⟩

/-! ## Lanes -/

theorem isTextureLanes_usualLanes {name : String} (h : isTextureLanes name = true) :
    isTextureLanes (usualLanes name) = false := by
  have hletter : ∀ i, ['s', 't', 'p', 'q'].contains (laneLetter i) = false := by
    intro i
    unfold laneLetter
    split <;> rfl
  have hname : name.toList ≠ [] := by
    intro hnil
    simp [isTextureLanes, isSwizzle, hnil] at h
  obtain ⟨c, cs, hcs⟩ := exists_cons_of_ne_nil hname
  grind [isTextureLanes, usualLanes, String.toList_ofList]

theorem normaliseLanes_again (st : Setting) (p : Program) (a b : State) :
    (normaliseLanes st (normaliseLanes st p a).1 b).1 = (normaliseLanes st p a).1 := by
  refine walk_walk_of_nodes respellLanes (fun _ _ _ => rfl) (fun env e hc => ?_) st p a b
  cases e with
  | field base name =>
    by_cases h : (isTextureLanes name && !(env.typeOf base).any ShaderType.isStruct) = true
    · have hname := isTextureLanes_usualLanes (Bool.and_eq_true_iff.mp h).1
      rw [respellLanes, if_pos h]
      refine all_iff.mpr ⟨?_, hc⟩
      rw [respellLanes, hname, Bool.false_and, if_neg Bool.false_ne_true]
    · exact all_fixed (by rw [respellLanes, if_neg h]) hc
  | _ => exact all_fixed rfl hc

/-! ## Conditional expressions -/

theorem lowerConditionals_again (st : Setting) (p : Program) (a b : State) :
    (lowerConditionals st (lowerConditionals st p a).1 b).1 = (lowerConditionals st p a).1 := by
  refine walk_walk_of_nodes (fun _ => lowerConditional) (fun _ _ _ => rfl) (fun env e hc => ?_)
    st p a b
  cases e with
  | conditional cond whenTrue whenFalse =>
    grind [all_iff, lowerConditional, children]
  | _ => exact all_fixed rfl hc

/-! ## Images -/

theorem lowerRead_call (st : Setting) (env : Env) {name : String} (h : Access.ofName name = none)
    (args : List Expr) (a : State) : (lowerRead st env (.call name args) a).1 = .call name args := by
  simp only [lowerRead, h]
  split <;> rfl

theorem lowerSampling_again (st : Setting) (p : Program) (a b : State) :
    (lowerSampling st (lowerSampling st p a).1 b).1 = (lowerSampling st p a).1 := by
  have hvalue : ∀ env e a, (lowerRead st env e a).1 = (lowerRead st env e {}).1 := by
    intro env e a
    obtain ⟨ns, hx⟩ | ⟨_, _, _, _, _, _, -, -, -, -, hx⟩ := lowerRead_cases st env e
    · rw [(hx a).1, (hx {}).1]
    · rw [(hx a).1, (hx {}).1]
  refine walk_walk_of_nodes (fun env e => (lowerRead st env e {}).1) hvalue (fun env e hc => ?_)
    st p a b
  obtain ⟨ns, hx⟩ | ⟨access, name, target, rest, n, x, rfl, -, -, hread, hx⟩ :=
    lowerRead_cases st env e
  · exact all_fixed (g := fun e => (lowerRead st env e {}).1) (hx {}).1 hc
  · rw [(hx {}).1]
    refine (composed_read (fun _ => .given) hread).all (fun name args h => ?_) (fun _ _ => rfl)
      (fun e he _ => ?_) (forall_mem_cons.mp hc).2
    · exact lowerRead_call st env (ofName_of_introduced h) args {}
    · cases e with
      | call => cases he
      | _ => rfl

/-! ## The entry point -/

theorem makeEntryPoint_again (st : Setting) (p : Program) (a b : State) :
    (makeEntryPoint st (makeEntryPoint st p a).1 b).1 = (makeEntryPoint st p a).1 := by
  rw [makeEntryPoint_of_hasEntry st b (hasEntry_makeEntryPoint st p a)]

/-! ## Initial values of globals -/

/-- What becomes of a global, whatever the state is. -/
theorem deferInit_fst (functions consts : List String) (d : VarDecl) (a : State) :
    (deferInit functions consts d a).1 =
      match d.init with
      | none => (d, consts)
      | some init =>
        if isConstant consts functions init then
          (d, if d.storage == .const then d.name :: consts else consts)
        else (withoutInit d, consts) := by
  unfold deferInit
  cases d.init with
  | none => rfl
  | some init =>
    by_cases h : isConstant consts functions init = true
    · simp only [h, if_true]
      rfl
    · by_cases hs : (d.storage == .const) = true <;> simp only [h, hs] <;> rfl

theorem deferInit_again (functions consts : List String) (d : VarDecl) (a b : State) :
    (deferInit functions consts (deferInit functions consts d a).1.1 b).1 =
      (deferInit functions consts d a).1 := by
  rw [deferInit_fst functions consts d a]
  cases h : d.init with
  | none => rw [deferInit_fst, h]
  | some init =>
    dsimp only
    split
    · rename_i hconst
      rw [deferInit_fst, h]
      exact if_pos hconst
    · rw [deferInit_fst]
      rfl

theorem deferInits_again (functions : List String) : ∀ (ds : List VarDecl) (consts : List String)
    (a b : State), (deferInits functions consts (deferInits functions consts ds a).1.1 b).1 =
      (deferInits functions consts ds a).1
  | [], _, _, _ => rfl
  | d :: ds, consts, a, b => by
    rw [deferInits_cons]
    dsimp only
    rw [deferInits_cons]
    dsimp only
    rw [deferInit_again, deferInits_again functions ds]

theorem deferItems_globals (functions consts : List String) (ds : List VarDecl) (is : List Item)
    (a : State) :
    (deferItems functions consts (.globals ds :: is) a).1 =
      let x := deferInits functions consts ds a
      .globals x.1.1 :: (deferItems functions x.1.2 is x.2).1 := rfl

theorem deferItems_again (functions : List String) : ∀ (is : List Item) (consts : List String)
    (a b : State), (deferItems functions consts (deferItems functions consts is a).1 b).1 =
      (deferItems functions consts is a).1
  | [], _, _, _ => rfl
  | .globals ds :: is, consts, a, b => by
    rw [deferItems_globals]
    dsimp only
    rw [deferItems_globals]
    dsimp only
    rw [deferInits_again, deferItems_again functions is]
  | .struct d :: is, consts, a, b =>
    congrArg (Item.struct d :: ·) (deferItems_again functions is consts a b)
  | .function f :: is, consts, a, b =>
    congrArg (Item.function f :: ·) (deferItems_again functions is consts a b)

theorem deferInitialValues_again (st : Setting) (p : Program) (a b : State) :
    (deferInitialValues st (deferInitialValues st p a).1 b).1 = (deferInitialValues st p a).1 := by
  have hnames : (deferInitialValues st p a).1.functionNames = p.functionNames :=
    congrArg (map Function.name) (functions_deferItems p.functionNames p.items [] a)
  show Program.mk (deferItems (deferInitialValues st p a).1.functionNames [] _ b).1 = _
  rw [hnames]
  exact congrArg Program.mk (deferItems_again p.functionNames p.items [] a b)

/-! ## Declarations -/

def isMultiple : Stmt → Bool
  | .decl decls => decide (1 < decls.length)
  | _ => false

theorem splitDecl_eq_self {s : Stmt} (h : isMultiple s = false) : splitDecl s = [s] := by
  cases s with
  | decl decls =>
    rw [splitDecl, if_neg]
    exact of_decide_eq_false h
  | _ => rfl

/-- The walker that declares one variable at a time. -/
abbrev declWalker : Walker State :=
  { stmt := fun _ s => pure (splitDecl s) }

theorem clears_isMultiple : declWalker.Clears (fun _ => True) (fun _ => false) (fun _ => false)
    (fun _ => false) isMultiple where
  expr := fun _ _ _ _ _ _ => ⟨fun _ _ => rfl, trivial⟩
  stmt := fun _ s _ _ _ hop hch => by
    refine ⟨?_, trivial⟩
    cases s with
    | decl ds =>
      have hdecl : ∀ ds : List VarDecl, ¬ 1 < ds.length →
          (Stmt.decl ds).Avoids (fun _ => false) isMultiple := fun ds h =>
        Stmt.avoids_iff.mpr ⟨decide_eq_false h, fun _ _ _ _ => rfl, forall_mem_nil _⟩
      show ∀ t ∈ splitDecl (.decl ds), t.Avoids _ isMultiple
      grind [splitDecl]
    | _ => exact forall_mem_singleton.mpr (Stmt.avoids_iff.mpr ⟨rfl, hop, hch⟩)
  global := fun _ _ _ _ _ => ⟨fun _ _ _ _ => rfl, trivial⟩
  enter := fun _ _ _ _ h => ⟨h, trivial⟩
  leave := fun _ _ _ _ => ⟨rfl, trivial⟩
  exprKind := fun _ _ => rfl
  stmtKind := fun _ _ _ _ _ _ _ _ _ => rfl
  block := fun _ => rfl

theorem stepwise_splitDecl : Stepwise (σ := State) (fun _ s => pure (splitDecl s))
    (fun _ s => isMultiple s = false) (fun _ _ _ _ _ => True) where
  leaves := fun _ _ _ h => splitDecl_eq_self h
  block := fun _ _ _ => rfl
  extra := fun _ => trivial
  again := fun hs hmem => by
    have hnode := hs
    cases hs with
    | decl hds => exact ⟨congrArg Stmt.decl hds.eq_of_same, rfl⟩
    | _ => exact hnode.eq_of_mem hmem
  still := fun {_ s _} hmem => by
    cases s with
    | decl ds =>
      refine Bool.eq_false_iff.mpr fun hmultiple => ?_
      have hlt : 1 < ds.length := of_decide_eq_true hmultiple
      have hmem : Stmt.decl ds ∈ splitDecl (.decl ds) := hmem
      grind [splitDecl]
    | _ => rfl

/-- A global variable that stays, alone in its item. -/
def KeptItem : Item → Prop
  | .globals ds => ∃ d, ds = [d] ∧ (d.storage = .var ∨ d.storage = .const)
  | _ => True

theorem keptItems_kept (st : Setting) (is : List Item) (a : State) :
    ∀ i ∈ (keptItems st is a).1, KeptItem i := by
  rw [(yields_keptItems st is a).1]
  intro j hj
  obtain ⟨i, -, hj⟩ := mem_flatMap.mp hj
  cases i with
  | struct | function =>
    obtain rfl := mem_singleton.mp hj
    trivial
  | globals ds =>
    obtain ⟨d, hd, rfl⟩ := mem_map.mp hj
    exact ⟨d, rfl, by simpa [staysGlobal] using (mem_filter.mp hd).2⟩

theorem keepGlobal_of_kept (st : Setting) {d : VarDecl} (a : State)
    (h : d.storage = .var ∨ d.storage = .const) : keepGlobal st d a = (true, a) := by
  unfold keepGlobal
  rcases h with h | h <;> rw [h] <;> rfl

theorem keptItems_eq_self (st : Setting) : ∀ {is : List Item} (_ : ∀ i ∈ is, KeptItem i) (a : State),
    keptItems st is a = (is, a)
  | [], _, _ => rfl
  | .globals ds :: is, h, a => by
    rw [forall_mem_cons] at h
    obtain ⟨⟨d, rfl, hd⟩, h⟩ := h
    have hglobals : keptGlobals st [d] a = ([.globals [d]], a) := by
      show (if (keepGlobal st d a).1 then _ else _, (keepGlobal st d a).2) = _
      rw [keepGlobal_of_kept st a hd]
      rfl
    show ((keptGlobals st [d] a).1 ++ (keptItems st is (keptGlobals st [d] a).2).1,
      (keptItems st is (keptGlobals st [d] a).2).2) = _
    rw [hglobals, keptItems_eq_self st h a]
    rfl
  | .struct d :: is, h, a => by
    show (Item.struct d :: (keptItems st is a).1, (keptItems st is a).2) = _
    rw [keptItems_eq_self st (forall_mem_cons.mp h).2 a]
  | .function f :: is, h, a => by
    show (Item.function f :: (keptItems st is a).1, (keptItems st is a).2) = _
    rw [keptItems_eq_self st (forall_mem_cons.mp h).2 a]

theorem keptItem_walk {env : Env} {is js : List Item} {a b : State}
    (h : ItemsTo declWalker (fun _ _ _ _ _ => True) (fun _ _ _ _ _ => True) env is a js b)
    (his : ∀ i ∈ is, KeptItem i) : ∀ i ∈ js, KeptItem i := by
  induction h with
  | nil => exact forall_mem_nil _
  | cons hi _ ih =>
    rw [forall_mem_cons] at his
    refine forall_mem_cons.mpr ⟨?_, ih his.2⟩
    cases hi with
    | struct => trivial
    | function => trivial
    | globals hds =>
      obtain ⟨d, rfl, hd⟩ := his.1
      cases hds with
      | cons _ hnil =>
        cases hnil with
        | nil => exact ⟨_, rfl, hd⟩

theorem splitDeclarations_again (st : Setting) (p : Program) (a b : State) :
    (splitDeclarations st (splitDeclarations st p a).1 b).1 = (splitDeclarations st p a).1 := by
  obtain ⟨kept, c, hkept⟩ : ∃ kept c, keptItems st p.items a = (kept, c) := ⟨_, _, rfl⟩
  have hitems : ∀ i ∈ kept, KeptItem i := by
    have h := keptItems_kept st p.items a
    rw [hkept] at h
    exact h
  have hp : ∀ p' : Program, ∀ s, (splitDeclarations st p' s).1 =
      (declWalker.walk (st.envFor ⟨(keptItems st p'.items s).1⟩) ⟨(keptItems st p'.items s).1⟩
        (keptItems st p'.items s).2).1 := fun _ _ => rfl
  rw [hp, hp, hkept]
  generalize st.envFor ⟨kept⟩ = env
  have hwalk : declWalker.Establishes (fun _ _ _ _ _ => True) (fun _ _ _ _ _ => True) :=
    ⟨fun _ _ _ _ _ _ => trivial, fun _ _ _ _ _ _ _ => trivial⟩
  have hout : ∀ i ∈ (declWalker.walk env ⟨kept⟩ c).1.items, KeptItem i :=
    keptItem_walk (hwalk.onItems env kept c) hitems
  have havoid := (clears_isMultiple.avoids_walk env (a := c) trivial (avoids_false ⟨kept⟩)).1
  rw [keptItems_eq_self st hout b]
  refine (stepwise_splitDecl.walk_eq_self_iff _ _ b).mpr fun q hq => ?_
  obtain ⟨f, hf, hq⟩ := mem_flatMap.mp hq
  obtain ⟨i, hi, hif⟩ := mem_filterMap.mp hf
  obtain ⟨s, hs, hsub⟩ := Stmt.exists_mem_substmts hq
  cases i with
  | function g => exact (havoid _ hi s (Option.some.inj hif ▸ hs) q.2 hsub).1
  | struct | globals => cases hif

end Lowering

end ShaderEffect
