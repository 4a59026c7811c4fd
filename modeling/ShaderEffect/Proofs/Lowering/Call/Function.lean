import ShaderEffect.Proofs.Lowering.Call.Follow

/-!
# Calls, parameters and the entry point

The passes that change functions: arguments that are passed by reference go through temporaries, the
initial values of globals move to the entry point, and the entry point is made of `main`. Again calls
keep their names and the places of their arguments. The only new call is that of `mainImage`.
-/

namespace ShaderEffect.Lowering

open Walker List Stmt

variable {new : String → Nat → Prop} {es : List Expr}

/-! ## Parameters -/

/-- What waits around the current statement follows the expressions `es`, and what is set aside for
the entry point stays as it is. -/
structure Waiting (new : String → Nat → Prop) (es : List Expr) (d : List Stmt) (s : ParamState) :
    Prop where
  deferred : s.base.deferred = d
  before : ∀ t ∈ s.before, ∀ e ∈ t.evaluated, Follows Same new es e
  after : ∀ t ∈ s.after, ∀ e ∈ t.evaluated, Follows Same new es e

section Parameters

variable {d : List Stmt} {arg : Expr}

theorem holds_waiting (h : Follows Same new es arg) : Holds (Waiting new es d) arg where
  noted := by
    rintro a _ ⟨base, hbase, rfl⟩ ha
    exact ⟨hbase.deferred.trans ha.deferred, ha.before, ha.after⟩
  hold := fun {a} held type ha => by
    refine ⟨ha.deferred, ?_, ?_⟩
    · refine forall_mem_append.mpr ⟨ha.before, forall_mem_singleton.mpr ?_⟩
      rw [evaluated_decl, flatMap_singleton]
      exact forall_mem_singleton.mpr h
    · show ∀ t ∈ (if arg.root?.isSome then _ else a.after : List Stmt), _
      split
      · refine forall_mem_append.mpr ⟨ha.after, forall_mem_singleton.mpr ?_⟩
        rw [evaluated_expr]
        exact forall_mem_singleton.mpr (Follows.assign_iff.mpr ⟨h, .ident _⟩)
      · exact ha.after

theorem follows_lowersTo {table : RefTable} {env : Env} {e e' : Expr} {a b : ParamState}
    (h : LowersTo table env a e e' b) : Follows Same new [e] e' := by
  cases h with
  | behind => exact Follows.deref_iff.mpr (.ident _)
  | ident => exact .ident _
  | call hargs =>
    refine .of_args (same_self _ _) (hargs.forall₂ (fun x => .refl same_self x) fun hto => ?_)
    exact hto.ends (.refl same_self _) (fun _ => .ident _) fun _ => Follows.addrOf_iff.mpr
  | other => exact .refl same_self _

theorem follows_wrapsTo {s : Stmt} {out : List Stmt} {a b : ParamState} (h : WrapsTo a s out b)
    (ha : Waiting new es d a) (hs : ∀ e ∈ s.evaluated, Follows Same new es e) :
    Waiting new es d b ∧ ∀ t ∈ out, ∀ e ∈ t.evaluated, Follows Same new es e := by
  constructor
  · obtain ⟨base, hbase, rfl⟩ := h.state
    exact ⟨hbase.deferred.trans ha.deferred, forall_mem_nil _, forall_mem_nil _⟩
  · refine h.forall_mem ha.before ha.after hs ?_
    rintro value result type rfl
    rw [evaluated_decl, flatMap_singleton, evaluated_ret]
    rw [evaluated_ret] at hs
    exact ⟨hs, forall_mem_singleton.mpr (.ident _)⟩

theorem evaluated_copyParams {Q : Expr → Prop} (hQ : ∀ name, Q (.ident name)) (st : Setting)
    (written : List String) {f : Function} (h : ∀ s ∈ f.body, ∀ e ∈ s.evaluated, Q e) :
    ∀ s ∈ (copyParams st written f).body, ∀ e ∈ s.evaluated, Q e := by
  refine forall_mem_append.mpr ⟨forall_mem_map.mpr fun p _ => ?_, h⟩
  rw [evaluated_decl, flatMap_singleton]
  exact forall_mem_singleton.mpr (hQ _)

end Parameters

theorem carries_paramWalker (st : Setting) (table : RefTable) (es : List Expr) (d : List Stmt) :
    Carries (paramWalker st table) (Waiting new es d) Same new es where
  expr := by
    intro env e cs a ha hcs hfollows
    have hchildren : ∀ c ∈ (e.withChildren cs).children, Follows Same new es c := by
      rw [Expr.children_withChildren hcs.length_eq.symm]
      exact hfollows
    have hto := lowerParamExpr_to table env (e.withChildren cs) a
    exact ⟨hto.keeps (fun c hc => holds_waiting (hchildren c hc)) ha,
      follows_step hcs (follows_lowersTo hto)⟩
  stmt := fun _ s a ha hs => follows_wrapsTo (wrapStmt_to s a) ha hs
  global := fun _ _ _ ha hd => ⟨ha, hd⟩
  enter := fun _ _ _ ha hf =>
    ⟨⟨ha.deferred, ha.before, ha.after⟩, evaluated_copyParams (fun _ => .ident _) st _ hf⟩
  leave := fun _ _ _ ha => ⟨⟨ha.deferred, ha.before, ha.after⟩, rfl⟩

theorem passFollows_lowerParameters (new : String → Nat → Prop) (st : Setting) :
    PassFollows Same new (lowerParameters st) := by
  intro p s
  have hstart : Waiting new p.evaluated s.deferred { base := s } :=
    ⟨rfl, forall_mem_nil _, forall_mem_nil _⟩
  obtain ⟨hwaiting, hout⟩ := (carries_paramWalker st (refTable p) p.evaluated
    s.deferred).evaluated_walk (st.envFor p) hstart fun _ => original_of_mem
  exact ⟨hwaiting.deferred, hout⟩

/-! ## Initial values -/

theorem evaluated_deferInit (functions consts : List String) {d : VarDecl} {s : State}
    (hd : ∀ e ∈ d.init.toList, Follows Same new es e)
    (hs : ∀ t ∈ s.deferred, ∀ e ∈ t.evaluated, Follows Same new es e) :
    (∀ e ∈ (deferInit functions consts d s).1.1.init.toList, Follows Same new es e) ∧
      ∀ t ∈ (deferInit functions consts d s).2.deferred, ∀ e ∈ t.evaluated,
        Follows Same new es e := by
  unfold deferInit
  cases hinit : d.init with
  | none => exact ⟨hd, hs⟩
  | some init =>
    have hfollows : Follows Same new es init := hd init (by simp [hinit])
    have hnew : ∀ t ∈ s.deferred ++ [.expr (.assign none (.ident d.name) init)],
        ∀ e ∈ t.evaluated, Follows Same new es e := by
      refine forall_mem_append.mpr ⟨hs, forall_mem_singleton.mpr ?_⟩
      rw [evaluated_expr]
      exact forall_mem_singleton.mpr (Follows.assign_iff.mpr ⟨.ident _, hfollows⟩)
    dsimp only
    split
    · exact ⟨hd, hs⟩
    · split
      · exact ⟨forall_mem_nil _, hnew⟩
      · exact ⟨forall_mem_nil _, hnew⟩

theorem evaluated_deferInits (functions : List String) : ∀ (consts : List String)
    (ds : List VarDecl) (s : State), (∀ d ∈ ds, ∀ e ∈ d.init.toList, Follows Same new es e) →
    (∀ t ∈ s.deferred, ∀ e ∈ t.evaluated, Follows Same new es e) →
    (∀ d ∈ (deferInits functions consts ds s).1.1, ∀ e ∈ d.init.toList, Follows Same new es e) ∧
      ∀ t ∈ (deferInits functions consts ds s).2.deferred, ∀ e ∈ t.evaluated,
        Follows Same new es e
  | _, [], _, _, hs => ⟨forall_mem_nil _, hs⟩
  | consts, d :: ds, s, h, hs => by
    rw [forall_mem_cons] at h
    obtain ⟨h1, h2⟩ := evaluated_deferInit functions consts h.1 hs
    obtain ⟨h3, h4⟩ :=
      evaluated_deferInits functions (deferInit functions consts d s).1.2 ds _ h.2 h2
    exact ⟨forall_mem_cons.mpr ⟨h1, h3⟩, h4⟩

theorem evaluated_deferItems (functions : List String) : ∀ (consts : List String)
    (is : List Item) (s : State), (∀ i ∈ is, ∀ e ∈ i.evaluated, Follows Same new es e) →
    (∀ t ∈ s.deferred, ∀ e ∈ t.evaluated, Follows Same new es e) →
    (∀ i ∈ (deferItems functions consts is s).1, ∀ e ∈ i.evaluated, Follows Same new es e) ∧
      ∀ t ∈ (deferItems functions consts is s).2.deferred, ∀ e ∈ t.evaluated,
        Follows Same new es e
  | _, [], _, _, hs => ⟨forall_mem_nil _, hs⟩
  | consts, .globals ds :: is, s, h, hs => by
    rw [forall_mem_cons] at h
    obtain ⟨h1, h2⟩ :=
      evaluated_deferInits functions consts ds s (forall_mem_flatMap.mp h.1) hs
    obtain ⟨h3, h4⟩ :=
      evaluated_deferItems functions (deferInits functions consts ds s).1.2 is _ h.2 h2
    exact ⟨forall_mem_cons.mpr ⟨forall_mem_flatMap.mpr h1, h3⟩, h4⟩
  | consts, .struct d :: is, s, h, hs => by
    rw [forall_mem_cons] at h
    obtain ⟨h1, h2⟩ := evaluated_deferItems functions consts is s h.2 hs
    exact ⟨forall_mem_cons.mpr ⟨h.1, h1⟩, h2⟩
  | consts, .function f :: is, s, h, hs => by
    rw [forall_mem_cons] at h
    obtain ⟨h1, h2⟩ := evaluated_deferItems functions consts is s h.2 hs
    exact ⟨forall_mem_cons.mpr ⟨h.1, h1⟩, h2⟩

/-- The expressions that a program evaluates, with those that were set aside for its entry point. -/
def pending (p : Program) (s : State) : List Expr :=
  p.evaluated ++ s.deferred.flatMap Stmt.evaluated

theorem follows_deferInitialValues (new : String → Nat → Prop) (st : Setting) (p : Program)
    (s : State) :
    ∀ e ∈ pending (deferInitialValues st p s).1 (deferInitialValues st p s).2,
      Follows Same new (pending p s) e := by
  have hpending : ∀ e ∈ pending p s, Follows Same new (pending p s) e :=
    fun e he => (Follows.refl same_self e).of_mem he
  rw [pending, forall_mem_append] at hpending
  obtain ⟨h1, h2⟩ := evaluated_deferItems p.functionNames [] p.items s
    (forall_mem_flatMap.mp hpending.1) (forall_mem_flatMap.mp hpending.2)
  exact forall_mem_append.mpr ⟨forall_mem_flatMap.mpr h1, forall_mem_flatMap.mpr h2⟩

/-! ## The entry point -/

theorem evaluated_returnColor : ∀ e ∈ returnColor.evaluated, Follows Same new es e := by
  rw [returnColor, evaluated_ret]
  exact forall_mem_singleton.mpr (.ident _)

theorem evaluated_colorBody {body : List Stmt}
    (h : ∀ s ∈ body, ∀ e ∈ s.evaluated, Follows Same new es e) :
    ∀ s ∈ colorBody body, ∀ e ∈ s.evaluated, Follows Same new es e := by
  have hreturns : ∀ s : Stmt, (∀ e ∈ s.evaluated, Follows Same new es e) →
      ∀ e ∈ (returnsColor s).evaluated, Follows Same new es e := by
    intro s hs
    unfold returnsColor
    split
    · exact evaluated_returnColor
    · exact hs
  have hmapped : ∀ s ∈ mapTreeAll id returnsColor body, ∀ e ∈ s.evaluated,
      Follows Same new es e := by
    rw [mapTreeAll_eq_map]
    exact forall_mem_map.mpr fun s hs =>
      evaluated_mapTree (fun _ he => he) hreturns s (h s hs)
  grind [colorBody, evaluated_returnColor]

theorem evaluated_prologue : ∀ t ∈ prologue, ∀ e ∈ t.evaluated, Follows Same new es e := by
  simp [prologue]

theorem evaluated_mapFirst {Q : Expr → Prop} {test : Function → Bool} {g : Function → Function}
    (hg : ∀ f, (∀ s ∈ f.body, ∀ e ∈ s.evaluated, Q e) → ∀ s ∈ (g f).body, ∀ e ∈ s.evaluated, Q e) :
    ∀ {is : List Item}, (∀ i ∈ is, ∀ e ∈ i.evaluated, Q e) →
      ∀ i ∈ mapFirst test g is, ∀ e ∈ i.evaluated, Q e
  | [], _ => forall_mem_nil _
  | .function f :: is, h => by
    rw [forall_mem_cons] at h
    unfold mapFirst
    split
    · refine forall_mem_cons.mpr ⟨forall_mem_flatMap.mpr ?_, h.2⟩
      exact hg f (forall_mem_flatMap.mp h.1)
    · exact forall_mem_cons.mpr ⟨h.1, evaluated_mapFirst hg h.2⟩
  | .struct d :: is, h => by
    rw [forall_mem_cons] at h
    exact forall_mem_cons.mpr ⟨h.1, evaluated_mapFirst hg h.2⟩
  | .globals ds :: is, h => by
    rw [forall_mem_cons] at h
    exact forall_mem_cons.mpr ⟨h.1, evaluated_mapFirst hg h.2⟩

theorem yields_follows_entryWithoutMain (hnew : new "mainImage" 2) (p : Program) :
    Yields (entryWithoutMain p) fun rest =>
      ∀ t ∈ rest, ∀ e ∈ t.evaluated, Follows Same new es e := by
  unfold entryWithoutMain
  split
  · refine .bind (.temp _) fun color _ => .pure ?_
    have hcall : Follows Same new es (.call "mainImage"
        [.addrOf (.ident color), .field (.ident Wgsl.fragCoord) "xy"]) := by
      refine .new hnew ?_
      simp
    simp [callMainImage, VarDecl.var, hcall]
  · exact .after_note (.pure (forall_mem_singleton.mpr evaluated_returnColor))

theorem follows_makeEntryPoint (hnew : new "mainImage" 2) (st : Setting) (p : Program) (s : State) :
    ∀ e ∈ (makeEntryPoint st p s).1.evaluated, Follows Same new (pending p s) e := by
  have hpending : ∀ e ∈ pending p s, Follows Same new (pending p s) e :=
    fun e he => (Follows.refl same_self e).of_mem he
  by_cases hentry : p.functions.any Function.isEntry = true
  · rw [makeEntryPoint_of_hasEntry st s hentry]
    exact fun e he => hpending e (mem_append_left _ he)
  · rw [pending, forall_mem_append] at hpending
    have hitems := forall_mem_flatMap.mp hpending.1
    have hbefore : ∀ t ∈ prologue ++ s.deferred, ∀ e ∈ t.evaluated,
        Follows Same new (pending p s) e :=
      forall_mem_append.mpr ⟨evaluated_prologue, forall_mem_flatMap.mp hpending.2⟩
    by_cases hmain : p.functions.any isMain = true
    · rw [makeEntryPoint_of_main st s hentry hmain]
      refine forall_mem_flatMap.mpr (evaluated_mapFirst (fun f hf => ?_) hitems)
      exact forall_mem_append.mpr ⟨hbefore, evaluated_colorBody hf⟩
    · rw [makeEntryPoint_without_main st s hentry hmain]
      refine forall_mem_flatMap.mpr (forall_mem_append.mpr
        ⟨hitems, forall_mem_singleton.mpr (forall_mem_flatMap.mpr ?_)⟩)
      refine forall_mem_append.mpr ⟨hbefore, ?_⟩
      exact (yields_follows_entryWithoutMain hnew p { s with deferred := [] }).1

end ShaderEffect.Lowering
