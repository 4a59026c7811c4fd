import ShaderEffect.Proofs.Lowering.Argument
import ShaderEffect.Proofs.Lowering.Deferral
import ShaderEffect.Proofs.Lowering.Node

/-!
# What survives the passes

Every pass keeps the case labels, and no pass looks into them. Everywhere else `lowerConditionals`
removes all conditional expressions, `lowerControlFlow` removes all `do` loops, and no later pass
brings one back, also not in the assignments that wait for the entry point.

So the passes succeed exactly on the programs without a conditional expression in a case label.
-/

namespace ShaderEffect.Lowering

open Walker List Stmt

variable {f : Expr → Expr} {test : Function → Bool} {p : Program} {g : Function → Function}
variable (kind : Expr → Bool) (st : Setting) (names : Renames) {a b : ParamState}

/-! ## Before conditional expressions are lowered -/

theorem hasLabel_eq_any_functions (p : Program) :
    p.hasLabel kind = p.functions.any fun f => f.body.any (Stmt.hasLabel kind) := by
  rw [Program.functions, any_filterMap]
  exact congrArg p.items.any (funext fun i => by cases i <;> rfl)

/-- A global that is no part of the interface. -/
def staysGlobal (d : VarDecl) : Bool :=
  d.storage == .var || d.storage == .const

def keptOf : Item → List Item
  | .globals ds => (ds.filter staysGlobal).map fun d => .globals [d]
  | i => [i]

theorem yields_keepGlobal (d : VarDecl) :
    Yields (keepGlobal st d) fun keep => keep = staysGlobal d := by
  unfold keepGlobal staysGlobal
  cases d.storage with
  | var | const => exact .pure rfl
  | uniform => exact .after_note (.pure rfl)
  | input =>
    dsimp only
    split
    · exact .after_note (.pure rfl)
    · exact .pure rfl
  | output =>
    refine .bind .get fun s _ => ?_
    split
    · exact .bind (.modify fun _ => .of_eq rfl rfl) fun _ _ => .pure rfl
    · exact .after_note (.pure rfl)

theorem yields_keptGlobals (st : Setting) : ∀ ds : List VarDecl,
    Yields (keptGlobals st ds) fun items => items = keptOf (.globals ds)
  | [] => .pure rfl
  | d :: ds => .bind (yields_keepGlobal st d) fun _ hkeep =>
    .bind (yields_keptGlobals st ds) fun _ hitems => .pure <| by
      rw [hkeep, hitems, keptOf, keptOf, filter_cons]
      split <;> rfl

theorem yields_keptItems (st : Setting) : ∀ is : List Item,
    Yields (keptItems st is) fun items => items = is.flatMap keptOf
  | [] => .pure rfl
  | .globals ds :: is => .bind (yields_keptGlobals st ds) fun _ hkept =>
    .bind (yields_keptItems st is) fun _ hitems => .pure <| by rw [hkept, hitems, flatMap_cons]
  | .struct _ :: is | .function _ :: is => .bind (yields_keptItems st is) fun _ hitems =>
    .pure (congrArg (_ :: ·) hitems)

theorem functions_keptItems (is : List Item) (s : State) :
    (keptItems st is s).1.filterMap Item.function? = is.filterMap Item.function? := by
  rw [(yields_keptItems st is s).1, filterMap_flatMap, filterMap_eq_flatMap_toList]
  refine flatMap_congr fun i _ => ?_
  cases i with
  | struct | function => rfl
  | globals ds => simp [keptOf, Item.function?]

theorem isStep_splitDecl {ds : List VarDecl} : ∀ t ∈ splitDecl (.decl ds), IsStep t := by
  unfold splitDecl
  split
  · rename_i heq
    cases heq
    split
    · intro t ht
      obtain ⟨d, -, rfl⟩ := mem_map.mp ht
      exact .inl ⟨_, rfl⟩
    · exact forall_mem_singleton.mpr (.inl ⟨_, rfl⟩)
  · rename_i hnot
    exact absurd rfl (hnot ds)

theorem keepsCaseLabels_splitDeclarations :
    KeepsCaseLabels (splitDeclarations st) := by
  intro p s hs
  have h1 : Program.hasLabel isConditional ⟨(keptItems st p.items s).1⟩ = p.hasLabel isConditional := by
    rw [hasLabel_eq_any_functions, hasLabel_eq_any_functions]
    exact congrArg (List.any · _) (functions_keptItems st p.items s)
  have h2 := (yields_keptItems st p.items s).2
  have hw : ({ stmt := fun _ s => pure (splitDecl s) } : Walker State).KeepsLabels DeferredLowered
      isConditional := by
    refine ⟨fun _ _ _ ha => ha, fun _ s _ ha => ⟨?_, ha⟩, fun _ _ _ ha => ha,
      fun _ _ _ ha => ⟨rfl, ha⟩, fun _ _ _ ha => ⟨rfl, ha⟩⟩
    cases s with
    | decl ds => exact any_hasLabel_steps isStep_splitDecl isConditional
    | _ => exact Bool.or_false _
  obtain ⟨h3, h4⟩ := hw.hasLabel_walk _ { items := (keptItems st p.items s).1 } (hs.since h2)
  exact ⟨h3.trans h1, h4⟩

theorem keepsCaseLabels_normaliseLanes : KeepsCaseLabels (normaliseLanes st) :=
  fun p _ hs => (keepsLabels_of_expr (fun _ _ => .pure trivial) _).hasLabel_walk _ p hs

/-! ## Conditional expressions and control flow -/

theorem plain_lowerConditional {e : Expr} (h : ∀ c ∈ e.children, Plain c) :
    Plain (lowerConditional e) := by
  unfold lowerConditional
  split
  · rename_i cond t f
    have h' : Plain cond ∧ Plain t ∧ Plain f := by simpa [Expr.children] using h
    simpa using ⟨h'.2.2, h'.2.1, h'.1⟩
  · rename_i hnot
    refine plain_of_children ?_ h
    cases e <;> first | rfl | exact absurd rfl (hnot _ _ _)

theorem clears_lowerConditional :
    ({ expr := fun _ e => pure (lowerConditional e) } : Walker State).Clears (fun _ => True)
      (fun _ => false) isConditional (fun _ => false) (fun _ => false) where
  expr := fun _ _ _ _ _ hch => ⟨plain_lowerConditional hch, trivial⟩
  stmt := fun _ _ _ _ _ hop hch =>
    ⟨forall_mem_singleton.mpr (avoids_iff.mpr ⟨rfl, hop, hch⟩), trivial⟩
  global := fun _ _ _ _ hd => ⟨hd, trivial⟩
  enter := fun _ _ _ _ hf => ⟨hf, trivial⟩
  leave := fun _ _ _ _ => ⟨rfl, trivial⟩
  exprKind := fun _ _ => rfl
  stmtKind := fun _ _ _ _ _ _ _ _ _ => rfl
  block := fun _ => rfl

theorem avoids_false (p : Program) : p.Avoids (fun _ => false) fun _ => false := by
  intro i _
  cases i with
  | struct => trivial
  | globals ds => exact fun _ _ _ _ _ _ => rfl
  | function f => exact fun _ _ _ _ => ⟨rfl, fun _ _ _ _ => rfl⟩

theorem lowerConditionals_spec (p : Program) (s : State) (hs : DeferredLowered s) :
    (lowerConditionals st p s).1.Avoids isConditional (fun _ => false) ∧
      (lowerConditionals st p s).1.hasLabel isConditional = p.hasLabel isConditional ∧
      DeferredLowered (lowerConditionals st p s).2 :=
  ⟨(clears_lowerConditional.avoids_walk _ trivial (avoids_false p)).1,
    (keepsLabels_of_expr (fun _ _ => .pure trivial) _).hasLabel_walk _ p hs⟩

theorem lowerControlFlow_spec (p : Program) (s : State) (hs : DeferredLowered s)
    (hp : p.Avoids isConditional fun _ => false) :
    LoweredProgram (lowerControlFlow st p s).1 ∧
      (lowerControlFlow st p s).1.hasLabel isConditional = p.hasLabel isConditional ∧
      DeferredLowered (lowerControlFlow st p s).2 :=
  ⟨(clears_lowerStmt.avoids_walk _ trivial hp).1,
    (keepsLabels_lowerStmt isConditional).hasLabel_walk _ p hs⟩

/-! ## Parameters -/

/-- What waits around the current statement are single steps. Where `c` holds, they are also free of
conditional expressions: the labels of a program are kept without this, its other parts with it. -/
structure Pending (c : Prop) (s : ParamState) : Prop where
  deferred : DeferredLowered s.base
  before : ∀ t ∈ s.before, IsStep t ∧ (c → Lowered t)
  after : ∀ t ∈ s.after, IsStep t ∧ (c → Lowered t)

section Parameters

variable {c : Prop}

theorem holds_pending {arg : Expr} (h : c → Plain arg) : Holds (Pending c) arg where
  noted := by
    rintro a _ ⟨base, hbase, rfl⟩ ha
    exact ⟨ha.deferred.since hbase, ha.before, ha.after⟩
  hold := fun {a} held type ha => by
    refine ⟨ha.deferred, ?_, ?_⟩
    · refine forall_mem_append.mpr ⟨ha.before, forall_mem_singleton.mpr
        ⟨.inl ⟨_, rfl⟩, fun hc => lowered_decl.mpr ?_⟩⟩
      simpa [VarDecl.var] using h hc
    · show ∀ t ∈ (if arg.root?.isSome then _ else a.after : List Stmt), _
      split
      · exact forall_mem_append.mpr ⟨ha.after, forall_mem_singleton.mpr
          ⟨.inr ⟨_, rfl⟩, fun hc => lowered_expr.mpr (plain_assign.mpr ⟨h hc, plain_ident _⟩)⟩⟩
      · exact ha.after

theorem plain_lowersTo {table : RefTable} {env : Env} {e e' : Expr}
    (h : LowersTo table env a e e' b) (he : Plain e) : Plain e' := by
  cases h with
  | behind => exact plain_deref.mpr (plain_ident _)
  | ident | other => exact he
  | call hargs =>
    have hout := hargs.forall₂ (Q := fun x y => Plain x → Plain y) (fun _ => id) fun hto hx =>
      hto.ends hx plain_ident fun _ => plain_addrOf.mpr
    rw [plain_call] at he ⊢
    intro y hy
    obtain ⟨x, hx, hxy⟩ := exists_of_forall₂_right hout hy
    exact hxy (he x hx)

theorem pending_wrapsTo {s : Stmt} {out : List Stmt} (h : WrapsTo a s out b)
    (ha : Pending c a) : Pending c b ∧
      out.any (Stmt.hasLabel isConditional) = s.hasLabel isConditional ∧
      (c → Lowered s → ∀ t ∈ out, Lowered t) := by
  have hbefore := any_hasLabel_steps (fun t ht => (ha.before t ht).1) isConditional
  have hafter := any_hasLabel_steps (fun t ht => (ha.after t ht).1) isConditional
  refine ⟨?_, ?_, fun hc hs => ?_⟩
  · obtain ⟨base, hbase, rfl⟩ := h.state
    exact ⟨ha.deferred.since hbase, forall_mem_nil _, forall_mem_nil _⟩
  · cases h with
    | alone => exact Bool.or_false _
    | around => simp [any_append, hbefore, hafter]
    | result =>
      simp only [any_append, hbefore, hafter]
      rfl
  · refine h.forall_mem (fun t ht => (ha.before t ht).2 hc) (fun t ht => (ha.after t ht).2 hc) hs ?_
    rintro value result type rfl
    exact ⟨lowered_decl.mpr (by simpa [VarDecl.var] using lowered_ret.mp hs),
      lowered_ret.mpr (by simp)⟩

theorem lowered_copyParams {st : Setting} {written : List String} {f : Function}
    (h : ∀ s ∈ f.body, Lowered s) : ∀ s ∈ (copyParams st written f).body, Lowered s := by
  refine forall_mem_append.mpr ⟨fun t ht => ?_, h⟩
  obtain ⟨p, -, rfl⟩ := mem_map.mp ht
  exact lowered_decl.mpr (by simp [VarDecl.var])

theorem hasLabel_copyParams (written : List String)
    (f : Function) :
    (copyParams st written f).body.any (Stmt.hasLabel kind) =
      f.body.any (Stmt.hasLabel kind) := by
  refine (any_append).trans ?_
  rw [any_hasLabel_steps _ kind, Bool.false_or]
  intro t ht
  obtain ⟨p, -, rfl⟩ := mem_map.mp ht
  exact .inl ⟨_, rfl⟩

theorem keepsLowered_lowerParameters : KeepsLowered (lowerParameters st) := by
  intro p s hs hp
  have hstart : ∀ c, Pending c { base := s } := fun c =>
    ⟨hs, forall_mem_nil _, forall_mem_nil _⟩
  have hclears : (paramWalker st (refTable p)).Clears (Pending True) isConditional isConditional
      isDoWhile isDoWhile := by
    refine clears_lowered (fun env e a ha he => ?_) (fun env s a ha hs => ?_)
      (fun _ _ _ ha hd => ⟨hd, ha⟩) (fun _ _ _ ha hf => ⟨lowered_copyParams hf, ?_⟩)
      (fun _ _ _ ha => ⟨rfl, ?_⟩)
    · have hto := lowerParamExpr_to (refTable p) env e a
      exact ⟨plain_lowersTo hto he, hto.keeps (fun c hc => holds_pending fun _ =>
        (Expr.avoids_iff.mp he).2 c hc) ha⟩
    · obtain ⟨h1, -, h2⟩ := pending_wrapsTo (wrapStmt_to s a) ha
      exact ⟨h2 trivial hs, h1⟩
    · exact ⟨ha.deferred, ha.before, ha.after⟩
    · exact ⟨ha.deferred, ha.before, ha.after⟩
  have hlabels : (paramWalker st (refTable p)).KeepsLabels (Pending False) isConditional := by
    refine ⟨fun env e a ha => ?_, fun env s a ha => ?_, fun _ _ _ ha => ha,
      fun _ _ _ ha => ⟨hasLabel_copyParams _ _ _ _, ha.deferred, ha.before, ha.after⟩,
      fun _ _ _ ha => ⟨rfl, ha.deferred, ha.before, ha.after⟩⟩
    · exact (lowerParamExpr_to ..).keeps (fun _ _ => holds_pending False.elim) ha
    · obtain ⟨h1, h2, -⟩ := pending_wrapsTo (wrapStmt_to s a) ha
      exact ⟨h2, h1⟩
  obtain ⟨h1, -⟩ := hclears.avoids_walk (st.envFor p) (hstart True) hp
  obtain ⟨h2, h3⟩ := hlabels.hasLabel_walk (st.envFor p) p (hstart False)
  exact ⟨h1, h2, h3.deferred⟩

end Parameters

/-! ## Reserved names -/

theorem lowered_mapTree {g : Stmt → Stmt} (hf : ∀ e, Plain e → Plain (f e))
    (hg : ∀ s, Lowered s → Lowered (g s)) (s : Stmt) : Lowered s → Lowered (s.mapTree f g) := by
  induction s using byChildren with
  | node s ih =>
    intro hs
    obtain ⟨hhead, hop, hch⟩ := avoids_iff.mp hs
    rw [mapTree_eq]
    refine hg _ (lowered_mapExprs hf (lowered_of_parts ?_ ?_ ?_))
    · cases s <;> first | rfl | exact hhead
    · rw [operands_mapChildren]
      exact hop
    grind [children_mapChildren]

theorem hasLabel_mapTree {g : Stmt → Stmt} (hf : ∀ e, Plain (f e) ↔ Plain e)
    (hg : ∀ s, (g s).hasLabel isConditional = s.hasLabel isConditional) (s : Stmt) :
    (s.mapTree f g).hasLabel isConditional = s.hasLabel isConditional := by
  induction s using byChildren with
  | node s ih =>
    rw [mapTree_eq, hg, hasLabel_mapExprs hf, hasLabel_eq, hasLabel_eq _ s,
      labelValues_mapChildren, children_mapChildren, any_map]
    refine congrArg (_ || ·) ?_
    rw [Bool.eq_iff_iff, any_eq_true, any_eq_true]
    exact exists_congr fun c => and_congr_right fun hc => by
      rw [Function.comp_apply, ih c hc]

theorem plain_mapNodes_iff (hkind : ∀ e, isConditional (f e) = isConditional e)
    (hchildren : ∀ e, (f e).children = e.children) (e : Expr) : Plain (e.mapNodes f) ↔ Plain e := by
  induction e using Expr.byChildren with
  | node e ih =>
    grind [Expr.mapNodes_eq, Expr.avoids_iff, isConditional_withChildren,
        Expr.children_withChildren]

theorem plain_renameExpr_iff (names members : Renames) (values functions : List String) (e : Expr) :
    Plain (e.mapNodes (renameNode names members values functions)) ↔ Plain e := by
  refine plain_mapNodes_iff (fun e => ?_) (fun e => ?_) e
  · cases e <;> rfl
  · cases e <;> rfl

theorem plain_map_init (hf : ∀ e, Plain e → Plain (f e)) {o : Option Expr}
    (h : ∀ e ∈ o.toList, Plain e) : ∀ e ∈ (o.map f).toList, Plain e := by
  cases o with
  | none => exact forall_mem_nil _
  | some e => exact forall_mem_singleton.mpr (hf e (h e (by simp)))

theorem lowered_renameLocals (s : Stmt) (h : Lowered s) :
    Lowered (renameLocals names s) := by
  unfold renameLocals
  split
  · refine lowered_decl.mpr fun d hd => ?_
    obtain ⟨d, hmem, rfl⟩ := mem_map.mp hd
    exact plain_map_init (fun _ => id) (lowered_decl.mp h d hmem)
  · exact h

theorem hasLabel_renameLocals (s : Stmt) :
    (renameLocals names s).hasLabel kind = s.hasLabel kind := by
  unfold renameLocals
  split <;> rfl

theorem keepsLowered_renameReserved : KeepsLowered (renameReserved st) := by
  intro p s hs hp
  unfold renameReserved
  dsimp only
  split
  · exact ⟨hp, rfl, hs⟩
  · have hplain := plain_renameExpr_iff (nameRenames st.options.renamePrefix p)
      (memberRenames st.options.renamePrefix p) (valueNames p) (renamableFunctions p)
    refine ⟨fun i hi => ?_, ?_, hs⟩
    · obtain ⟨j, hj, rfl⟩ := mem_map.mp hi
      have hav := hp j hj
      cases j with
      | struct d => trivial
      | globals ds =>
        intro d hd
        obtain ⟨d, hmem, rfl⟩ := mem_map.mp hd
        exact plain_map_init (fun e => (hplain e).mpr) (hav d hmem)
      | function f =>
        show ∀ t ∈ mapTreeAll _ _ f.body, Lowered t
        rw [mapTreeAll_eq_map]
        exact forall_mem_map.mpr fun t ht =>
          lowered_mapTree (fun e => (hplain e).mpr) (lowered_renameLocals _) t (hav t ht)
    · show (map _ p.items).any _ = p.items.any _
      rw [any_map]
      refine congrArg p.items.any (funext fun i => ?_)
      cases i with
      | struct | globals => rfl
      | function f =>
        show (mapTreeAll _ _ f.body).any _ = f.body.any _
        grind [mapTreeAll_eq_map, hasLabel_mapTree, hasLabel_renameLocals]

/-! ## Initial values -/

theorem loweredProgram_iff :
    LoweredProgram p ↔ (∀ d ∈ p.globals, ∀ e ∈ d.init.toList, Plain e) ∧
      ∀ f ∈ p.functions, ∀ s ∈ f.body, Lowered s := by
  constructor
  · intro h
    refine ⟨fun d hd => ?_, fun f hf => h _ (mem_functions.mp hf)⟩
    obtain ⟨i, hi, hd⟩ := mem_flatMap.mp hd
    cases i with
    | globals ds => exact h _ hi d hd
    | struct | function => cases hd
  · rintro ⟨hglobals, hfunctions⟩ i hi
    cases i with
    | struct => trivial
    | globals ds => exact fun d hd => hglobals d (mem_flatMap.mpr ⟨_, hi, hd⟩)
    | function f => exact hfunctions f (mem_functions.mpr hi)

theorem keepsLowered_deferInitialValues : KeepsLowered (deferInitialValues st) := by
  intro p s hs hp
  obtain ⟨hplain, hbodies⟩ := loweredProgram_iff.mp hp
  have hfunctions : (deferInitialValues st p s).1.functions = p.functions :=
    functions_deferItems p.functionNames p.items [] s
  obtain ⟨hdecls, hstate⟩ := deferItems_eq p.functionNames p.items [] s
  obtain ⟨moved, hdeferral, hdeferred⟩ := deferral_deferInits p.functionNames p.globals [] s
  refine ⟨loweredProgram_iff.mpr ⟨fun d hd e he => ?_, hfunctions ▸ hbodies⟩, ?_, fun t ht => ?_⟩
  · rcases hdeferral.mem_kept d (hdecls ▸ hd) with hd | hnone
    · exact hplain d hd e he
    · rw [hnone] at he
      cases he
  · rw [hasLabel_eq_any_functions, hasLabel_eq_any_functions, hfunctions]
  · have ht : t ∈ s.deferred ++ moved.filterMap initialisation :=
      hdeferred ▸ (congrArg State.deferred hstate ▸ ht)
    rcases mem_append.mp ht with ht | ht
    · exact hs t ht
    · obtain ⟨d, hd, ht⟩ := mem_filterMap.mp ht
      obtain ⟨e, he, rfl⟩ := Option.map_eq_some_iff.mp ht
      have hvalue := hplain d (hdeferral.sublist.subset hd) e (Option.mem_toList.mpr he)
      exact ⟨.inr ⟨_, rfl⟩, lowered_expr.mpr (plain_assign.mpr ⟨plain_ident _, hvalue⟩)⟩

/-! ## The entry point -/

theorem lowered_returnColor : Lowered returnColor :=
  lowered_ret.mpr (by simp)

theorem lowered_returnsColor (s : Stmt) (h : Lowered s) : Lowered (returnsColor s) := by
  unfold returnsColor
  split
  · exact lowered_returnColor
  · exact h

theorem hasLabel_returnsColor (s : Stmt) :
    (returnsColor s).hasLabel kind = s.hasLabel kind := by
  unfold returnsColor
  split <;> rfl

theorem lowered_colorBody {body : List Stmt} (h : ∀ s ∈ body, Lowered s) :
    ∀ s ∈ colorBody body, Lowered s := by
  have hmapped : ∀ s ∈ mapTreeAll id returnsColor body, Lowered s := by
    rw [mapTreeAll_eq_map]
    exact forall_mem_map.mpr fun s hs =>
      lowered_mapTree (fun _ => id) lowered_returnsColor s (h s hs)
  unfold colorBody
  dsimp only
  split
  · exact hmapped
  · exact forall_mem_append.mpr ⟨hmapped, forall_mem_singleton.mpr lowered_returnColor⟩

theorem hasLabel_colorBody (body : List Stmt) :
    (colorBody body).any (Stmt.hasLabel isConditional) =
      body.any (Stmt.hasLabel isConditional) := by
  have hmapped : (mapTreeAll id returnsColor body).any (hasLabel isConditional) =
      body.any (hasLabel isConditional) := by
    rw [mapTreeAll_eq_map, any_map]
    exact congrArg body.any (funext fun s =>
      hasLabel_mapTree (fun _ => Iff.rfl) (hasLabel_returnsColor _) s)
  unfold colorBody
  dsimp only
  split
  · exact hmapped
  · rw [any_append, hmapped]
    exact Bool.or_false _

theorem prologue_spec : ∀ t ∈ prologue, IsStep t ∧ Lowered t := by
  refine forall_mem_cons.mpr ⟨⟨.inr ⟨_, rfl⟩, ?_⟩, forall_mem_singleton.mpr
    ⟨.inr ⟨_, rfl⟩, ?_⟩⟩
  · simp
  · simp

theorem before_spec {s : State} (hs : DeferredLowered s) :
    ∀ t ∈ prologue ++ s.deferred, IsStep t ∧ Lowered t :=
  forall_mem_append.mpr ⟨prologue_spec, hs⟩

theorem avoids_mapFirst (hg : ∀ f, (∀ s ∈ f.body, Lowered s) → ∀ s ∈ (g f).body, Lowered s)
    {is : List Item} (h : ∀ i ∈ is, i.Avoids isConditional isDoWhile) :
    ∀ i ∈ mapFirst test g is, i.Avoids isConditional isDoWhile := by
  rcases mapFirst_cases test g is with ⟨heq, -⟩ | ⟨before, f, after, rfl, -, -, heq⟩
  · rwa [heq]
  · rw [heq]
    rw [forall_mem_append, forall_mem_cons] at h ⊢
    exact ⟨h.1, hg f h.2.1, h.2.2⟩

theorem hasLabel_mapFirst
    (hg : ∀ f, (g f).body.any (Stmt.hasLabel isConditional) = f.body.any (Stmt.hasLabel
      isConditional)) (is : List Item) :
    (mapFirst test g is).any (Item.hasLabel isConditional) =
      is.any (Item.hasLabel isConditional) := by
  rcases mapFirst_cases test g is with ⟨heq, -⟩ | ⟨before, f, after, rfl, -, -, heq⟩
  · rw [heq]
  · rw [heq, any_append, any_append, any_cons, any_cons]
    exact congrArg (fun b => _ || (b || _)) (hg f)

theorem any_mapFirst {good : Function → Bool} (hg : ∀ f, good (g f) = true) (is : List Item)
    (h : (is.filterMap Item.function?).any test = true) :
    ((mapFirst test g is).filterMap Item.function?).any good = true := by
  grind [mapFirst_cases, mem_functions]

theorem yields_entryWithoutMain (p : Program) : Yields (entryWithoutMain p) fun rest =>
    (∀ t ∈ rest, Lowered t) ∧ rest.any (Stmt.hasLabel isConditional) = false := by
  unfold entryWithoutMain
  split
  · refine .bind (.temp _) fun color _ => .pure ⟨?_, rfl⟩
    simp [callMainImage, VarDecl.var]
  · exact .after_note (.pure ⟨forall_mem_singleton.mpr lowered_returnColor, rfl⟩)

theorem hasEntry_makeEntryPoint (p : Program) (s : State) :
    HasEntry (makeEntryPoint st p s).1 := by
  by_cases hentry : p.functions.any Function.isEntry = true
  · rw [makeEntryPoint_of_hasEntry st s hentry]
    exact hentry
  · by_cases hmain : p.functions.any isMain = true
    · rw [makeEntryPoint_of_main st s hentry hmain]
      exact any_mapFirst (fun _ => rfl) p.items hmain
    · rw [makeEntryPoint_without_main st s hentry hmain]
      simp [HasEntry, Program.functions, Item.function?]

theorem makeEntryPoint_spec (p : Program) (s : State) (hs : DeferredLowered s)
    (hp : LoweredProgram p) :
    LoweredProgram (makeEntryPoint st p s).1 ∧
      (makeEntryPoint st p s).1.hasLabel isConditional = p.hasLabel isConditional := by
  have hbefore := before_spec hs
  have hlowered : ∀ t ∈ prologue ++ s.deferred, Lowered t := fun t ht => (hbefore t ht).2
  have hlabel := any_hasLabel_steps (fun t ht => (hbefore t ht).1) isConditional
  by_cases hentry : p.functions.any Function.isEntry = true
  · rw [makeEntryPoint_of_hasEntry st s hentry]
    exact ⟨hp, rfl⟩
  · by_cases hmain : p.functions.any isMain = true
    · rw [makeEntryPoint_of_main st s hentry hmain]
      refine ⟨?_, ?_⟩
      · exact avoids_mapFirst (fun f hf =>
          forall_mem_append.mpr ⟨hlowered, lowered_colorBody hf⟩) hp
      · refine hasLabel_mapFirst (fun f => any_append.trans ?_) p.items
        rw [hlabel, Bool.false_or, hasLabel_colorBody]
    · obtain ⟨⟨hrest, hrestLabel⟩, -⟩ := yields_entryWithoutMain p { s with deferred := [] }
      rw [makeEntryPoint_without_main st s hentry hmain]
      refine ⟨?_, ?_⟩
      · refine forall_mem_append.mpr ⟨hp, forall_mem_singleton.mpr ?_⟩
        exact forall_mem_append.mpr ⟨hlowered, hrest⟩
      · refine any_append.trans ((congrArg (p.items.any _ || ·) ?_).trans (Bool.or_false _))
        refine (Bool.or_false _).trans (any_append.trans ?_)
        rw [hlabel, hrestLabel]
        rfl

/-! ## All passes -/

theorem runPasses_cons (pass : Pass) (passes : List Pass) (p : Program) (s : State) :
    runPasses st (pass :: passes) p s =
      runPasses st passes (pass.apply st p s).1 (pass.apply st p s).2 := rfl

theorem runPasses_append (st : Setting) : ∀ (before after : List Pass) (p : Program) (s : State),
    runPasses st (before ++ after) p s =
      runPasses st after (runPasses st before p s).1 (runPasses st before p s).2
  | [], _, _, _ => rfl
  | _ :: before, after, _, _ => runPasses_append st before after _ _

theorem keepsLowered_runPasses {st : Setting} : ∀ {passes : List Pass},
    (∀ pass ∈ passes, KeepsLowered (pass.apply st)) → KeepsLowered (runPasses st passes)
  | [], _ => fun _ _ hs hp => ⟨hp, rfl, hs⟩
  | pass :: passes, h => fun p s hs hp => by
    rw [forall_mem_cons] at h
    obtain ⟨h1, h2, h3⟩ := h.1 p s hs hp
    obtain ⟨h4, h5, h6⟩ := keepsLowered_runPasses h.2 _ _ h3 h1
    exact ⟨h4, h5.trans h2, h6⟩

/-- The passes between control flow and the entry point. -/
def middlePasses : List Pass :=
  [.laneAssignments, .conversions, .operations, .sampling, .overloads, .parameters, .hostNames,
    .reservedNames, .globalInits]

theorem keepsLowered_middlePasses : KeepsLowered (runPasses st middlePasses) := by
  refine keepsLowered_runPasses fun pass hpass => ?_
  simp only [middlePasses, mem_cons, not_mem_nil, or_false] at hpass
  rcases hpass with rfl | rfl | rfl | rfl | rfl | rfl | rfl | rfl | rfl
  · exact keepsLowered_lowerLaneAssignments st
  · exact keepsLowered_insertConversions st
  · exact keepsLowered_lowerOperations st
  · exact keepsLowered_lowerSampling st
  · exact keepsLowered_separateOverloads st
  · exact keepsLowered_lowerParameters st
  · exact keepsLowered_bindHostNames st
  · exact keepsLowered_renameReserved st
  · exact keepsLowered_deferInitialValues st

theorem runPasses_early_spec (p : Program) :
    let r := runPasses st [.declarations, .laneAliases, .conditionals, .controlFlow] p {}
    LoweredProgram r.1 ∧ r.1.hasLabel isConditional = p.hasLabel isConditional ∧
      DeferredLowered r.2 := by
  have hstart : DeferredLowered {} := forall_mem_nil _
  obtain ⟨l1, d1⟩ := keepsCaseLabels_splitDeclarations st p {} hstart
  obtain ⟨l2, d2⟩ := keepsCaseLabels_normaliseLanes st _ _ d1
  obtain ⟨h3, l3, d3⟩ := lowerConditionals_spec st _ _ d2
  obtain ⟨h4, l4, d4⟩ := lowerControlFlow_spec st _ _ d3 h3
  exact ⟨h4, l4.trans (l3.trans (l2.trans l1)), d4⟩

/-- **What the passes leave of a program**: no `do` loop, no conditional expression outside case
labels, the case labels themselves, and an entry point. -/
theorem runPasses_all_spec (p : Program) :
    LoweredProgram (runPasses st Pass.all p {}).1 ∧
      (runPasses st Pass.all p {}).1.hasLabel isConditional = p.hasLabel isConditional ∧
      HasEntry (runPasses st Pass.all p {}).1 := by
  have hsplit : Pass.all = [.declarations, .laneAliases, .conditionals, .controlFlow] ++
      (middlePasses ++ [.entryPoint]) := rfl
  rw [hsplit, runPasses_append, runPasses_append]
  obtain ⟨h1, l1, d1⟩ := runPasses_early_spec st p
  generalize runPasses st [.declarations, .laneAliases, .conditionals, .controlFlow] p {} = r1 at *
  obtain ⟨h2, l2, d2⟩ := keepsLowered_middlePasses st r1.1 r1.2 d1 h1
  generalize runPasses st middlePasses r1.1 r1.2 = r2 at *
  obtain ⟨h3, l3⟩ := makeEntryPoint_spec st r2.1 r2.2 d2 h2
  exact ⟨h3, l3.trans (l2.trans l1), hasEntry_makeEntryPoint st r2.1 r2.2⟩

/-! ## What is left -/

theorem any_subexprs_of_lowered {s : Stmt} (h : Lowered s) :
    s.subexprs.any isConditional = s.hasLabel isConditional := by
  unfold subexprs hasLabel
  rw [any_flatMap]
  rw [Bool.eq_iff_iff, any_eq_true, any_eq_true]
  refine exists_congr fun t => and_congr_right fun ht => ?_
  have hop : (t.operands.flatMap Expr.subexprs).any isConditional = false := by
    rw [any_flatMap, any_eq_false]
    intro e he
    rw [Expr.any_subexprs_eq_false_iff.mpr ((h t ht).2 e he)]
    exact Bool.false_ne_true
  rw [exprs_eq_append, flatMap_append, any_append, hop, Bool.false_or,
    any_flatMap]

theorem any_subexprs_item {i : Item} (h : i.Avoids isConditional isDoWhile) :
    i.subexprs.any isConditional = i.hasLabel isConditional := by
  cases i with
  | struct d => rfl
  | globals ds =>
    show any (flatMap _ _) _ = false
    rw [any_flatMap, any_eq_false]
    intro e he
    obtain ⟨d, hd, he⟩ := mem_filterMap.mp he
    rw [Expr.any_subexprs_eq_false_iff.mpr (h d hd e (Option.mem_toList.mpr he))]
    exact Bool.false_ne_true
  | function f =>
    show (f.body.flatMap subexprs).any _ = f.body.any _
    rw [any_flatMap, Bool.eq_iff_iff, any_eq_true, any_eq_true]
    exact exists_congr fun s => and_congr_right fun hs => by rw [any_subexprs_of_lowered (h s hs)]

theorem any_substmts_item {i : Item} (h : i.Avoids isConditional isDoWhile) :
    i.substmts.any isDoWhile = false := by
  cases i with
  | struct | globals => rfl
  | function f =>
    show (substmtsAll f.body).any _ = false
    rw [substmtsAll_eq_flatMap, any_flatMap, any_eq_false]
    intro s hs
    rw [any_eq_true]
    rintro ⟨t, ht, hdo⟩
    rw [(h s hs t ht).1] at hdo
    exact Bool.false_ne_true hdo

theorem survivor?_eq (hp : LoweredProgram p) (hentry : HasEntry p) :
    survivor? p = if p.hasLabel isConditional then some .conditional else none := by
  have hdo : (p.items.any fun i => i.substmts.any isDoWhile) = false := by
    rw [any_eq_false]
    intro i hi
    rw [any_substmts_item (hp i hi)]
    exact Bool.false_ne_true
  have hcond : (p.items.any fun i => i.subexprs.any isConditional) = p.hasLabel isConditional := by
    show _ = p.items.any _
    rw [Bool.eq_iff_iff, any_eq_true, any_eq_true]
    exact exists_congr fun i => and_congr_right fun hi => by rw [any_subexprs_item (hp i hi)]
  unfold survivor?
  rw [hdo, hcond, hentry]
  rfl

/-- The outcome of lowering: an error if a case label holds a conditional expression, else what the
passes leave. -/
theorem lower_eq (p : Program) :
    (lower st p).1 = if p.hasLabel isConditional then .error .conditional
      else .ok (runPasses st Pass.all p {}).1 := by
  have hspec := runPasses_all_spec st p
  unfold lower
  rw [StateT.run]
  revert hspec
  obtain ⟨q, s⟩ := runPasses st Pass.all p {}
  rintro ⟨hlowered, hlabel, hentry⟩
  dsimp only at hlabel ⊢
  rw [survivor?_eq hlowered hentry, hlabel]
  cases p.hasLabel isConditional <;> rfl

/-- **Lowering succeeds exactly without conditional expressions in case labels.** With one it reports
a conditional expression. In either case the passes leave an entry point, no `do` loop anywhere, and
no conditional expression outside the case labels: not in an initial value, a header, a selector, a
nested body, or an assignment that was deferred to the entry point. -/
theorem lower_succeeds_iff (st : Setting) (p : Program) :
    ((∃ q, (lower st p).1 = .ok q) ↔ p.hasLabel isConditional = false) ∧
      ((lower st p).1 = .error .conditional ↔ p.hasLabel isConditional = true) ∧
      LoweredProgram (runPasses st Pass.all p {}).1 ∧ HasEntry (runPasses st Pass.all p {}).1 := by
  obtain ⟨hlowered, -, hentry⟩ := runPasses_all_spec st p
  refine ⟨?_, ?_, hlowered, hentry⟩
  · rw [lower_eq]
    cases p.hasLabel isConditional <;> simp
  · rw [lower_eq]
    cases p.hasLabel isConditional <;> simp

end ShaderEffect.Lowering
