import ShaderEffect.Proofs.Lowering.ControlFlow
import ShaderEffect.Proofs.Lowering.Read

/-!
# Passes that keep a program lowered

The passes after control flow change expressions and single statements. None of them brings a
conditional expression or a `do` loop into a program that has none, defers such an expression, or
changes whether a case label holds a conditional expression (`KeepsLowered`). Here this is shown for
the passes that work node by node: lanes, conversions, operations, reads of images, overloads and
names of the host.
-/

namespace ShaderEffect.Lowering

open Walker List Stmt Expr

variable {f : Expr → Expr} {e value base : Expr} {inputs : List String} {env : Env}
variable (st : Setting) {out : List Stmt} {s : Stmt}

/-- No `do` loop stands in the program, and no conditional expression outside its case labels. -/
abbrev LoweredProgram (p : Program) : Prop :=
  p.Avoids isConditional isDoWhile

/-- The step keeps the case labels with conditional expressions, as long as what is deferred is
lowered. -/
def KeepsCaseLabels (pass : Program → LowerM Program) : Prop :=
  ∀ p s, DeferredLowered s →
    (pass p s).1.hasLabel isConditional = p.hasLabel isConditional ∧ DeferredLowered (pass p s).2

/-- The step keeps a lowered program lowered, together with what is deferred and with the case
labels. -/
def KeepsLowered (pass : Program → LowerM Program) : Prop :=
  ∀ p s, DeferredLowered s → LoweredProgram p →
    LoweredProgram (pass p s).1 ∧ (pass p s).1.hasLabel isConditional = p.hasLabel isConditional ∧
      DeferredLowered (pass p s).2

theorem keepsLowered_walk {w : Walker State} (env : Program → Env)
    (hclears : w.Clears (fun _ => True) isConditional isConditional isDoWhile isDoWhile)
    (hlabels : w.KeepsLabels DeferredLowered isConditional) :
    KeepsLowered fun p => w.walk (env p) p := by
  intro p s hs hp
  exact ⟨(hclears.avoids_walk (env p) trivial hp).1, hlabels.hasLabel_walk (env p) p hs⟩

theorem keepsLowered_exprWalk {f : Env → Expr → LowerM Expr} (env : Program → Env)
    (hf : ∀ env e, Yields (f env e) fun x => Plain e → Plain x) :
    KeepsLowered fun p => ({ expr := f } : Walker State).walk (env p) p :=
  keepsLowered_walk env (clears_of_expr hf)
    (keepsLabels_of_expr (fun env e s => ⟨trivial, (hf env e s).2⟩) _)

/-! ## Lanes -/

section

variable {a b : State} (h : AssignsTo base value a out b)
include h

theorem AssignsTo.isStep : ∀ t ∈ out, IsStep t := by
  cases h with
  | whole => exact forall_mem_singleton.mpr (.inr ⟨_, rfl⟩)
  | held => exact forall_mem_cons.mpr ⟨.inl ⟨_, rfl⟩, forall_mem_singleton.mpr (.inr ⟨_, rfl⟩)⟩

theorem AssignsTo.lowered (hb : Plain base) (hv : Plain value) : ∀ t ∈ out, Lowered t := by
  have hassign : ∀ {x}, Written [base, value] x →
      ∀ t ∈ [Stmt.expr (.assign none base x)], Lowered t := fun hx =>
    forall_mem_singleton.mpr (lowered_expr.mpr (plain_assign.mpr
      ⟨hb, hx.plain (forall_mem_cons.mpr ⟨hb, forall_mem_singleton.mpr hv⟩)⟩))
  cases h with
  | whole hx => exact hassign hx
  | held hd hx =>
    grind [lowered_decl]

theorem AssignsTo.since : b.Since a := by
  cases h with
  | whole => exact .refl a
  | held _ _ hsince => exact hsince

end

theorem LanesTo.hoisted {a b : State} (h : LanesTo env a s out b) : Hoisted s out a b := by
  cases h with
  | kept | noted => exact .stays _ (.of_eq rfl rfl)
  | lanes _ hv hto =>
    refine ⟨fun kind => any_hasLabel_steps hto.isStep kind, fun hs => ?_, hto.since⟩
    obtain ⟨hl, hr⟩ := plain_assign.mp (lowered_expr.mp hs)
    refine hto.lowered (plain_field.mp hl) ?_
    grind [plain_binary]

theorem keepsLowered_lowerLaneAssignments : KeepsLowered (lowerLaneAssignments st) := by
  refine keepsLowered_walk st.envFor ?_ ?_
  · exact clears_lowered (fun _ _ _ _ he => ⟨he, trivial⟩)
      (fun env s a _ hs => ⟨(lowerLaneStmt_to env s a).hoisted.lowered hs, trivial⟩)
      (fun _ _ _ _ hd => ⟨hd, trivial⟩) (fun _ _ _ _ hf => ⟨hf, trivial⟩)
      (fun _ _ _ _ => ⟨rfl, trivial⟩)
  · exact ⟨fun _ _ _ ha => ha, fun env s a ha =>
        ⟨(lowerLaneStmt_to env s a).hoisted.hasLabel _,
          ha.since (lowerLaneStmt_to env s a).hoisted.since⟩,
      fun _ _ _ ha => ha, fun _ _ _ ha => ⟨rfl, ha⟩, fun _ _ _ ha => ⟨rfl, ha⟩⟩

/-! ## Conversions -/

theorem plain_convertDecl {d : VarDecl} (h : ∀ e ∈ d.init.toList, Plain e) :
    ∀ e ∈ (convertDecl env d).init.toList, Plain e := by
  intro x hx
  obtain ⟨e, he, hwritten⟩ := exists_of_mem_convertDecl hx
  exact hwritten.plain (forall_mem_singleton.mpr (h e he))

theorem lowered_convertStmt {returns : Option ShaderType} (h : Lowered s) :
    Lowered (convertStmt env returns s) := by
  unfold convertStmt
  split
  · grind [lowered_decl, plain_convertDecl]
  · split
    · exact lowered_ret.mpr (forall_mem_singleton.mpr
        ((written_converted (converted_coerce env _ _)).plain (lowered_ret.mp h)))
    · exact h
  · exact h

theorem hasLabel_convertStmt (kind : Expr → Bool) (env : Env) (returns : Option ShaderType)
    (s : Stmt) : (convertStmt env returns s).hasLabel kind = s.hasLabel kind := by
  unfold convertStmt
  split
  · rfl
  · split <;> rfl
  · rfl

theorem keepsLowered_insertConversions : KeepsLowered (insertConversions st) := by
  intro p s hs hp
  have hclears : converter.Clears (fun _ => True) isConditional isConditional isDoWhile isDoWhile :=
    clears_lowered (fun env e _ _ he => ⟨(renewed_convertNode env e).plain he, trivial⟩)
      (fun _ _ _ _ hs => ⟨forall_mem_singleton.mpr (lowered_convertStmt hs), trivial⟩)
      (fun _ _ _ _ hd => ⟨plain_convertDecl hd, trivial⟩) (fun _ _ _ _ hf => ⟨hf, trivial⟩)
      (fun _ _ _ _ => ⟨rfl, trivial⟩)
  have hlabels : converter.KeepsLabels (fun _ => True) isConditional :=
    ⟨fun _ _ _ _ => trivial,
      fun _ _ _ _ => ⟨(Bool.or_false _).trans (hasLabel_convertStmt _ _ _ _), trivial⟩,
      fun _ _ _ _ => trivial, fun _ _ _ _ => ⟨rfl, trivial⟩, fun _ _ _ _ => ⟨rfl, trivial⟩⟩
  exact ⟨(hclears.avoids_walk _ trivial hp).1, (hlabels.hasLabel_walk _ p trivial).1, hs⟩

/-! ## Operations -/

theorem plain_testInput (h : Plain e) : Plain (testInput inputs env e) :=
  (written_testInput (.self e)).plain (forall_mem_singleton.mpr h)

theorem plain_testInput_iff : Plain (testInput inputs env e) ↔ Plain e := by
  refine ⟨fun h => ?_, plain_testInput⟩
  cases e with
  | ident name => exact plain_ident name
  | _ => exact h

theorem plain_lowerOperation (inputs : List String) (env : Env) (e : Expr) :
    Yields (lowerOperation inputs env e) fun x => Plain e → Plain x := by
  intro a
  obtain ⟨⟨x, hrenewed, hwritten⟩, hsince⟩ := yields_lowerOperation inputs env e a
  refine ⟨fun he => hwritten.plain ?_, hsince⟩
  have hx := hrenewed.plain he
  exact forall_mem_cons.mpr ⟨hx, (avoids_iff.mp hx).2⟩

theorem lowered_mapExprs (hf : ∀ e, Plain e → Plain (f e)) (h : Lowered s) :
    Lowered (s.mapExprs f) := by
  obtain ⟨hhead, hop, hch⟩ := avoids_iff.mp h
  refine lowered_of_parts ?_ ?_ ?_
  · cases s <;> first | rfl | exact hhead
  · rw [operands_mapExprs]
    exact forall_mem_map.mpr fun e he => hf e (hop e he)
  · rw [children_mapExprs]
    exact hch

theorem any_labelValues_map (hf : ∀ e, Plain (f e) ↔ Plain e) (es : List Expr) :
    (es.map f).any (fun e => e.subexprs.any isConditional) =
      es.any fun e => e.subexprs.any isConditional := by
  grind [any_subexprs_eq_false_iff, any_map]

theorem hasLabel_mapExprs (hf : ∀ e, Plain (f e) ↔ Plain e) (s : Stmt) :
    (s.mapExprs f).hasLabel isConditional = s.hasLabel isConditional := by
  rw [hasLabel_eq, hasLabel_eq _ s, labelValues_mapExprs, any_labelValues_map hf,
    children_mapExprs]

theorem keepsLowered_lowerOperations : KeepsLowered (lowerOperations st) := by
  refine keepsLowered_walk st.envFor ?_ ?_
  · refine clears_lowered (fun env e a _ he => ⟨(plain_lowerOperation _ env e a).1 he, trivial⟩)
      (fun _ s _ _ hs => ⟨forall_mem_singleton.mpr
        (lowered_mapExprs (fun _ => plain_testInput) hs), trivial⟩)
      (fun _ d _ _ hd => ⟨?_, trivial⟩) (fun _ _ _ _ hf => ⟨hf, trivial⟩)
      (fun _ _ _ _ => ⟨rfl, trivial⟩)
    intro e he
    obtain ⟨x, hx, rfl⟩ := Option.map_eq_some_iff.mp (Option.mem_toList.mp he)
    exact plain_testInput (hd x (Option.mem_toList.mpr hx))
  · exact ⟨fun env e a ha => ha.since (yields_lowerOperation _ env e a).2,
      fun _ s _ ha => ⟨(Bool.or_false _).trans (hasLabel_mapExprs (fun _ => plain_testInput_iff) s),
        ha⟩,
      fun _ _ _ ha => ha, fun _ _ _ ha => ⟨rfl, ha⟩, fun _ _ _ ha => ⟨rfl, ha⟩⟩

/-! ## Reads of images -/

theorem plain_lowerRead (env : Env) (e : Expr) :
    Yields (lowerRead st env e) fun x => Plain e → Plain x := by
  intro s
  obtain ⟨ns, hx⟩ | ⟨access, name, target, rest, n, x, rfl, -, -, hread, hx⟩ :=
    lowerRead_cases st env e
  · obtain ⟨hx, hsince, -⟩ := hx s
    exact ⟨fun he => hx.symm ▸ he, hsince⟩
  · obtain ⟨hx, hsince, -⟩ := hx s
    refine ⟨fun he => ?_, hsince⟩
    rw [hx]
    exact (composed_read (fun _ => .given) hread).plain (forall_mem_cons.mp (plain_call.mp he)).2

theorem keepsLowered_lowerSampling : KeepsLowered (lowerSampling st) :=
  keepsLowered_exprWalk st.envFor (plain_lowerRead st)

/-! ## Names of functions and of the host -/

theorem yields_resolveCall (all : List Overload) (env : Env) (name : String) (args : List Expr) :
    Yields (resolveCall all env name args) fun e => (∀ x ∈ args, Plain x) → Plain e := by
  unfold resolveCall
  dsimp only
  split
  · exact .pure plain_call.mpr
  · split
    · exact .after_note (.pure plain_call.mpr)
    · split
      · exact .after_note (.pure plain_call.mpr)
      · exact .pure plain_call.mpr

theorem lowered_nameOverloads {p : Program} (h : LoweredProgram p) :
    LoweredProgram (nameOverloads p) := by
  intro i hi
  obtain ⟨j, hj, rfl⟩ := mem_map.mp hi
  have hav := h j hj
  cases j with
  | struct | globals => exact hav
  | function f =>
    show Item.Avoids _ _ (.function (if _ then _ else f))
    split <;> exact hav

theorem hasLabel_nameOverloads (kind : Expr → Bool) (p : Program) :
    (nameOverloads p).hasLabel kind = p.hasLabel kind := by
  unfold nameOverloads Program.hasLabel
  rw [any_map]
  refine congrArg p.items.any (funext fun i => ?_)
  cases i with
  | struct | globals => rfl
  | function f =>
    show Item.hasLabel kind (.function (if _ then _ else f)) = _
    split <;> rfl

theorem separateOverloads_eq (p : Program) :
    ∃ f : Env → Expr → LowerM Expr,
      (∀ env name args, f env (.call name args) = resolveCall (overloads p) env name args) ∧
      (∀ env e, e.isCall = false → f env e = pure e) ∧
      separateOverloads st p = if (overloads p).isEmpty then pure p
        else ({ expr := f } : Walker State).walk (st.envFor (nameOverloads p)) (nameOverloads p) := by
  refine ⟨_, ?_, ?_, by unfold separateOverloads; rfl⟩
  · exact fun _ _ _ => rfl
  · intro env e he
    cases e with
    | call => cases he
    | _ => rfl

theorem keepsLowered_separateOverloads : KeepsLowered (separateOverloads st) := by
  intro p s hs hp
  obtain ⟨f, hcall, hother, heq⟩ := separateOverloads_eq st p
  rw [heq]
  split
  · exact ⟨hp, rfl, hs⟩
  · have hf : ∀ (env : Env) (e : Expr), Yields (f env e) fun x => Plain e → Plain x := by
      intro env e
      cases e with
      | call name args =>
        grind [yields_resolveCall, plain_call]
      | _ =>
        rw [hother _ _ rfl]
        exact .pure id
    obtain ⟨h1, h2, h3⟩ := keepsLowered_exprWalk st.envFor hf (nameOverloads p) s hs
      (lowered_nameOverloads hp)
    exact ⟨h1, h2.trans (hasLabel_nameOverloads _ p), h3⟩

theorem keepsLowered_bindHostNames : KeepsLowered (bindHostNames st) :=
  keepsLowered_exprWalk st.envFor fun env e s => (yields_bindNode st env e s).imp_left
    fun h he => h.plain (forall_mem_singleton.mpr he)

end ShaderEffect.Lowering
