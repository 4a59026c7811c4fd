import ShaderEffect.Proofs.Lowering.Call.Follow

/-!
# Calls and the nodes of expressions

The passes that change single nodes: the arguments of a call stay in their places, and a call that was
not there before is one of the built-in functions and helpers that the passes know (`Introduced`).
-/

namespace ShaderEffect.Lowering

open Walker List

/-- The calls of the expression come from calls of the others, under their names, or were brought in
by the passes. -/
abbrev Kept (es : List Expr) (e : Expr) : Prop :=
  Follows Same Introduced es e

theorem kept_self (e : Expr) : Kept [e] e :=
  .refl same_self e

theorem kept_child {e c : Expr} (hc : c ∈ e.children) : Kept [e] c :=
  (kept_self e).child hc

theorem Composed.follows {names : String → Nat → String → Prop} {new : String → Nat → Prop}
    {V : String → Prop} {es fs : List Expr} {e : Expr} (h : Composed new V es e)
    (hes : ∀ x ∈ es, Follows names new fs x) : Follows names new fs e := by
  induction h with
  | given he => exact hes _ he
  | name => exact .ident _
  | node hcall _ _ _ ih => exact .node hcall ih
  | call hnew _ ih => exact .new hnew ih

theorem Renewed.kept {e x : Expr} (h : Renewed e x) : Kept [e] x := by
  obtain ⟨cs, rfl, hcs⟩ := h
  exact .withChildren same_self
    (hcs.imp fun c _ hwritten => hwritten.follows (forall_mem_singleton.mpr (kept_self c)))

section Nodes

variable {es : List Expr} {env : Env} {e base value : Expr}
variable (st : Setting) {s : Stmt}

/-! ## Lanes and conditional expressions -/

theorem kept_respellLanes (env : Env) (e : Expr) : Kept [e] (respellLanes env e) := by
  unfold respellLanes
  split
  · rename_i base name
    have hbase : Kept [.field base name] base := kept_child mem_cons_self
    split
    · exact Follows.field_iff.mpr hbase
    · exact Follows.field_iff.mpr hbase
  · exact kept_self e

theorem passFollows_normaliseLanes : PassFollows Same Introduced (normaliseLanes st) :=
  passFollows_walk st.envFor (carries_of_expr fun env e => .pure (kept_respellLanes env e))

theorem kept_lowerConditional (e : Expr) : Kept [e] (lowerConditional e) := by
  unfold lowerConditional
  split
  · rename_i cond t f
    obtain ⟨hcond, htrue, hfalse⟩ := Follows.conditional_iff.mp (kept_self (.conditional cond t f))
    refine .new .select ?_
    simp [hcond, htrue, hfalse]
  · exact kept_self e

theorem passFollows_lowerConditionals : PassFollows Same Introduced (lowerConditionals st) :=
  passFollows_walk st.envFor (carries_of_expr fun _ e => .pure (kept_lowerConditional e))

theorem AssignsTo.kept {a b : State} {out : List Stmt} (h : AssignsTo base value a out b)
    (hb : Kept es base) (hv : Kept es value) : ∀ t ∈ out, ∀ e ∈ t.evaluated, Kept es e := by
  have hassign : ∀ {x}, Written [base, value] x →
      ∀ t ∈ [Stmt.expr (.assign none base x)], ∀ e ∈ t.evaluated, Kept es e := by
    intro x hx
    rw [forall_mem_singleton, Stmt.evaluated_expr, forall_mem_singleton]
    exact Follows.assign_iff.mpr
      ⟨hb, hx.follows (forall_mem_cons.mpr ⟨hb, forall_mem_singleton.mpr hv⟩)⟩
  cases h with
  | whole hx => exact hassign hx
  | held hd hx =>
    refine forall_mem_cons.mpr ⟨?_, hassign hx⟩
    rw [Stmt.evaluated_decl, flatMap_singleton, hd]
    exact forall_mem_singleton.mpr hv

theorem LanesTo.follows {out : List Stmt} {a b : State} (h : LanesTo env a s out b)
    (hs : ∀ e ∈ s.evaluated, Kept es e) : ∀ t ∈ out, ∀ e ∈ t.evaluated, Kept es e := by
  cases h with
  | kept | noted => exact forall_mem_singleton.mpr hs
  | lanes _ hv hto =>
    rw [Stmt.evaluated_expr, forall_mem_singleton] at hs
    obtain ⟨hl, hr⟩ := Follows.assign_iff.mp hs
    refine hto.kept (Follows.field_iff.mp hl) ?_
    rcases hv with rfl | ⟨op, rfl⟩
    · exact hr
    · exact Follows.binary_iff.mpr ⟨hl, hr⟩

theorem passFollows_lowerLaneAssignments :
    PassFollows Same Introduced (lowerLaneAssignments st) := by
  refine passFollows_walk st.envFor (carries_of_stmt fun es env s a => ?_)
  exact ⟨(lowerLaneStmt_to env s a).follows, (lowerLaneStmt_to env s a).hoisted.since⟩

/-! ## Conversions -/

theorem kept_convertDecl {d : VarDecl} (h : ∀ e ∈ d.init.toList, Kept es e) :
    ∀ e ∈ (convertDecl env d).init.toList, Kept es e := by
  intro x hx
  obtain ⟨e, he, hwritten⟩ := exists_of_mem_convertDecl hx
  exact hwritten.follows (forall_mem_singleton.mpr (h e he))

theorem kept_convertStmt {returns : Option ShaderType} (h : ∀ e ∈ s.evaluated, Kept es e) :
    ∀ e ∈ (convertStmt env returns s).evaluated, Kept es e := by
  unfold convertStmt
  split
  · rename_i ds
    simp only [Stmt.evaluated_decl, forall_mem_flatMap] at h ⊢
    exact forall_mem_map.mpr fun d hd => kept_convertDecl (h d hd)
  · split
    · simp only [Stmt.evaluated_ret, Option.toList_some, forall_mem_singleton] at h ⊢
      exact (written_converted (converted_coerce env _ _)).follows (forall_mem_singleton.mpr h)
    · exact h
  · exact h

theorem passFollows_insertConversions : PassFollows Same Introduced (insertConversions st) := by
  have hcarries : ∀ es, Carries converter (fun _ => True) Same Introduced es := by
    intro es
    refine ⟨fun env e cs _ _ hcs _ => ⟨trivial, ?_⟩, fun env s _ _ hs => ⟨trivial, ?_⟩,
      fun _ _ _ _ hd => ⟨trivial, kept_convertDecl hd⟩, fun _ _ _ _ hf => ⟨trivial, hf⟩,
      fun _ _ _ _ => ⟨trivial, rfl⟩⟩
    · exact follows_step hcs (renewed_convertNode env _).kept
    · exact forall_mem_singleton.mpr (kept_convertStmt hs)
  intro p s
  exact ⟨rfl, ((hcarries p.evaluated).evaluated_walk _ trivial fun _ => original_of_mem).2⟩

/-! ## Operations -/

theorem kept_testInput {inputs : List String} (h : Kept es e) : Kept es (testInput inputs env e) :=
  (written_testInput (.self e)).follows (forall_mem_singleton.mpr h)

theorem yields_kept_lowerOperation (inputs : List String) (env : Env) (e : Expr) :
    Yields (lowerOperation inputs env e) fun x => Kept [e] x := by
  intro a
  obtain ⟨⟨x, hrenewed, hwritten⟩, hsince⟩ := yields_lowerOperation inputs env e a
  have hx := hrenewed.kept
  exact ⟨hwritten.follows (forall_mem_cons.mpr ⟨hx, fun _ => hx.child⟩), hsince⟩

theorem evaluated_mapExprs {Q : Expr → Prop} {f : Expr → Expr} (hf : ∀ e, Q e → Q (f e))
    (h : ∀ e ∈ s.evaluated, Q e) : ∀ e ∈ (s.mapExprs f).evaluated, Q e := by
  rw [Stmt.forall_mem_evaluated] at h ⊢
  rw [Stmt.operands_mapExprs, Stmt.children_mapExprs]
  exact ⟨forall_mem_map.mpr fun e he => hf e (h.1 e he), h.2⟩

theorem passFollows_lowerOperations : PassFollows Same Introduced (lowerOperations st) := by
  refine passFollows_walk st.envFor fun es d => ?_
  refine ⟨fun env e cs a ha hcs _ => ?_, fun _ s _ ha hs => ⟨ha, ?_⟩, fun _ d _ ha hd => ⟨ha, ?_⟩,
    fun _ _ _ ha hf => ⟨ha, hf⟩, fun _ _ _ ha => ⟨ha, rfl⟩⟩
  · obtain ⟨hx, hsince⟩ := yields_kept_lowerOperation st.booleanInputs env (e.withChildren cs) a
    exact ⟨hsince.deferred.trans ha, follows_step hcs hx⟩
  · exact forall_mem_singleton.mpr (evaluated_mapExprs (fun _ => kept_testInput) hs)
  · intro e he
    obtain ⟨x, hx, rfl⟩ := Option.map_eq_some_iff.mp (Option.mem_toList.mp he)
    exact kept_testInput (hd x (Option.mem_toList.mpr hx))

/-! ## Reads of images and names of the host -/

theorem yields_kept_lowerRead (env : Env) (e : Expr) :
    Yields (lowerRead st env e) fun x => Kept [e] x := by
  intro s
  refine ⟨?_, (plain_lowerRead st env e s).2⟩
  obtain ⟨ns, hx⟩ | ⟨access, name, target, rest, n, x, rfl, -, -, hread, hx⟩ :=
    lowerRead_cases st env e
  · rw [(hx s).1]
    exact kept_self e
  · rw [(hx s).1]
    exact (composed_read (fun _ => .given) hread).follows fun a ha => kept_child (mem_cons_of_mem _ ha)

theorem passFollows_lowerSampling : PassFollows Same Introduced (lowerSampling st) :=
  passFollows_walk st.envFor (carries_of_expr (yields_kept_lowerRead st))

theorem passFollows_bindHostNames : PassFollows Same (fun _ _ => False) (bindHostNames st) :=
  passFollows_walk st.envFor (carries_of_expr fun env e s => (yields_bindNode st env e s).imp_left
    fun h => h.follows (forall_mem_singleton.mpr (.refl same_self e)))

end Nodes

end ShaderEffect.Lowering
