import ShaderEffect.Proofs.Lowering.Call.Follow

/-!
# Calls and the shapes of statements

The passes that move expressions between statements, on declarations and on control flow. They keep
the names of all calls, and bring in none.
-/

namespace ShaderEffect.Lowering

open Walker List Stmt

variable {new : String → Nat → Prop} {es : List Expr}
variable {s : Stmt} {moved : List Stmt} {Q : Expr → Prop}

/-! ## Declarations -/

theorem evaluated_keptItems (st : Setting) (is : List Item) (s : State) :
    (keptItems st is s).1.flatMap Item.evaluated ⊆ is.flatMap Item.evaluated := by
  rw [(yields_keptItems st is s).1, flatMap_assoc]
  intro e he
  obtain ⟨i, hi, he⟩ := mem_flatMap.mp he
  refine mem_flatMap.mpr ⟨i, hi, ?_⟩
  cases i with
  | struct | function => simpa [keptOf] using he
  | globals ds =>
    rw [keptOf, flatMap_map] at he
    obtain ⟨d, hd, he⟩ := mem_flatMap.mp he
    rw [Item.evaluated, flatMap_singleton] at he
    exact mem_flatMap.mpr ⟨d, mem_of_mem_filter hd, he⟩

theorem evaluated_splitDecl (h : ∀ e ∈ s.evaluated, Q e) :
    ∀ t ∈ splitDecl s, ∀ e ∈ t.evaluated, Q e := by
  unfold splitDecl
  split
  · split
    · rw [evaluated_decl, forall_mem_flatMap] at h
      refine forall_mem_map.mpr fun d hd => ?_
      rw [evaluated_decl, flatMap_singleton]
      exact h d hd
    · exact forall_mem_singleton.mpr h
  · exact forall_mem_singleton.mpr h

theorem passFollows_splitDeclarations (st : Setting) :
    PassFollows Same new (splitDeclarations st) := by
  intro p s
  have hdeferred := (yields_keptItems st p.items s).2.deferred
  have hcarries : Carries ({ stmt := fun _ s => pure (splitDecl s) } : Walker State)
      (fun a => a.deferred = s.deferred) Same new p.evaluated :=
    carries_of_stmt (fun _ _ _ => .pure evaluated_splitDecl) _ _
  exact hcarries.evaluated_walk (st.envFor { items := (keptItems st p.items s).1 }) hdeferred
    fun e he => original_of_mem (evaluated_keptItems st p.items s he)

/-! ## Side effects -/

/-- What is known about the calls when side effects have moved out of expressions: each expression
that is left follows the one that it was, and what moved follows one of them. -/
structure Drawn (new : String → Nat → Prop) (before left : List Expr) (moved : List Stmt) : Prop where
  left : List.Forall₂ (fun e e' => Follows Same new [e] e') before left
  moved : ∀ t ∈ moved, ∀ e ∈ t.evaluated, Follows Same new before e

namespace Drawn

variable {e : Expr} {ls : List Expr} {ss : List Stmt}

theorem nil : Drawn new [] [] [] :=
  ⟨.nil, forall_mem_nil _⟩

theorem append {xs ys ms : List Expr} {ts : List Stmt} (h : Drawn new xs ls ss)
    (h' : Drawn new ys ms ts) : Drawn new (xs ++ ys) (ls ++ ms) (ss ++ ts) where
  left := rel_append h.left h'.left
  moved := by
    refine forall_mem_append.mpr ⟨fun t ht e he => ?_, fun t ht e he => ?_⟩
    · refine (h.moved t ht e he).mono ?_
      rw [flatMap_append]
      exact subset_append_left _ _
    · refine (h'.moved t ht e he).mono ?_
      rw [flatMap_append]
      exact subset_append_right _ _

theorem single {e' : Expr} (he : Follows Same new [e] e')
    (hmoved : ∀ t ∈ moved, ∀ x ∈ t.evaluated, Follows Same new [e] x) : Drawn new [e] [e'] moved :=
  ⟨.cons he .nil, hmoved⟩

theorem stays (e : Expr) : Drawn new [e] [e] [] :=
  .single (.refl same_self e) (forall_mem_nil _)

theorem head {e' : Expr} (h : Drawn new [e] [e'] moved) : Follows Same new [e] e' := by
  cases h.left with
  | cons he _ => exact he

theorem node {x : Expr} {ts : List Stmt} (h : Drawn new e.children ls ss)
    (hx : Drawn new [e.withChildren ls] [x] ts) : Drawn new [e] [x] (ss ++ ts) := by
  refine .single (follows_step h.left hx.head) (forall_mem_append.mpr ⟨?_, ?_⟩)
  · intro t ht y hy
    refine (h.moved t ht y hy).mono ?_
    rw [flatMap_singleton, Expr.subexprs_eq_cons]
    exact subset_cons_self _ _
  · intro t ht y hy
    exact follows_step h.left (hx.moved t ht y hy)

theorem operands (h : Drawn new e.children ls ss) : Drawn new [e] [e.withChildren ls] ss := by
  have hnode := h.node (.stays _)
  rwa [append_nil] at hnode

end Drawn

theorem MovesTo.drawn {env : Env} {e x : Expr} {a b : State} (h : MovesTo env e a x moved b) :
    Drawn new [e] [x] moved := by
  have hself : Follows Same new [e] e := .refl same_self e
  have hstep : ∀ t ∈ [Stmt.expr e], ∀ x ∈ t.evaluated, Follows Same new [e] x := by
    rw [forall_mem_singleton, evaluated_expr]
    exact forall_mem_singleton.mpr hself
  cases h with
  | stays | reported => exact .stays e
  | target _ hx => exact .single (hself.child hx) hstep
  | old _ _ hx hd =>
    refine .single (.ident _) (forall_mem_cons.mpr ⟨?_, hstep⟩)
    rw [evaluated_decl, flatMap_singleton, hd]
    exact forall_mem_singleton.mpr (hself.child hx)

theorem Drawn.extraction (env : Env) : Extraction env fun es ls ms _ _ => Drawn new es ls ms where
  nil := fun _ => .nil
  append := .append
  node := fun _ _ h hm => h.node hm.drawn
  shortCircuit := fun {op l _ r ms _ _} _ h => by
    have hboth := h.append (.stays r)
    rw [append_nil] at hboth
    exact hboth.operands (e := .binary op l r)

theorem Drawn.evaluated (s s' : Stmt) (h : Drawn new s.operands s'.operands moved)
    (hchildren : s'.children = s.children) (hs : ∀ e ∈ s.evaluated, Follows Same new es e) :
    ∀ t ∈ moved ++ [s'], ∀ e ∈ t.evaluated, Follows Same new es e := by
  obtain ⟨hop, hch⟩ := forall_mem_evaluated.mp hs
  refine forall_mem_append.mpr ⟨fun t ht e he => .keep hop (h.moved t ht e he), ?_⟩
  refine forall_mem_singleton.mpr (forall_mem_evaluated.mpr ⟨fun e he => ?_, ?_⟩)
  · obtain ⟨x, hx, hfollows⟩ := exists_of_forall₂_right h.left he
    exact .keep (forall_mem_singleton.mpr (hop x hx)) hfollows
  · rw [hchildren]
    exact hch

theorem HoistsTo.evaluated {a b : State} {out : List Stmt}
    (h : HoistsTo (fun es ls ms _ _ => Drawn new es ls ms) a s out b)
    (hs : ∀ e ∈ s.evaluated, Follows Same new es e) :
    ∀ t ∈ out, ∀ e ∈ t.evaluated, Follows Same new es e := by
  cases h with
  | effect _ _ h => exact h.operands.evaluated (.expr _) (.expr _) rfl hs
  | value _ h => exact h.evaluated (.expr _) (.expr _) rfl hs
  | operands hcast h => cases hcast <;> exact h.evaluated _ _ rfl hs
  | kept => exact forall_mem_singleton.mpr hs

/-! ## Shapes -/

theorem follows_negate {e : Expr} (h : Follows Same new es e) : Follows Same new es (negate e) := by
  unfold negate
  split
  · exact Follows.unary_iff.mp h
  · exact Follows.binary_iff.mpr (Follows.binary_iff.mp h)
  · exact Follows.unary_iff.mpr h

theorem yields_follows_lowerStmt (es : List Expr) (env : Env) (s : Stmt) :
    Yields (lowerStmt env s) fun out => (∀ e ∈ s.evaluated, Follows Same new es e) →
      ∀ t ∈ out, ∀ e ∈ t.evaluated, Follows Same new es e := by
  intro a
  obtain ⟨-, -, hsince⟩ := hoisted_hoistAll env (shape s a).1 (shape s a).2
  refine ⟨fun hs => ?_, hsince.trans (yields_shape s a).2⟩
  obtain ⟨hop, hch⟩ := forall_mem_evaluated.mp hs
  have hshape : ∀ t ∈ (shape s a).1, ∀ e ∈ t.evaluated, Follows Same new es e :=
    holds_shape (P := Follows Same new es) (fun _ _ => forall_mem_evaluated)
      (fun _ => follows_negate) (fun _ => Follows.comma_iff.mp) a hop hch
  intro t ht
  obtain ⟨u, hu, b, ht⟩ := mem_hoistAll ht
  exact ((Drawn.extraction env).hoist u b).evaluated (hshape u hu) t ht

theorem passFollows_lowerControlFlow (st : Setting) : PassFollows Same new (lowerControlFlow st) :=
  passFollows_walk st.envFor (carries_of_stmt yields_follows_lowerStmt)

end ShaderEffect.Lowering
