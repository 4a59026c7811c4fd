import ShaderEffect.Proofs.Lowering.Stable.Branch

/-!
# When lowering control flow leaves a program as it is

A statement is left alone if it has a shape of the target language and no side effect moves out of
it (`KeepsFlow`). **Lowering control flow leaves a program as it is exactly if this holds of each of
its statements** (`lowerControlFlow_eq_self_iff`). The outcome of the pass need not be such a
program: a `switch` may lose the `break` at the end of a branch, so that the branch runs on into the
next when it is lowered once more.
-/

namespace ShaderEffect.Lowering

open Walker List Stmt

variable {u s body t : Stmt} {cs cs' : List Case} {step cond : Option Expr} {start : Option Stmt}
  {env : Env} {a : State}

/-! ## Statements in shape -/

def isBlock : Stmt → Bool
  | .block _ => true
  | _ => false

def isIfElse : Stmt → Bool
  | .ifElse .. => true
  | _ => false

/-- The statement has a shape of the target language. -/
def InShape : Stmt → Prop
  | .expr e => isComma e = false
  | .ifElse _ whenTrue whenFalse =>
    isBlock whenTrue = true ∧ ∀ s ∈ whenFalse.toList, isBlock s = true ∨ isIfElse s = true
  | .whileLoop _ body => isBlock body = true
  | .doWhile _ _ => False
  | .forLoop start _ step body =>
    (start.all isStart && step.all isUpdate) = true ∧ isBlock body = true
  | .switch _ cases =>
    (cases.any fun c => c.labels.any CaseLabel.isDefault) = true ∧ BranchesApart cases
  | _ => True

/-- The statement is left alone: it is in shape, and no side effect moves out of it. -/
def KeepsFlow (env : Env) (s : Stmt) : Prop :=
  InShape s ∧ ∀ e ∈ sources s, Rests env e

/-- What a branch of a condition becomes that is no other condition. -/
def asElse (s : Stmt) : Stmt :=
  match s with
  | .ifElse .. => s
  | s => asBlock s

theorem asBlock_of_isBlock (h : isBlock s = true) : asBlock s = s := by
  cases s with
  | block => rfl
  | _ => cases h

theorem isBlock_of_asBlock (h : asBlock s = t) : isBlock t = true := by
  rw [← h]
  rfl

theorem asElse_eq_self_iff : asElse s = s ↔ isBlock s = true ∨ isIfElse s = true := by
  cases s with
  | ifElse => exact ⟨fun _ => .inr rfl, fun _ => rfl⟩
  | block => exact ⟨fun _ => .inl rfl, fun _ => rfl⟩
  | _ => exact ⟨nofun, fun h => by rcases h with h | h <;> cases h⟩

theorem addDefault_eq (hlength : cs'.length = cs.length) (h : addDefault cs' = cs) :
    cs' = cs ∧ (cs.any fun c => c.labels.any CaseLabel.isDefault) = true := by
  grind [addDefault]

theorem addDefault_of_any (h : (cs.any fun c => c.labels.any CaseLabel.isDefault) = true) :
    addDefault cs = cs :=
  if_pos h

theorem shape_ifElse (cond : Expr) (t : Stmt) (f : Option Stmt) (a : State) :
    (shape (.ifElse cond t f) a).1 = [.ifElse cond (asBlock t) (f.map asElse)] := rfl

theorem shape_forLoop (start : Option Stmt) (cond step : Option Expr) (body : Stmt) (a : State) :
    (shape (.forLoop start cond step body) a).1 = [shapeFor start cond step body] := rfl

theorem shape_switch (selector : Expr) (cs : List Case) (a : State) :
    (shape (.switch selector cs) a).1 = [.switch selector (addDefault (separated cs))] := by
  rw [← separateCases_fst cs a]
  rfl

theorem shape_of_inShape (h : InShape s) (a : State) : (shape s a).1 = [s] := by
  cases s with
  | expr e =>
    cases e with
    | comma => cases h
    | _ => rfl
  | ifElse cond t f =>
    have hfalse : f.map asElse = f := by
      cases f with
      | none => rfl
      | some s => exact congrArg some (asElse_eq_self_iff.mpr (h.2 s (by simp)))
    rw [shape_ifElse, asBlock_of_isBlock h.1, hfalse]
  | whileLoop cond body =>
    show [whileLoop cond (asBlock body)] = _
    rw [asBlock_of_isBlock h]
  | doWhile => exact h.elim
  | forLoop start cond step body =>
    rw [shape_forLoop, shapeFor, if_pos h.1, asBlock_of_isBlock h.2]
  | switch selector cases =>
    rw [shape_switch, separated_eq_self_iff.mpr h.2, addDefault_of_any h.1]
  | _ => rfl

theorem commaWeight_of_inShape (h : InShape s) : commaWeight s = 0 := by
  cases s with
  | expr e => exact commaWeight_of_not_comma h
  | _ => rfl

/-! ## One statement -/

theorem lowerStmt_of_shape (h : (shape s a).1 = [u]) :
    (lowerStmt env s a).1 = (hoist env u (shape s a).2).1 := by
  show (hoistAll env (shape s a).1 (shape s a).2).1 = _
  rw [h, hoistAll_cons]
  exact append_nil _

theorem lowerStmt_of_keeps (h : KeepsFlow env s) (a : State) : (lowerStmt env s a).1 = [s] := by
  obtain ⟨moved, s', hout, hdrained⟩ := exists_drained env s (shape s a).2
  obtain ⟨rfl, rfl⟩ := hdrained.stays h.2
  rw [lowerStmt_of_shape (shape_of_inShape h.1 a), hout]
  rfl

theorem drained_of_mem {ss : List Stmt} (ht : t ∈ (hoistAll env ss a).1) :
    (∃ n, MovedOut n t) ∨ ∃ s ∈ ss, ∃ moved, Drained env s moved t := by
  obtain ⟨s, hs, b, ht⟩ := mem_hoistAll ht
  obtain ⟨moved, s', hout, h⟩ := exists_drained env s b
  rw [hout] at ht
  rcases mem_append.mp ht with ht | ht
  · exact .inl ⟨_, h.bounded t ht⟩
  · rw [mem_singleton.mp ht]
    exact .inr ⟨s, hs, moved, h⟩

theorem commaWeight_comma (items : List Expr) :
    commaWeight (.expr (.comma items)) = (Expr.comma items).weight := rfl

theorem commaWeight_expr_le (e : Expr) : commaWeight (.expr e) ≤ e.weight := by
  show (if isComma e then e.weight else 0) ≤ e.weight
  split
  · exact Nat.le_refl _
  · exact Nat.zero_le _

theorem commaWeight_lt_of_mem_lowerStmt {items : List Expr}
    (ht : t ∈ (lowerStmt env (.expr (.comma items)) a).1) (hpos : 0 < commaWeight t) :
    commaWeight t < commaWeight (.expr (.comma items)) := by
  rcases drained_of_mem ht with ⟨n, hmoved⟩ | ⟨s, hs, moved, hdrained⟩
  · exact absurd hmoved.commaWeight_eq hpos.ne'
  obtain ⟨x, hx, rfl⟩ := mem_map.mp hs
  have hle := hdrained.comma
  have hlt := weight_lt_of_mem_children (show x ∈ (Expr.comma items).children from hx)
  have hx := commaWeight_expr_le x
  rw [commaWeight_comma]
  omega

theorem eq_last_of_mem {n : Nat} {moved : List Stmt} (hmoved : ∀ t ∈ moved, MovedOut n t)
    (hs : ¬ MovedOut n s) (hmem : s ∈ moved ++ [u]) : u = s := by
  grind

theorem mem_hoist_ifElse {c c' : Expr} {t' : Stmt} {f f' : Option Stmt}
    (h : Stmt.ifElse c t f ∈ (hoist env (.ifElse c' t' f') a).1) : t' = t ∧ f' = f := by
  have heq := eq_last_of_mem (reduced_extract env c' a).bounded (fun hmoved => by cases hmoved) h
  exact (ifElse.inj heq).2

theorem mem_hoist_switch {e e' : Expr} (h : Stmt.switch e cs ∈ (hoist env (.switch e' cs') a).1) :
    cs' = cs := by
  have heq := eq_last_of_mem (reduced_extract env e' a).bounded (fun hmoved => by cases hmoved) h
  exact (switch.inj heq).2

theorem mem_hoist_forLoop (h : s ∈ (hoist env (.forLoop start cond step body) a).1) :
    s = .forLoop start cond step body := by
  obtain ⟨b, hb, -⟩ := hoist_forLoop env start cond step body a
  rw [hb] at h
  exact mem_singleton.mp h

theorem keepsFlow_of_shape (hs : InShape s) (h : s ∈ (lowerStmt env s a).1) : KeepsFlow env s := by
  rw [lowerStmt_of_shape (shape_of_inShape hs a)] at h
  obtain ⟨moved, s', hout, hdrained⟩ := exists_drained env s (shape s a).2
  exact ⟨hs, hdrained.rests_of_mem (hout ▸ h)⟩

theorem inShape_of_mem (h : s ∈ (lowerStmt env s a).1) : InShape s := by
  cases s with
  | expr e =>
    cases e with
    | comma items =>
      exact absurd (commaWeight_lt_of_mem_lowerStmt h (weight_pos _)) (Nat.lt_irrefl _)
    | _ => rfl
  | ifElse cond t f =>
    rw [lowerStmt_of_shape (shape_ifElse cond t f a)] at h
    obtain ⟨ht, hf⟩ := mem_hoist_ifElse h
    refine ⟨isBlock_of_asBlock ht, fun s hs => ?_⟩
    grind [asElse_eq_self_iff]
  | whileLoop cond body =>
    have hbody := (whileLoop.inj (mem_singleton.mp h)).2
    exact isBlock_of_asBlock hbody.symm
  | doWhile body cond => cases mem_singleton.mp h
  | forLoop start cond step body =>
    rw [lowerStmt_of_shape (shape_forLoop start cond step body a), shapeFor] at h
    split at h
    · rename_i hheader
      have hbody := (forLoop.inj (mem_hoist_forLoop h)).2.2.2
      exact ⟨hheader, isBlock_of_asBlock hbody.symm⟩
    · cases mem_singleton.mp h
  | switch selector cases =>
    rw [lowerStmt_of_shape (shape_switch selector cases a)] at h
    obtain ⟨hsep, hdefault⟩ := addDefault_eq (length_separated cases) (mem_hoist_switch h)
    exact ⟨hdefault, separated_eq_self_iff.mp hsep⟩
  | _ => trivial

/-! ## Statements with walked parts -/

section Nodes

variable {K : Env → Stmt → Prop} {env : Env} {s : Stmt} {a b : State}
variable {out : List Stmt} {s' : Stmt}

theorem not_mem_of_child {c : Stmt} (hc : c ∈ s.children) (h : TracedTo K env c a out b) :
    s ∉ Stmt.substmtsAll out := by
  intro hs
  obtain ⟨t, ht, hst⟩ := mem_substmtsAll.mp hs
  have hcs : c ∈ s.substmts :=
    mem_substmts.mpr (.inr (mem_substmtsAll.mpr ⟨c, hc, mem_substmts_self c⟩))
  have hself := h.extra.self (mem_substmtsAll.mpr ⟨t, ht, substmts_trans hst hcs⟩)
  rw [h.again hself] at ht
  rw [mem_singleton.mp ht] at hst
  exact absurd (sizeOf_lt_of_mem_children hc)
    (Nat.not_lt.mpr (sizeOf_le_of_mem_substmts hst))

theorem not_mem_of_children {ss : List Stmt} (h : StmtsTo (TracedTo K) env ss a out b)
    (hss : ∀ c ∈ ss, c ∈ s.children) : s ∉ Stmt.substmtsAll out := by
  induction h with
  | nil => exact not_mem_nil
  | cons hs _ ih =>
    rw [forall_mem_cons] at hss
    grind [substmtsAll_append, not_mem_of_child]

theorem not_mem_of_cases (h : CasesTo (TracedTo K) env cs a cs' b)
    (hcs : ∀ c ∈ cs, ∀ t ∈ c.body, t ∈ s.children) : ∀ c ∈ cs', s ∉ Stmt.substmtsAll c.body := by
  induction h with
  | nil => exact forall_mem_nil _
  | cons hbody _ ih =>
    rw [forall_mem_cons] at hcs ⊢
    exact ⟨not_mem_of_children hbody hcs.1, ih hcs.2⟩

theorem not_mem_of_opt {o : Option Stmt} {out : Option (List Stmt)}
    (h : OptTo (TracedTo K) env o a out b) (ho : ∀ c ∈ o.toList, c ∈ s.children) :
    s ∉ Stmt.substmtsAll (out.getD []) := by
  cases h with
  | none => exact not_mem_nil
  | some hs => exact not_mem_of_child (ho _ (by simp)) hs

theorem substmtsAll_statements (t : Stmt) : Stmt.substmtsAll (statements t) ⊆ t.substmts := by
  unfold statements
  split
  · exact fun x hx => mem_substmts.mpr (.inr hx)
  · exact nil_subset _
  · intro x hx
    rwa [substmtsAll, substmtsAll, append_nil] at hx

theorem substmtsAll_statements_ofList (out : List Stmt) :
    Stmt.substmtsAll (statements (Stmt.ofList out)) ⊆ Stmt.substmtsAll out := by
  unfold ofList
  split
  · grind [mem_substmtsAll, substmtsAll_statements]
  · exact fun _ hx => hx

theorem substmtsAll_caseBody (body : List Stmt) :
    Stmt.substmtsAll (caseBody body) ⊆ Stmt.substmtsAll body := by
  unfold caseBody
  split
  · intro x hx
    exact mem_substmtsAll.mpr ⟨_, mem_cons_self, mem_substmts.mpr (.inr hx)⟩
  · exact fun _ hx => hx

theorem not_mem_asBlock (hs : isBlock s = false) (h : s ∉ Stmt.substmtsAll out) :
    s ∉ (asBlock (Stmt.ofList out)).substmts := by
  intro hmem
  rcases mem_substmts.mp hmem with rfl | hmem
  · cases hs
  · exact h (substmtsAll_statements_ofList out hmem)

theorem not_mem_asElse (hs : isBlock s = false) (h : s ∉ Stmt.substmtsAll out) :
    s ∉ (asElse (Stmt.ofList out)).substmts := by
  unfold asElse
  split
  · rename_i c t f heq
    unfold ofList at heq
    split at heq
    · intro hmem
      exact h (mem_substmtsAll.mpr ⟨_, mem_cons_self, hmem⟩)
    · cases heq
  · exact not_mem_asBlock hs h

theorem traced_hoist (hcomma : commaWeight u = 0)
    (hblock : ∀ body, u = .block body → (∃ body', s = .block body') ∨ ∃ t ∈ body, commaWeight t = 0)
    (hself : s ∉ Stmt.substmtsAll u.children) : Traced s (hoist env u a).1 := by
  obtain ⟨moved, u', hout, h⟩ := exists_drained env u a
  rw [hout]
  refine ⟨fun _ => append_ne_nil_of_right_ne_nil _ (cons_ne_nil _ _), ?_, ?_, ?_⟩
  · intro t ht hpos
    rcases mem_append.mp ht with ht | ht
    · exact absurd (h.bounded t ht).commaWeight_eq hpos.ne'
    · have hle := h.comma
      grind
  · intro body hbody
    rcases append_eq_singleton_iff.mp hbody with ⟨-, hlast⟩ | ⟨-, hnil⟩
    · exact hblock body (h.block body (cons.inj hlast).1)
    · cases hnil
  · intro hs
    rw [substmtsAll_append, mem_append] at hs
    rw [mem_append]
    rcases hs with hs | hs
    · obtain ⟨t, ht, hs⟩ := mem_substmtsAll.mp hs
      rw [(h.bounded t ht).substmts, mem_singleton] at hs
      exact .inl (hs ▸ ht)
    · obtain ⟨t, ht, hs⟩ := mem_substmtsAll.mp hs
      rw [mem_singleton.mp ht] at hs
      rcases mem_substmts.mp hs with rfl | hs
      · exact .inr mem_cons_self
      · rw [h.children] at hs
        exact absurd hs hself

theorem traced_comma (items : List Expr) :
    Traced (.expr (.comma items)) (lowerStmt env (.expr (.comma items)) a).1 := by
  have hflat : ∀ t ∈ (lowerStmt env (.expr (.comma items)) a).1,
      (∀ body, t ≠ .block body) ∧ t.substmts = [t] := by
    intro t ht
    rcases drained_of_mem ht with ⟨n, hmoved⟩ | ⟨s, hs, moved, hdrained⟩
    · refine ⟨?_, hmoved.substmts⟩
      rintro body rfl
      cases hmoved
    · obtain ⟨x, -, rfl⟩ := mem_map.mp hs
      constructor
      · intro body h
        cases hdrained.block body h
      · rw [substmts_eq_cons, hdrained.children]
        rfl
  refine ⟨fun hzero => absurd hzero (weight_pos _).ne',
    fun t ht => commaWeight_lt_of_mem_lowerStmt ht, fun body hbody => ?_, fun hs => ?_⟩
  · exact absurd rfl ((hflat (.block body) (hbody ▸ mem_cons_self)).1 body)
  grind [mem_substmtsAll]

theorem traced_of_shape (hshape : (shape s' b).1 = [u]) (hcomma : commaWeight u = 0)
    (hblock : ∀ body, u = .block body → (∃ body', s = .block body') ∨ ∃ t ∈ body, commaWeight t = 0)
    (hself : s ∉ Stmt.substmtsAll u.children) : Traced s (lowerStmt env s' b).1 := by
  rw [lowerStmt_of_shape hshape]
  exact traced_hoist hcomma hblock hself

theorem not_mem_shapeFor {body : List Stmt}
    (hs : ∃ start cond step body, s = .forLoop start cond step body)
    (hstart : ∀ t ∈ start.toList, s ∉ t.substmts) (hbody : s ∉ Stmt.substmtsAll body) :
    s ∉ Stmt.substmtsAll (shapeFor start cond step (.ofList body)).children := by
  obtain ⟨start', cond', step', body', rfl⟩ := hs
  intro hin
  obtain ⟨t, ht, hmem⟩ := mem_substmtsAll.mp hin
  rw [shapeFor] at ht
  split at ht
  · rcases mem_append.mp ht with ht | ht
    · exact hstart t ht hmem
    · rw [mem_singleton.mp ht] at hmem
      exact not_mem_asBlock rfl hbody hmem
  · rcases mem_append.mp ht with ht | ht
    · cases start with
      | none => cases ht
      | some first =>
        refine hstart first (by simp) (substmtsAll_statements first ?_)
        exact mem_substmtsAll.mpr ⟨t, ht, hmem⟩
    · rw [mem_singleton.mp ht] at hmem
      rcases mem_substmts.mp hmem with heq | hmem
      · cases heq
      · obtain ⟨t, ht, hmem⟩ := mem_substmtsAll.mp hmem
        rw [children, mem_append, mem_append] at ht
        rcases ht with (ht | ht) | ht
        · obtain ⟨c, -, rfl⟩ := mem_map.mp ht
          simp [substmts, substmtsAll, substmtsOpt] at hmem
        · exact hbody (substmtsAll_statements_ofList body (mem_substmtsAll.mpr ⟨t, ht, hmem⟩))
        · cases step with
          | none => cases ht
          | some e =>
            rcases isStep_stepStmts e t ht with ⟨_, rfl⟩ | ⟨_, rfl⟩ <;>
              cases mem_singleton.mp hmem

/-- If the last statement that the first part of a header becomes is the first part itself, it is
all that it becomes. -/
theorem dropLast_eq_nil_of_stays {first : Option (List Stmt)}
    (h : OptTo (TracedTo K) env start a first b) (hlast : (first.getD []).getLast? = start) :
    (first.getD []).dropLast = [] := by
  cases h with
  | none => rfl
  | some hs =>
    rw [Option.getD_some] at hlast ⊢
    rw [hs.again (mem_of_getLast? hlast)]
    rfl

theorem shapeFor_cases (start : Option Stmt) (cond step : Option Expr) (body : Stmt) :
    shapeFor start cond step body = .forLoop start cond step (asBlock body) ∨
      ∃ inner, shapeFor start cond step body = .block inner ∧ ∃ t ∈ inner, commaWeight t = 0 := by
  rw [shapeFor]
  split
  · exact .inl rfl
  · exact .inr ⟨_, rfl, _, mem_append_right _ mem_cons_self, rfl⟩

theorem hoist_shapeFor (env : Env) (start : Option Stmt) (cond step : Option Expr) (body : Stmt)
    (a : State) :
    (hoist env (shapeFor start cond step body) a).1 = [shapeFor start cond step body] := by
  rcases shapeFor_cases start cond step body with heq | ⟨inner, heq, -⟩
  · obtain ⟨b, hb, -⟩ := hoist_forLoop env start cond step (asBlock body) a
    rw [heq, hb]
  · rw [heq]
    rfl

theorem traced_forLoop {first : Option (List Stmt)} {body' : List Stmt} {c d : State}
    {inner : Env} (hst : OptTo (TracedTo K) env.push start a first b)
    (hbody : TracedTo K inner body b body' c) :
    Traced (.forLoop start cond step body) (finish (first.getD []).dropLast
      (lowerStmt env (.forLoop (first.getD []).getLast? cond step (.ofList body')) d).1) := by
  have hfirst : forLoop start cond step body ∉ substmtsAll (first.getD []) :=
    not_mem_of_opt hst fun c hc => mem_append_left _ hc
  have hself : forLoop start cond step body ∉ substmtsAll
      (shapeFor (first.getD []).getLast? cond step (.ofList body')).children := by
    refine not_mem_shapeFor ⟨start, cond, step, body, rfl⟩ (fun t ht hmem => ?_)
      (not_mem_of_child (mem_append_right _ mem_cons_self) hbody)
    grind [mem_substmtsAll]
  have hcases := shapeFor_cases (first.getD []).getLast? cond step (.ofList body')
  have hcomma : commaWeight (shapeFor (first.getD []).getLast? cond step (.ofList body')) = 0 := by
    rcases hcases with heq | ⟨inner, heq, -⟩ <;> rw [heq] <;> rfl
  unfold finish
  split
  · refine traced_of_shape (shape_forLoop ..) hcomma (fun inner hinner => .inr ?_) hself
    grind
  · rename_i hbefore
    rw [lowerStmt_of_shape (shape_forLoop ..), hoist_shapeFor]
    refine ⟨fun _ => cons_ne_nil _ _, fun t ht hpos => ?_, fun inner hinner => .inr ?_,
      fun hin => ?_⟩
    · rw [mem_singleton.mp ht] at hpos
      exact absurd hpos (Nat.lt_irrefl 0)
    · grind
    · -- the loop is deeper inside only if its first part has stayed, and then nothing stands before
      exfalso
      obtain ⟨t, ht, hmem⟩ := mem_substmtsAll.mp hin
      rw [mem_singleton.mp ht] at hmem
      rcases mem_substmts.mp hmem with heq | hmem
      · cases heq
      rw [children, substmtsAll_append, mem_append] at hmem
      rcases hmem with hmem | hmem
      · exact hfirst (substmtsAll_subset (dropLast_subset _) hmem)
      grind [substmtsAll, mem_substmts, dropLast_eq_nil_of_stays]

/-- **What becomes of a statement, once its parts have been walked.** -/
theorem traced_lowerStmt {before : List Stmt} (h : NodeTo Same (TracedTo K) env s a s' before b) :
    Traced s (finish before (lowerStmt env s' b).1) := by
  cases h with
  | block hbody =>
    exact traced_of_shape rfl rfl (fun _ _ => .inl ⟨_, rfl⟩)
      (not_mem_of_children hbody fun _ hc => hc)
  | ifElse ht hf hc =>
    refine traced_of_shape (shape_ifElse ..) rfl (fun _ h => by cases h) fun hin => ?_
    obtain ⟨x, hx, hmem⟩ := mem_substmtsAll.mp hin
    rcases mem_cons.mp hx with rfl | hx
    · exact not_mem_asBlock rfl (not_mem_of_child mem_cons_self ht) hmem
    · cases hf with
      | none => cases hx
      | some hf =>
        rw [mem_singleton.mp hx] at hmem
        exact not_mem_asElse rfl (not_mem_of_child (by simp [children]) hf) hmem
  | @forLoop _ _ _ cond' _ step' _ _ _ _ _ _ _ hst hbody hc hstep =>
    obtain rfl := toList_inj hc.eq_of_same
    obtain rfl := toList_inj hstep.eq_of_same
    exact traced_forLoop hst hbody
  | whileLoop hbody hc =>
    refine traced_of_shape (u := .whileLoop _ (asBlock _)) rfl rfl (fun _ h => by cases h) ?_
    rw [children, substmtsAll, substmtsAll, append_nil]
    exact not_mem_asBlock rfl (not_mem_of_child mem_cons_self hbody)
  | doWhile hbody hc =>
    refine traced_of_shape (u := .loop (statements _) [] _) rfl rfl (fun _ h => by cases h) ?_
    rw [children, append_nil]
    exact fun hmem => not_mem_of_child mem_cons_self hbody
      (substmtsAll_statements_ofList _ hmem)
  | loop hbody hcont hbreak =>
    refine traced_of_shape rfl rfl (fun _ h => by cases h) ?_
    grind [children, substmtsAll_append, not_mem_of_children]
  | @switch selector _ cases _ _ _ _ hcs hsel =>
    have hout := not_mem_of_cases (s := .switch selector cases) hcs
      fun c hc t ht => mem_flatMap.mpr ⟨c, hc, ht⟩
    refine traced_of_shape (shape_switch _ _ _) rfl (fun _ h => by cases h) fun hin => ?_
    obtain ⟨t, ht, hmem⟩ := mem_substmtsAll.mp hin
    rw [children, body_addDefault, ← separateCases_fst _ b] at ht
    grind [mem_separateCases, substmtsAll_caseBody, mem_substmtsAll]
  | @expr e e' _ _ he =>
    obtain rfl : e' = e := he
    cases e' with
    | comma items => exact traced_comma items
    | _ => exact traced_of_shape rfl rfl (fun _ h => by cases h) not_mem_nil
  | decl | ret | breakOut | continueOn | discard | empty =>
    exact traced_of_shape rfl rfl (fun _ h => by cases h) not_mem_nil

theorem ofList_eq_of_asBlock (h : TracedTo K env body a out b)
    (heq : asBlock (.ofList out) = body) : Stmt.ofList out = body := by
  cases body with
  | block inner =>
    obtain ⟨inner', rfl⟩ := h.block inner rfl
    exact heq
  | _ => cases heq

theorem ofList_eq_of_asElse (h : TracedTo K env body a out b) (heq : asElse (.ofList out) = body) :
    Stmt.ofList out = body := by
  cases hout : ofList out with
  | ifElse c t f =>
    rw [hout] at heq
    exact heq
  | _ =>
    rw [hout] at heq
    rw [← hout]
    refine ofList_eq_of_asBlock h ?_
    rw [hout]
    exact heq

/-- **A statement that is among what it becomes has been put together again as it was.** -/
theorem eq_of_mem_lowerStmt (hK : ∀ env s, K env s → commaWeight s = 0) {before : List Stmt}
    (h : NodeTo Same (TracedTo K) env s a s' before b)
    (hmem : s ∈ finish before (lowerStmt env s' b).1) : s' = s ∧ before = [] := by
  cases h with
  | @ifElse _ _ t f t' f' _ _ _ _ ht hf hc =>
    obtain rfl := hc
    rw [finish, isEmpty_nil, if_pos rfl, lowerStmt_of_shape (shape_ifElse ..)] at hmem
    obtain ⟨htrue, hfalse⟩ := mem_hoist_ifElse hmem
    rw [ofList_eq_of_asBlock ht htrue]
    refine ⟨congrArg _ ?_, rfl⟩
    cases hf with
    | none => rfl
    | some hf => exact congrArg some (ofList_eq_of_asElse hf (Option.some.inj hfalse))
  | @whileLoop _ _ _ body' _ _ _ hbody hc =>
    obtain ⟨hcond, hblock⟩ := whileLoop.inj (mem_singleton.mp hmem)
    grind [ofList_eq_of_asBlock]
  | doWhile => cases mem_singleton.mp hmem
  | @forLoop start first _ _ _ _ _ _ _ _ _ _ _ hst hbody hc hstep =>
    obtain rfl := toList_inj hc.eq_of_same
    obtain rfl := toList_inj hstep.eq_of_same
    rw [lowerStmt_of_shape (shape_forLoop ..), hoist_shapeFor] at hmem
    grind [finish, shapeFor_cases, ofList_eq_of_asBlock]
  | @switch _ _ cases cases' _ _ _ hcs hsel =>
    obtain rfl := hsel
    rw [finish, isEmpty_nil, if_pos rfl, lowerStmt_of_shape (shape_switch _ cases' b)] at hmem
    have hlength := (length_separated cases').trans hcs.length_eq
    obtain ⟨hsep, -⟩ := addDefault_eq hlength (mem_hoist_switch hmem)
    exact ⟨congrArg _ (cases_eq_of_separated hK hcs hsep), rfl⟩
  | expr he => exact ⟨congrArg Stmt.expr he, rfl⟩
  | decl hds => exact ⟨congrArg Stmt.decl hds.eq_of_same, rfl⟩
  | ret he =>
    obtain rfl := toList_inj he.eq_of_same
    exact ⟨rfl, rfl⟩
  | block => exact ⟨(mem_singleton.mp hmem).symm, rfl⟩
  | @loop _ _ _ _ _ breakIf' _ _ _ _ hbody hcont hbreak =>
    cases breakIf' with
    | none | some => exact ⟨(mem_singleton.mp hmem).symm, rfl⟩
  | breakOut | continueOn | discard | empty => exact ⟨rfl, rfl⟩

end Nodes

theorem stepwise_lowerStmt :
    Stepwise lowerStmt KeepsFlow (fun _ s _ out _ => Traced s out) where
  leaves := fun _ _ a h => lowerStmt_of_keeps h a
  block := fun _ _ _ => rfl
  extra := traced_lowerStmt
  again := eq_of_mem_lowerStmt fun _ _ h => commaWeight_of_inShape h.1
  still := fun h => keepsFlow_of_shape (inShape_of_mem h) h

/-- **Lowering control flow leaves a program as it is exactly if each of its statements is in shape
and no side effect moves out of it.** -/
theorem lowerControlFlow_eq_self_iff (st : Setting) (p : Program) (b : State) :
    (lowerControlFlow st p b).1 = p ↔ ∀ q ∈ p.places (st.envFor p), KeepsFlow q.1 q.2 :=
  stepwise_lowerStmt.walk_eq_self_iff (st.envFor p) p b

end ShaderEffect.Lowering
