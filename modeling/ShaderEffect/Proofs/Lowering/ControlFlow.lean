import ShaderEffect.Proofs.Lowering.Lowered

/-!
# Control flow keeps what it moves

Lowering control flow moves side effects into statements of their own, opens loops and separates the
branches of a `switch`. Two general statements say what this does, each for any property that is
closed under its steps. `Extraction` is a relation between expressions and what is left of them once
their side effects have moved out (`Extraction.hoist`), and `Inherits` a property of statements that
goes by the statements inside them (`Inherits.shape`).

Here they show what the pass brings along: what moves in front of a statement is a declaration or an
expression, everything stays free of conditional expressions, no `do` loop is left, and the case
labels stay.
-/

namespace ShaderEffect.Lowering

open Walker List Stmt

variable {s t : Stmt} {body : List Stmt} {e : Expr} {env : Env} {a : State}

/-! ## Moving side effects out of an expression -/

/-- `&&` and `||`, whose second operand may not be evaluated. -/
def isShortCircuit : Expr → Bool
  | .binary op _ _ => op == .and || op == .or
  | _ => false

theorem extractAll_cons (env : Env) (e : Expr) (es : List Expr) (s : State) :
    extractAll env (e :: es) s =
      let x := extract env e s
      let xs := extractAll env es x.2
      ((x.1.1 :: xs.1.1, x.1.2 ++ xs.1.2), xs.2) := by
  rw [extractAll]; rfl

theorem length_extractAll (env : Env) : ∀ (es : List Expr) (a : State),
    (extractAll env es a).1.1.length = es.length
  | [], a => by rw [extractAll]; rfl
  | e :: es, a => by
    rw [extractAll_cons, length_cons, length_cons, length_extractAll env es]

theorem extract_shortCircuit (env : Env) {op : BinOp} (h : (op == .and || op == .or) = true)
    (l r : Expr) (s : State) :
    extract env (.binary op l r) s =
      let x := extract env l s
      ((.binary op x.1.1 r, x.1.2), (keepInPlace .shortCircuit r x.2).2) := by
  rw [extract]
  simp only [run_bind, h, if_true]
  rfl

theorem extract_eq (env : Env) (h : isShortCircuit e = false) (s : State) :
    extract env e s =
      let xs := extractAll env e.children s
      let m := moveNode env (e.withChildren xs.1.1) xs.2
      ((m.1.1, xs.1.2 ++ m.1.2), m.2) := by
  cases e with
  | binary op l r =>
    have h' : (op == BinOp.and || op == BinOp.or) = false := h
    rw [extract]
    simp only [run_bind, h', Bool.false_eq_true, if_false, Expr.children, extractAll_cons,
      extractAll, run_pure]
    simp [Expr.withChildren, moveNode, run_pure]
  | _ =>
    rw [extract]
    simp only [run_bind, Expr.children, extractAll_cons, extractAll, Expr.withChildren, moveNode]
    simp [run_pure]

/-- An effect that moves out of its expression: its target can be read again, and for a step that
leaves the old value the type of that value is known. -/
def Movable (env : Env) : Expr → Prop
  | .assign _ lhs _ => lhs.isPureTarget = true
  | .unary op operand => op.isStep = true ∧ operand.isPureTarget = true ∧
      ((op == .preInc || op == .preDec) = true ∨ (env.typeOf operand).isSome = true)
  | _ => False

theorem Movable.isEffect (h : Movable env e) : e.isEffect = true := by
  cases e with
  | assign => rfl
  | unary => exact h.1
  | _ => exact h.elim

/-- What becomes of a node itself: it stays, or it is an effect that moves into a statement of its own
and leaves its target or a new name for the old value behind. -/
inductive MovesTo (env : Env) (e : Expr) (a : State) : Expr → List Stmt → State → Prop
  | stays : e.isEffect = false → MovesTo env e a e [] a
  | reported (n : LoweringNotice) : ¬ Movable env e → MovesTo env e a e [] (note n a).2
  | target {x : Expr} : Movable env e → x ∈ e.children → x.isPureTarget = true →
      MovesTo env e a x [.expr e] a
  | old {x : Expr} {d : VarDecl} {b : State} (name : String) : Movable env e → x ∈ e.children →
      d.init = some x → b.Since a → b.notices = a.notices →
      MovesTo env e a (.ident name) [.decl [d], .expr e] b

theorem moveEffect_to {effect target : Expr} {leavesNew : Bool} (hmem : target ∈ effect.children)
    (h : Movable env effect ↔
      target.isPureTarget = true ∧ (leavesNew = true ∨ (env.typeOf target).isSome = true)) :
    MovesTo env effect a (moveEffect env effect target leavesNew a).1.1
      (moveEffect env effect target leavesNew a).1.2 (moveEffect env effect target leavesNew a).2 := by
  unfold moveEffect
  by_cases htarget : target.isPureTarget = true
  · simp only [htarget, Bool.not_true, Bool.false_eq_true, if_false]
    cases leavesNew with
    | true => exact .target (h.mpr ⟨htarget, .inl rfl⟩) hmem htarget
    | false =>
      cases htype : env.typeOf target with
      | none => exact .reported _ fun hmove => by simpa [htype] using (h.mp hmove).2
      | some type => exact .old _ (h.mpr ⟨htarget, .inr (htype ▸ rfl)⟩) hmem rfl (.temp .old a) rfl
  · simp only [htarget, Bool.not_false, if_true]
    exact .reported _ fun hmove => htarget (h.mp hmove).1

theorem moveNode_to (env : Env) (e : Expr) (a : State) :
    MovesTo env e a (moveNode env e a).1.1 (moveNode env e a).1.2 (moveNode env e a).2 := by
  cases e with
  | assign => exact moveEffect_to mem_cons_self ⟨fun h => ⟨h, .inl rfl⟩, And.left⟩
  | unary op operand =>
    rw [moveNode]
    split
    · rename_i hop
      exact moveEffect_to mem_cons_self (and_iff_right hop)
    · rename_i hop
      exact .stays (Bool.eq_false_iff.mpr hop)
  | _ => exact .stays rfl

/-- A relation between expressions, what is left of them, what has moved out of them, and the states
before and after, that goes through the recursion of `extract`. -/
structure Extraction (env : Env) (R : List Expr → List Expr → List Stmt → State → State → Prop) :
    Prop where
  nil : ∀ a, R [] [] [] a a
  append : ∀ {es es' ls ls' ms ms' a b c}, R es ls ms a b → R es' ls' ms' b c →
    R (es ++ es') (ls ++ ls') (ms ++ ms') a c
  node : ∀ {e x ls ms ms' a b c}, isShortCircuit e = false → ls.length = e.children.length →
    R e.children ls ms a b → MovesTo env (e.withChildren ls) b x ms' c → R [e] [x] (ms ++ ms') a c
  /-- The second operand stays, whatever stands in it. -/
  shortCircuit : ∀ {op l l' r ms a b}, isShortCircuit (.binary op l r) = true → R [l] [l'] ms a b →
    R [.binary op l r] [.binary op l' r] ms a (keepInPlace .shortCircuit r b).2

/-- The expressions of a statement out of which side effects move. -/
def sources : Stmt → List Expr
  | .expr e => if e.isEffect then e.children else [e]
  | .ret value => value.toList
  | .ifElse cond _ _ => [cond]
  | .switch selector _ => [selector]
  | .decl ds => (Stmt.decl ds).operands
  | _ => []

/-- Statements of which nothing moves out: loops, blocks and those without expressions. -/
def isKept : Stmt → Bool
  | .expr _ | .ret (some _) | .ifElse .. | .switch .. | .decl _ => false
  | _ => true

/-- The statement has the same form, with other operands. -/
inductive Recast : Stmt → Stmt → Prop
  | ret (e x : Expr) : Recast (.ret (some e)) (.ret (some x))
  | ifElse (e x : Expr) (t : Stmt) (f : Option Stmt) : Recast (.ifElse e t f) (.ifElse x t f)
  | switch (e x : Expr) (cs : List Case) : Recast (.switch e cs) (.switch x cs)
  | decl {ds ds' : List VarDecl} :
      ((Stmt.decl ds').operands = (Stmt.decl ds).operands → ds' = ds) → Recast (.decl ds) (.decl ds')

/-- What becomes of a statement when side effects move out of it. Loops keep those of their headers. -/
inductive HoistsTo (R : List Expr → List Expr → List Stmt → State → State → Prop) (a : State) :
    Stmt → List Stmt → State → Prop
  | effect {e : Expr} {l : List Expr} {ms : List Stmt} {b : State} : e.isEffect = true →
      l.length = e.children.length → R e.children l ms a b →
      HoistsTo R a (.expr e) (ms ++ [.expr (e.withChildren l)]) b
  | value {e x : Expr} {ms : List Stmt} {b : State} : e.isEffect = false → R [e] [x] ms a b →
      HoistsTo R a (.expr e) (ms ++ [.expr x]) b
  | operands {s s' : Stmt} {ms : List Stmt} {b : State} : Recast s s' →
      R s.operands s'.operands ms a b → HoistsTo R a s (ms ++ [s']) b
  | kept {s : Stmt} {b : State} : isKept s = true → b.Since a → HoistsTo R a s [s] b

theorem yields_keepInPlace (place : FixedPlace) (e : Expr) :
    Yields (keepInPlace place e) fun _ => True := by
  unfold keepInPlace
  split
  · exact .note _
  · exact .pure trivial

theorem hoist_forLoop (env : Env) (start : Option Stmt) (cond step : Option Expr) (body : Stmt)
    (a : State) :
    ∃ b, hoist env (.forLoop start cond step body) a = ([.forLoop start cond step body], b) ∧
      b.Since a := by
  unfold hoist
  cases step with
  | none =>
    cases cond with
    | none => exact ⟨_, rfl, .refl a⟩
    | some c => exact ⟨_, rfl, (yields_keepInPlace _ c a).2⟩
  | some s =>
    by_cases hs : hasNestedStep s = true <;> simp only [hs, if_true] <;>
    · cases cond with
      | none => exact ⟨_, rfl, .of_eq rfl rfl⟩
      | some c =>
        obtain ⟨hdeferred, htemps⟩ := (yields_keepInPlace .forCondition c a).2
        exact ⟨_, rfl, hdeferred, htemps⟩

theorem extractDecls_eq_self : ∀ {ds : List VarDecl} {a : State},
    (Stmt.decl (extractDecls env ds a).1.1).operands = (Stmt.decl ds).operands →
      (extractDecls env ds a).1.1 = ds
  | [], _, _ => rfl
  | ⟨storage, type, name, none⟩ :: ds, a, h => congrArg (_ :: ·) (extractDecls_eq_self (a := a) h)
  | ⟨storage, type, name, some e⟩ :: ds, a, h => by
    obtain ⟨hhead, htail⟩ := cons.inj (show (extract env e a).1.1 :: _ = e :: _ from h)
    exact congr (congrArg (fun x => cons { storage, type, name, init := some x }) hhead)
      (extractDecls_eq_self htail)

namespace Extraction

variable {R : List Expr → List Expr → List Stmt → State → State → Prop}

theorem extractAll (h : Extraction env R) : ∀ {es : List Expr},
    (∀ e ∈ es, ∀ a, R [e] [(extract env e a).1.1] (extract env e a).1.2 a (extract env e a).2) →
    ∀ a, R es (extractAll env es a).1.1 (extractAll env es a).1.2 a (extractAll env es a).2
  | [], _, a => by
    rw [Lowering.extractAll]
    exact h.nil a
  | e :: es, hes, a => by
    rw [extractAll_cons]
    exact h.append (hes e mem_cons_self a)
      (h.extractAll (fun e he => hes e (mem_cons_of_mem _ he)) _)

/-- **What the steps of `extract` establish holds of every expression.** -/
theorem extract (h : Extraction env R) (e : Expr) : ∀ a,
    R [e] [(extract env e a).1.1] (extract env e a).1.2 a (extract env e a).2 := by
  induction e using Expr.byChildren with
  | node e ih =>
    intro a
    by_cases hop : isShortCircuit e = true
    · cases e with
      | binary op l r =>
        rw [extract_shortCircuit env hop]
        exact h.shortCircuit hop (ih l mem_cons_self a)
      | _ => exact absurd hop Bool.false_ne_true
    · rw [Bool.not_eq_true] at hop
      rw [extract_eq env hop]
      exact h.node hop (length_extractAll env _ a) (h.extractAll ih a) (moveNode_to ..)

theorem extractDecls (h : Extraction env R) : ∀ (ds : List VarDecl) (a : State),
    R (Stmt.decl ds).operands (Stmt.decl (extractDecls env ds a).1.1).operands
      (extractDecls env ds a).1.2 a (extractDecls env ds a).2
  | [], a => h.nil a
  | ⟨_, _, _, none⟩ :: ds, a => h.extractDecls ds a
  | ⟨_, _, _, some e⟩ :: ds, a => h.append (h.extract e a) (h.extractDecls ds _)

/-- **What they establish of the sources of a statement.** -/
theorem hoist (h : Extraction env R) (s : Stmt) (a : State) :
    HoistsTo R a s (hoist env s a).1 (hoist env s a).2 := by
  cases s with
  | expr e =>
    unfold Lowering.hoist
    by_cases he : e.isEffect = true
    · simp only [he, if_true]
      cases e with
      | assign op l r =>
        exact .effect (l := [_, _]) he rfl (h.append (h.extract l a) (h.extract r _))
      | unary op x => exact .effect (l := [_]) he rfl (h.extract x a)
      | _ => cases he
    · simp only [he]
      exact .value (Bool.eq_false_iff.mpr he) (h.extract e a)
  | ret value =>
    cases value with
    | none => exact .kept rfl (.refl a)
    | some e => exact .operands (.ret e _) (h.extract e a)
  | ifElse cond t f => exact .operands (.ifElse cond _ t f) (h.extract cond a)
  | switch selector cs => exact .operands (.switch selector _ cs) (h.extract selector a)
  | decl ds => exact .operands (.decl extractDecls_eq_self) (h.extractDecls ds a)
  | whileLoop cond => exact .kept rfl (yields_keepInPlace _ cond a).2
  | loop body continuing breakIf =>
    cases breakIf with
    | none => exact .kept rfl (.refl a)
    | some cond => exact .kept rfl (yields_keepInPlace _ cond a).2
  | forLoop start cond step body =>
    obtain ⟨b, hb, hdeferred⟩ := hoist_forLoop env start cond step body a
    rw [hb]
    exact .kept rfl hdeferred
  | block | doWhile | breakOut | continueOn | discard | empty => exact .kept rfl (.refl a)

end Extraction

theorem hoistAll_cons (env : Env) (s : Stmt) (ss : List Stmt) (a : State) :
    hoistAll env (s :: ss) a =
      ((hoist env s a).1 ++ (hoistAll env ss (hoist env s a).2).1,
        (hoistAll env ss (hoist env s a).2).2) := rfl

theorem mem_hoistAll : ∀ {ss : List Stmt} {a : State}, t ∈ (hoistAll env ss a).1 →
    ∃ s ∈ ss, ∃ b, t ∈ (hoist env s b).1
  | s :: ss, a, ht => by
    rw [hoistAll_cons] at ht
    rcases mem_append.mp ht with ht | ht
    · exact ⟨s, mem_cons_self, a, ht⟩
    · obtain ⟨s, hs, ht⟩ := mem_hoistAll ht
      exact ⟨s, mem_cons_of_mem _ hs, ht⟩

/-! ## What moves out of a lowered statement -/

/-- What moves out of expressions is a step and stays free of conditional expressions, and so does what
is left. Nothing is deferred, and no temporary is forgotten. -/
structure Extracted (before left : List Expr) (moved : List Stmt) (s s' : State) : Prop where
  isStep : ∀ t ∈ moved, IsStep t
  lowered : (∀ e ∈ before, Plain e) → (∀ e ∈ left, Plain e) ∧ ∀ t ∈ moved, Lowered t
  since : s'.Since s

theorem MovesTo.extracted {x : Expr} {ms : List Stmt} {b : State} (h : MovesTo env e a x ms b) :
    Extracted [e] [x] ms a b := by
  cases h with
  | stays | reported =>
    exact ⟨forall_mem_nil _, fun he => ⟨he, forall_mem_nil _⟩, .of_eq rfl rfl⟩
  | target _ hx =>
    refine ⟨forall_mem_singleton.mpr (.inr ⟨_, rfl⟩), fun he => ?_, .refl a⟩
    rw [forall_mem_singleton] at he
    grind [Expr.avoids_iff, lowered_expr]
  | old _ _ hx hd hsince =>
    refine ⟨forall_mem_cons.mpr ⟨.inl ⟨_, rfl⟩, forall_mem_singleton.mpr (.inr ⟨_, rfl⟩)⟩,
      fun he => ⟨forall_mem_singleton.mpr (plain_ident _), forall_mem_cons.mpr
        ⟨lowered_decl.mpr ?_, ?_⟩⟩, hsince⟩ <;> rw [forall_mem_singleton] at he
    · simpa [hd] using (Expr.avoids_iff.mp he).2 _ hx
    · exact forall_mem_singleton.mpr (lowered_expr.mpr he)

namespace Extracted

variable {ls : List Expr} {ms : List Stmt} {b : State}

theorem operands (h : Extracted e.children ls ms a b) (hlen : ls.length = e.children.length) :
    Extracted [e] [e.withChildren ls] ms a b := by
  refine ⟨h.isStep, fun he => ?_, h.since⟩
  obtain ⟨hhead, hch⟩ := Expr.avoids_iff.mp (forall_mem_singleton.mp he)
  obtain ⟨hls, hms⟩ := h.lowered hch
  grind [plain_of_children, isConditional_withChildren, Expr.children_withChildren]

theorem extraction (env : Env) : Extraction env Extracted where
  nil := fun a => ⟨forall_mem_nil _, fun h => ⟨h, forall_mem_nil _⟩, .refl a⟩
  append := fun h h' => by
    refine ⟨forall_mem_append.mpr ⟨h.isStep, h'.isStep⟩, fun hp => ?_, h'.since.trans h.since⟩
    rw [forall_mem_append] at hp
    obtain ⟨h1, h2⟩ := h.lowered hp.1
    obtain ⟨h3, h4⟩ := h'.lowered hp.2
    grind
  node := fun _ hlen h hm => by
    have hnode := h.operands hlen
    refine ⟨forall_mem_append.mpr ⟨h.isStep, hm.extracted.isStep⟩, fun he => ?_,
      hm.extracted.since.trans h.since⟩
    obtain ⟨hplain, hms⟩ := hnode.lowered he
    obtain ⟨h1, h2⟩ := hm.extracted.lowered hplain
    exact ⟨h1, forall_mem_append.mpr ⟨hms, h2⟩⟩
  shortCircuit := fun {_ _ _ r _ _ _} _ h => by
    refine ⟨h.isStep, fun he => ?_, (yields_keepInPlace _ r _).2.trans h.since⟩
    obtain ⟨hl, hr⟩ := plain_binary.mp (forall_mem_singleton.mp he)
    obtain ⟨h1, h2⟩ := h.lowered (forall_mem_singleton.mpr hl)
    grind [plain_binary]

end Extracted

/-- What is known about the statements that a statement becomes: the same labels, no conditional
expression and no `do` loop where it had none, and nothing deferred. -/
structure Hoisted (s : Stmt) (out : List Stmt) (a b : State) : Prop where
  hasLabel : ∀ kind, out.any (Stmt.hasLabel kind) = s.hasLabel kind
  lowered : Lowered s → ∀ t ∈ out, Lowered t
  since : b.Since a

namespace Hoisted

theorem stays (s : Stmt) {a b : State} (h : b.Since a) : Hoisted s [s] a b :=
  ⟨fun _ => by simp, fun hs => forall_mem_singleton.mpr hs, h⟩

theorem of_extracted {s' : Stmt} {moved : List Stmt} {a b : State}
    (h : Extracted s.operands s'.operands moved a b) (hchildren : s'.children = s.children)
    (hlabels : s'.labelValues = s.labelValues) (hkind : isDoWhile s' = isDoWhile s) :
    Hoisted s (moved ++ [s']) a b where
  hasLabel := fun kind => by
    rw [any_append, any_hasLabel_steps h.isStep, Bool.false_or, any_cons, any_nil,
      Bool.or_false, hasLabel_eq, hasLabel_eq kind s, hchildren, hlabels]
  lowered := fun hs => by
    obtain ⟨hhead, hop, hch⟩ := avoids_iff.mp hs
    obtain ⟨h1, h2⟩ := h.lowered hop
    grind [lowered_of_parts]
  since := h.since

end Hoisted

theorem HoistsTo.hoisted {out : List Stmt} {b : State} (h : HoistsTo Extracted a s out b) :
    Hoisted s out a b := by
  cases h with
  | effect _ hlen h => exact .of_extracted (h.operands hlen) rfl rfl rfl
  | value _ h => exact .of_extracted h rfl rfl rfl
  | operands hs h => cases hs <;> exact .of_extracted h rfl rfl rfl
  | kept _ hsince => exact .stays _ hsince

theorem hoisted_hoist (env : Env) (s : Stmt) (a : State) :
    Hoisted s (hoist env s a).1 a (hoist env s a).2 :=
  ((Extracted.extraction env).hoist s a).hoisted

theorem hoisted_hoistAll (env : Env) : ∀ (ss : List Stmt) (a : State),
    (∀ kind, (hoistAll env ss a).1.any (Stmt.hasLabel kind) = ss.any (Stmt.hasLabel kind)) ∧
      ((∀ s ∈ ss, Lowered s) → ∀ t ∈ (hoistAll env ss a).1, Lowered t) ∧
      (hoistAll env ss a).2.Since a
  | [], a => ⟨fun _ => rfl, fun _ => forall_mem_nil _, .refl a⟩
  | s :: ss, a => by
    have hs := hoisted_hoist env s a
    obtain ⟨hlabel, hlowered, hsince⟩ := hoisted_hoistAll env ss (hoist env s a).2
    rw [hoistAll_cons]
    refine ⟨fun kind => ?_, fun h => ?_, hsince.trans hs.since⟩
    · rw [any_append, hs.hasLabel, hlabel, any_cons]
    · rw [forall_mem_cons] at h
      exact forall_mem_append.mpr ⟨hs.lowered h.1, hlowered h.2⟩

/-! ## Branches of a `switch` -/

theorem mem_runThrough : ∀ {bodies : List (List Stmt)},
    t ∈ (runThrough bodies).1 → ∃ body ∈ bodies, t ∈ body
  | [], h => absurd h not_mem_nil
  | body :: bodies, h => by
    unfold runThrough at h
    split at h
    · exact ⟨body, mem_cons_self, h⟩
    · rcases mem_append.mp h with h | h
      · exact ⟨body, mem_cons_self, h⟩
      · obtain ⟨b, hb, ht⟩ := mem_runThrough h
        exact ⟨b, mem_cons_of_mem _ hb, ht⟩

theorem mem_runThrough_of_mem_head (bodies : List (List Stmt)) (h : t ∈ body) :
    t ∈ (runThrough (body :: bodies)).1 := by
  unfold runThrough
  split
  · exact h
  · exact mem_append_left _ h

theorem dropBreak_subset (body : List Stmt) : dropBreak body ⊆ body := by
  grind [dropBreak]

theorem mem_dropBreak (h : t ∈ body) : t ∈ dropBreak body ∨ t = .breakOut := by
  unfold dropBreak
  split
  · rename_i hlast
    rcases eq_nil_or_concat body with rfl | ⟨init, last, rfl⟩
    · exact absurd h not_mem_nil
    grind
  · exact .inl h

theorem separateCases_cons (c : Case) (cs : List Case) (a : State) :
    ∃ b, separateCases (c :: cs) a =
        (.mk c.labels (dropBreak (runThrough ((c :: cs).map fun c => caseBody c.body)).1) ::
          (separateCases cs b).1, (separateCases cs b).2) ∧ b.Since a := by
  rw [separateCases]
  dsimp only
  split
  · exact ⟨_, rfl, .of_eq rfl rfl⟩
  · exact ⟨_, rfl, .refl a⟩

theorem yields_separateCases : ∀ cs : List Case, Yields (separateCases cs) fun _ => True
  | [] => .pure trivial
  | c :: cs => fun a => by
    obtain ⟨b, hcases, hb⟩ := separateCases_cons c cs a
    rw [hcases]
    exact ⟨trivial, (yields_separateCases cs b).2.trans hb⟩

theorem labels_separateCases : ∀ (cs : List Case) (a : State),
    (separateCases cs a).1.map Case.labels = cs.map Case.labels
  | [], _ => rfl
  | c :: cs, a => by
    obtain ⟨b, hcases, -⟩ := separateCases_cons c cs a
    rw [hcases, map_cons, map_cons, labels_separateCases cs b]
    rfl

theorem mem_separateCases : ∀ {cs : List Case} {a : State},
    t ∈ (separateCases cs a).1.flatMap Case.body → ∃ c ∈ cs, t ∈ caseBody c.body
  | [], _, h => absurd h not_mem_nil
  | c :: cs, a, h => by
    obtain ⟨b, hcases, -⟩ := separateCases_cons c cs a
    rw [hcases, flatMap_cons, mem_append] at h
    rcases h with h | h
    · obtain ⟨body, hbody, ht⟩ := mem_runThrough (dropBreak_subset _ h)
      grind
    · obtain ⟨c', hc', ht⟩ := mem_separateCases h
      exact ⟨c', mem_cons_of_mem _ hc', ht⟩

theorem mem_separateCases_of_mem (hbreak : t ≠ .breakOut) : ∀ {cs : List Case} {c : Case}
    (a : State), c ∈ cs → t ∈ caseBody c.body → t ∈ (separateCases cs a).1.flatMap Case.body
  | c :: cs, c', a, hc, ht => by
    obtain ⟨b, hcases, -⟩ := separateCases_cons c cs a
    rw [hcases, flatMap_cons, mem_append]
    rcases mem_cons.mp hc with rfl | hc
    · exact .inl ((mem_dropBreak (mem_runThrough_of_mem_head _ ht)).resolve_right hbreak)
    · exact .inr (mem_separateCases_of_mem hbreak b hc ht)

theorem body_addDefault (cs : List Case) :
    (addDefault cs).flatMap Case.body = cs.flatMap Case.body := by
  unfold addDefault
  split
  · rfl
  · rw [flatMap_append]
    exact append_nil _

theorem labelValues_addDefault (selector : Expr) (cs : List Case) :
    (Stmt.switch selector (addDefault cs)).labelValues = (Stmt.switch selector cs).labelValues := by
  unfold addDefault
  split
  · rfl
  · simp [labelValues, Case.labels, CaseLabel.value?]

/-! ## Shapes -/

theorem isStep_stepStmts (e : Expr) : ∀ t ∈ stepStmts e, IsStep t := by
  unfold stepStmts
  split
  · intro t ht
    obtain ⟨x, -, rfl⟩ := mem_map.mp ht
    exact .inr ⟨x, rfl⟩
  · exact forall_mem_singleton.mpr (.inr ⟨e, rfl⟩)

theorem shape_expr (e : Expr) (a : State) : shape (.expr e) a = (stepStmts e, a) := by
  cases e <;> rfl

theorem yields_shape (s : Stmt) : Yields (shape s) fun _ => True := by
  unfold shape
  split
  case h_6 => exact .bind (yields_separateCases _) fun _ _ => .pure trivial
  all_goals exact .pure trivial

/-- A property of statements that goes by the statements inside, as far as a shape brings in
statements of its own. What it asks of a statement itself depends on its expressions. -/
structure Inherits (own holds : Stmt → Prop) : Prop where
  block : OfBlocks holds
  loop : ∀ body continuing, holds (.loop body continuing none) ↔ ∀ t ∈ body ++ continuing, holds t
  empty : holds .empty
  breakOut : holds .breakOut
  own : ∀ {s t}, s.operands = t.operands → s.labelValues = t.labelValues → (own s ↔ own t)

/-- What is asked of a statement itself in its new shape. -/
def FitsShape (own holds : Stmt → Prop) : Stmt → Prop
  | .expr e => ∀ t ∈ stepStmts e, own t
  | .doWhile _ cond => own (.loop [] [] (some (negate cond)))
  | .forLoop start cond step body =>
    if start.all isStart && step.all isUpdate then own (.forLoop start cond step body)
    else own (.block []) ∧ (∀ c ∈ cond, holds (.ifElse (negate c) (.block [.breakOut]) none)) ∧
      ∀ e ∈ step, ∀ t ∈ stepStmts e, holds t
  | s => own s

namespace Inherits

variable {own holds : Stmt → Prop}

variable (h : Inherits own holds)
include h

theorem statements (s : Stmt) : (∀ t ∈ statements s, holds t) ↔ holds s := by
  unfold Lowering.statements
  split
  · exact (h.block _).symm
  · exact iff_of_true (forall_mem_nil _) h.empty
  · exact forall_mem_singleton

theorem asBlock (s : Stmt) : holds (asBlock s) ↔ holds s :=
  (h.block _).trans (h.statements s)

theorem elseShape (s : Stmt) :
    holds (match s with | .ifElse .. => s | s => Lowering.asBlock s) ↔ holds s := by
  split
  · exact Iff.rfl
  · exact h.asBlock _

theorem caseBody (body : List Stmt) : (∀ t ∈ caseBody body, holds t) ↔ ∀ t ∈ body, holds t := by
  unfold Lowering.caseBody
  split
  · exact (forall_mem_singleton.trans (h.block _)).symm
  · exact Iff.rfl

/-- Branches that run into each other are written out several times, but none is lost. -/
theorem separateCases (cs : List Case) (a : State) :
    (∀ t ∈ (separateCases cs a).1.flatMap Case.body, holds t) ↔
      ∀ t ∈ cs.flatMap Case.body, holds t := by
  rw [forall_mem_flatMap (l := cs)]
  constructor
  · intro hall c hc
    rw [← h.caseBody]
    grind [breakOut, mem_separateCases_of_mem]
  · intro hall t ht
    obtain ⟨c, hc, ht⟩ := mem_separateCases ht
    exact (h.caseBody c.body).mpr (hall c hc) t ht

theorem openLoop (start : Option Stmt) (cond step : Option Expr) (body : Stmt) :
    (∀ t ∈ (openLoop start cond step body).children, holds t) ↔
      ((∀ c ∈ cond, holds (.ifElse (negate c) (.block [.breakOut]) none)) ∧
        ∀ e ∈ step, ∀ t ∈ stepStmts e, holds t) ∧
      ∀ c ∈ (Stmt.forLoop start cond step body).children, holds c := by
  have hstart : (∀ t ∈ start.elim [] Lowering.statements, holds t) ↔ ∀ s ∈ start.toList, holds s := by
    cases start with
    | none => exact Iff.rfl
    | some s => exact (h.statements s).trans forall_mem_singleton.symm
  have hstep : (∀ t ∈ step.elim [] stepStmts, holds t) ↔ ∀ e ∈ step, ∀ t ∈ stepStmts e, holds t := by
    cases step <;> simp
  rw [Lowering.openLoop, children, forall_mem_append, forall_mem_singleton, hstart, h.loop,
    forall_mem_append, forall_mem_append, forall_mem_map, h.statements, hstep, children,
    forall_mem_append, forall_mem_singleton]
  grind [Option.mem_def]

/-- **The shape of a statement has the property exactly if the statements inside have it**, and the
statement itself fits. -/
theorem shape (s : Stmt) (a : State) :
    (∀ t ∈ (shape s a).1, own t ∧ ∀ c ∈ t.children, holds c) ↔
      FitsShape own holds s ∧ ∀ c ∈ s.children, holds c := by
  have hsingle : ∀ {t : Stmt}, t.operands = s.operands → t.labelValues = s.labelValues →
      (FitsShape own holds s ↔ own s) → ((∀ c ∈ t.children, holds c) ↔ ∀ c ∈ s.children, holds c) →
      ((∀ u ∈ [t], own u ∧ ∀ c ∈ u.children, holds c) ↔
        FitsShape own holds s ∧ ∀ c ∈ s.children, holds c) := by
    intro t hop hlabels hfits hchildren
    rw [forall_mem_singleton, h.own hop hlabels, hfits, hchildren]
  cases s with
  | expr e =>
    rw [shape_expr]
    refine ⟨fun hall => ⟨fun t ht => (hall t ht).1, forall_mem_nil _⟩, fun hall t ht =>
      ⟨hall.1 t ht, ?_⟩⟩
    rcases isStep_stepStmts e t ht with ⟨ds, rfl⟩ | ⟨x, rfl⟩ <;> exact forall_mem_nil _
  | ifElse cond t f =>
    refine hsingle rfl rfl Iff.rfl ?_
    cases f with
    | none =>
      exact forall_mem_singleton.trans ((h.asBlock t).trans forall_mem_singleton.symm)
    | some f =>
      have helse := forall_mem_singleton.trans ((h.elseShape f).trans forall_mem_singleton.symm)
      exact forall_mem_cons.trans ((and_congr (h.asBlock t) helse).trans forall_mem_cons.symm)
  | whileLoop cond body =>
    refine hsingle rfl rfl Iff.rfl ?_
    rw [children, forall_mem_singleton, h.asBlock, children, forall_mem_singleton]
  | doWhile body cond =>
    refine forall_mem_singleton.trans (and_congr (h.own rfl rfl) ?_)
    rw [children, children, append_nil, h.statements, forall_mem_singleton]
  | forLoop start cond step body =>
    refine forall_mem_singleton.trans ?_
    rw [shapeFor, FitsShape]
    split
    · rw [children, forall_mem_append, forall_mem_singleton, h.asBlock, children, forall_mem_append,
        forall_mem_singleton]
      exact and_congr_left' (h.own rfl rfl)
    · rw [h.openLoop, and_assoc (a := own _)]
      exact and_congr_left' (h.own rfl rfl)
  | switch selector cases =>
    refine hsingle rfl ?_ Iff.rfl ?_
    · rw [labelValues_addDefault, labelValues_congr selector _ (labels_separateCases cases a)]
    · show (∀ t ∈ (addDefault _).flatMap Case.body, _) ↔ ∀ t ∈ cases.flatMap Case.body, _
      rw [body_addDefault, h.separateCases]
  | block | loop | decl | ret | breakOut | continueOn | discard | empty =>
    exact hsingle rfl rfl Iff.rfl Iff.rfl

end Inherits

/-- A statement of which all side effects can be moved out or are reported: no `do` loop, and in the
header of a `for` loop an update. -/
def isShaped : Stmt → Bool
  | .doWhile .. => false
  | .forLoop _ _ step _ => step.all isUpdate
  | _ => true

theorem isShaped_shape (s : Stmt) (a : State) : ∀ t ∈ (shape s a).1, isShaped t = true := by
  cases s with
  | expr e =>
    rw [shape_expr]
    intro t ht
    rcases isStep_stepStmts e t ht with ⟨ds, rfl⟩ | ⟨x, rfl⟩ <;> rfl
  | forLoop start cond step body =>
    refine forall_mem_singleton.mpr ?_
    unfold shapeFor
    split
    · rename_i h
      exact (Bool.and_eq_true_iff.mp h).2
    · rfl
  | block | ifElse | whileLoop | doWhile | loop | switch | decl | ret | breakOut | continueOn | discard
  | empty => exact forall_mem_singleton.mpr rfl

theorem holds_shape {P : Expr → Prop} {holds : Stmt → Prop}
    (hiff : ∀ s, isDoWhile s = false →
      (holds s ↔ (∀ e ∈ s.operands, P e) ∧ ∀ c ∈ s.children, holds c))
    (hnegate : ∀ e, P e → P (negate e)) (hcomma : ∀ es, P (.comma es) → ∀ e ∈ es, P e) (a : State)
    (hop : ∀ e ∈ s.operands, P e) (hch : ∀ c ∈ s.children, holds c) :
    ∀ t ∈ (shape s a).1, holds t := by
  have hempty : ∀ s, isDoWhile s = false → s.operands = [] →
      (holds s ↔ ∀ c ∈ s.children, holds c) := fun s hs hnil => by
    rw [hiff s hs, hnil]
    exact and_iff_right (forall_mem_nil _)
  have hinherits : Inherits (fun s => ∀ e ∈ s.operands, P e) holds :=
    ⟨fun ss => hempty (.block ss) rfl rfl, fun body continuing => hempty (.loop ..) rfl rfl,
      (hempty .empty rfl rfl).mpr (forall_mem_nil _), (hempty .breakOut rfl rfl).mpr (forall_mem_nil _),
      fun hop _ => by rw [hop]⟩
  have hsteps : ∀ e, P e → ∀ t ∈ stepStmts e, ∀ x ∈ t.operands, P x := fun e he => by
    unfold stepStmts
    split
    · exact forall_mem_map.mpr fun x hx => forall_mem_singleton.mpr (hcomma _ he x hx)
    · exact forall_mem_singleton.mpr (forall_mem_singleton.mpr he)
  have hfits : FitsShape (fun s => ∀ e ∈ s.operands, P e) holds s := by
    cases s with
    | expr e => exact hsteps e (hop e mem_cons_self)
    | doWhile body cond => exact forall_mem_singleton.mpr (hnegate cond (hop cond mem_cons_self))
    | forLoop start cond step body =>
      obtain ⟨hcond, hstep⟩ := forall_mem_append.mp hop
      rw [FitsShape]
      split
      · exact hop
      · refine ⟨forall_mem_nil _, fun c hc => (hiff _ rfl).mpr ⟨?_, ?_⟩, fun e he t ht => ?_⟩
        · exact forall_mem_singleton.mpr (hnegate c (hcond c (Option.mem_toList.mpr hc)))
        · refine forall_mem_singleton.mpr ((hempty _ rfl rfl).mpr ?_)
          exact forall_mem_singleton.mpr hinherits.breakOut
        · have hplain := hsteps e (hstep e (Option.mem_toList.mpr he)) t ht
          rcases isStep_stepStmts e t ht with ⟨ds, rfl⟩ | ⟨x, rfl⟩ <;>
            exact (hiff _ rfl).mpr ⟨hplain, forall_mem_nil _⟩
    | _ => exact hop
  intro t ht
  refine (hiff t ?_).mpr ((hinherits.shape s a).mpr ⟨hfits, hch⟩ t ht)
  have hshaped := isShaped_shape s a t ht
  cases t with
  | doWhile => cases hshaped
  | _ => rfl

theorem plain_negate (h : Plain e) : Plain (negate e) := by
  unfold negate
  grind [plain_unary, plain_binary]

theorem lowered_shape (a : State) (hop : ∀ e ∈ s.operands, Plain e)
    (hch : ∀ c ∈ s.children, Lowered c) : ∀ t ∈ (shape s a).1, Lowered t :=
  holds_shape (fun _ hs => avoids_iff.trans (and_iff_right hs)) (fun _ => plain_negate)
    (fun _ => plain_comma.mp) a hop hch

theorem hasLabel_shape (kind : Expr → Bool) (s : Stmt) (a : State) :
    (shape s a).1.any (Stmt.hasLabel kind) = s.hasLabel kind := by
  have hiff : ∀ t : Stmt, t.hasLabel kind = false ↔
      t.labelValues.any (fun e => e.subexprs.any kind) = false ∧
        ∀ c ∈ t.children, c.hasLabel kind = false := fun t => by
    grind [hasLabel_eq]
  have hinherits : Inherits (fun t => t.labelValues.any (fun e => e.subexprs.any kind) = false)
      fun t => t.hasLabel kind = false :=
    ⟨KeepsLabels.ofBlocks_hasLabel, fun _ _ => (hiff _).trans (and_iff_right rfl), rfl, rfl,
      fun _ hlabels => by rw [hlabels]⟩
  have hsteps : ∀ e, ∀ t ∈ stepStmts e, t.hasLabel kind = false := fun e t ht =>
    (isStep_stepStmts e t ht).hasLabel kind
  have hfits : FitsShape (fun t => t.labelValues.any (fun e => e.subexprs.any kind) = false)
      (fun t => t.hasLabel kind = false) s ↔ s.labelValues.any (fun e => e.subexprs.any kind) = false := by
    cases s with
    | expr e => exact iff_of_true (fun t ht => ((hiff t).mp (hsteps e t ht)).1) rfl
    | forLoop start cond step body =>
      refine iff_of_true ?_ rfl
      rw [FitsShape]
      split
      · rfl
      · exact ⟨rfl, fun _ _ => rfl, fun e _ => hsteps e⟩
    | _ => exact Iff.rfl
  rw [← Bool.or_false (s.hasLabel kind)]
  refine any_eq_of_forall_iff (?_ : _ ↔ ∀ t ∈ [s], t.hasLabel kind = false)
  rw [forall_mem_singleton, hiff s, ← hfits, ← hinherits.shape s a]
  exact forall₂_congr fun t _ => hiff t

/-! ## The pass -/

theorem clears_lowerStmt :
    ({ stmt := lowerStmt } : Walker State).Clears (fun _ => True) isConditional isConditional
      (fun _ => false) isDoWhile where
  expr := fun _ _ _ _ he hch => ⟨plain_of_children he hch, trivial⟩
  stmt := fun env s a _ _ hop hch => by
    obtain ⟨-, hlowered, -⟩ := hoisted_hoistAll env (shape s a).1 (shape s a).2
    exact ⟨hlowered (lowered_shape a hop hch), trivial⟩
  global := fun _ _ _ _ hd => ⟨hd, trivial⟩
  enter := fun _ _ _ _ hf => ⟨hf, trivial⟩
  leave := fun _ _ _ _ => ⟨rfl, trivial⟩
  exprKind := isConditional_withChildren
  stmtKind := fun _ _ _ _ _ _ _ _ _ => rfl
  block := fun _ => rfl

theorem keepsLabels_lowerStmt (kind : Expr → Bool) :
    ({ stmt := lowerStmt } : Walker State).KeepsLabels DeferredLowered kind where
  expr := fun _ _ _ ha => ha
  stmt := fun env s a ha => by
    obtain ⟨hlabel, -, hsince⟩ := hoisted_hoistAll env (shape s a).1 (shape s a).2
    exact ⟨(hlabel kind).trans (hasLabel_shape kind s a),
      ha.since (hsince.trans (yields_shape s a).2)⟩
  global := fun _ _ _ ha => ha
  enter := fun _ _ _ ha => ⟨rfl, ha⟩
  leave := fun _ _ _ ha => ⟨rfl, ha⟩

end ShaderEffect.Lowering
