import ShaderEffect.Proofs.Lowering.Conversion
import ShaderEffect.Proofs.Lowering.Lowered
import ShaderEffect.Proofs.Lowering.Operation
import ShaderEffect.Proofs.Rewrite

/-!
# What the passes write

What a pass writes in the place of an expression is composed of expressions that were there, of
variables, and of calls of a few functions (`Composed`). So a property of expressions that such nodes
keep is kept by all these passes.
-/

namespace ShaderEffect.Lowering

open List Expr

/-- The functions that the passes bring calls of into a program, with the number of arguments. -/
inductive Introduced : String → Nat → Prop where
  | select : Introduced "select" 3
  | all : Introduced "all" 1
  | any : Introduced "any" 1
  | floor : Introduced "floor" 1
  | atan2 : Introduced "atan2" 2
  | inverseSqrt (k : Nat) : Introduced "inverseSqrt" k
  | dpdx (k : Nat) : Introduced "dpdx" k
  | dpdy (k : Nat) : Introduced "dpdy" k
  | round (k : Nat) : Introduced "round" k
  | faceForward (k : Nat) : Introduced "faceForward" k
  | bitcast (type : ShaderType) : Introduced ("bitcast<" ++ type.wgsl ++ ">") 1
  | scalarMod : Introduced "isf_mod_f32" 2
  | vectorMod (n : Nat) : Introduced ("isf_mod_vec" ++ toString n) 2
  | textureSampleLevel : Introduced "textureSampleLevel" 4
  | textureLoad : Introduced "textureLoad" 3
  | textureDimensions : Introduced "textureDimensions" 1
  | flipY : Introduced Wgsl.flipY 1
  | flipTexel : Introduced Wgsl.flipTexel 2

/-- The expression is composed of the expressions `es`, of variables in `V`, of calls with `new n k`
for the function `n` and `k` arguments, and of nodes that are no conditional expressions. -/
inductive Composed (new : String → Nat → Prop) (V : String → Prop) (es : List Expr) : Expr → Prop where
  | given {e : Expr} : e ∈ es → Composed new V es e
  | name {name : String} : V name → Composed new V es (.ident name)
  | node {e : Expr} : e.isCall = false → isConditional e = false → (∀ name, e ≠ .ident name) →
      (∀ c ∈ e.children, Composed new V es c) → Composed new V es e
  | call {n : String} {args : List Expr} : new n args.length →
      (∀ a ∈ args, Composed new V es a) → Composed new V es (.call n args)

/-- The expression is composed of others, of any variables and of calls that passes bring in. -/
abbrev Written (es : List Expr) (e : Expr) : Prop :=
  Composed Introduced (fun _ => True) es e

namespace Composed

variable {new : String → Nat → Prop} {V : String → Prop} {es xs : List Expr} {e x y : Expr}

theorem self (e : Expr) : Composed new V [e] e :=
  .given mem_cons_self

theorem int (text : String) : Composed new V es (.int text) :=
  .node rfl rfl nofun (forall_mem_nil _)

theorem float (text : String) : Composed new V es (.float text) :=
  .node rfl rfl nofun (forall_mem_nil _)

theorem unary {op : UnaryOp} (h : Composed new V es x) : Composed new V es (.unary op x) :=
  .node rfl rfl nofun (forall_mem_singleton.mpr h)

theorem binary {op : BinOp} (hx : Composed new V es x) (hy : Composed new V es y) :
    Composed new V es (.binary op x y) :=
  .node rfl rfl nofun (forall_mem_cons.mpr ⟨hx, forall_mem_singleton.mpr hy⟩)

theorem assign {op : Option BinOp} (hx : Composed new V es x) (hy : Composed new V es y) :
    Composed new V es (.assign op x y) :=
  .node rfl rfl nofun (forall_mem_cons.mpr ⟨hx, forall_mem_singleton.mpr hy⟩)

theorem construct {type : ShaderType} (h : ∀ x ∈ xs, Composed new V es x) :
    Composed new V es (.construct type xs) :=
  .node rfl rfl nofun h

theorem field {name : String} (h : Composed new V es x) : Composed new V es (.field x name) :=
  .node rfl rfl nofun (forall_mem_singleton.mpr h)

theorem headD (h : ∀ x ∈ xs, Composed new V es x) (hy : Composed new V es y) :
    Composed new V es (xs.headD y) := by
  cases xs with
  | nil => exact hy
  | cons x xs => exact h x mem_cons_self

theorem plain (h : Composed new V es e) (hes : ∀ x ∈ es, Plain x) : Plain e := by
  induction h with
  | given he => exact hes _ he
  | name => exact plain_ident _
  | node _ he _ _ ih => exact plain_of_children he ih
  | call _ _ ih => exact plain_call.mpr ih

theorem all {P : Expr → Prop} (h : Composed new V es e)
    (hcall : ∀ n args, new n args.length → P (.call n args)) (hname : ∀ name, V name → P (.ident name))
    (hother : ∀ e : Expr, e.isCall = false → (∀ name, e ≠ .ident name) → P e)
    (hes : ∀ x ∈ es, x.All P) : e.All P := by
  induction h with
  | given he => exact hes _ he
  | name h => exact all_ident.mpr (hname _ h)
  | node hcall _ hident _ ih => exact all_iff.mpr ⟨hother _ hcall hident, ih⟩
  | call hnew _ ih => exact all_call.mpr ⟨hcall _ _ hnew, ih⟩

end Composed

section Nodes

variable {es args : List Expr} {env : Env} {e x y base value : Expr} {inputs : List String}
  {name : String}

/-! ## Lanes -/

theorem written_lanesFrom (h : Written es base) (start count : Nat) :
    Written es (lanesFrom base start count) :=
  .field h

theorem written_replaceRun (hb : Written es base) (hv : Written es value) (s : Scalar)
    (width start count : Nat) : Written es (replaceRun base s width start count value) := by
  refine .construct (forall_mem_append.mpr ⟨forall_mem_append.mpr ⟨?_, forall_mem_singleton.mpr hv⟩, ?_⟩)
  · grind [written_lanesFrom]
  grind [written_lanesFrom]

theorem written_replaceScattered (hb : Written es base) (hv : Written es value) (s : Scalar)
    (width : Nat) (lanes : List Nat) (isScalar : Bool) :
    Written es (replaceScattered base s width lanes isScalar value) := by
  refine .construct (forall_mem_map.mpr fun i _ => ?_)
  split
  · split
    · exact hv
    · exact .field hv
  · exact written_lanesFrom hb _ _

/-- What an assignment to lanes becomes: an assignment to the vector, behind the declaration of a value
that is read more than once. -/
inductive AssignsTo (base value : Expr) (a : State) : List Stmt → State → Prop where
  | whole {x : Expr} : Written [base, value] x → AssignsTo base value a [.expr (.assign none base x)] a
  | held {d : VarDecl} {x : Expr} {b : State} : d.init = some value → Written [base, value] x →
      b.Since a → b.notices = a.notices →
      AssignsTo base value a [.decl [d], .expr (.assign none base x)] b

theorem assignLanes_to (env : Env) (base : Expr) (name : String) (s : Scalar) (width : Nat)
    (value : Expr) (a : State) :
    AssignsTo base value a (assignLanes env base name s width value a).1
      (assignLanes env base name s width value a).2 := by
  have hb : Written [base, value] base := .given mem_cons_self
  have hv : Written [base, value] value := .given (mem_cons_of_mem _ mem_cons_self)
  unfold assignLanes
  dsimp only
  split
  · refine .whole (written_replaceRun hb ?_ s width _ _)
    split
    · exact .construct (forall_mem_singleton.mpr hv)
    · exact hv
  · split
    · exact .whole (written_replaceScattered hb hv s width _ _)
    · exact .held rfl (written_replaceScattered hb (.name trivial) s width _ _) (.temp .swz a) rfl

/-- Several lanes of a variable that is a vector, each of them once. -/
def AreLanesOf (env : Env) (base : Expr) (name : String) : Prop :=
  2 ≤ name.toList.length ∧ isSwizzle name = true ∧ base.isPureTarget = true ∧
    ∃ s width, env.typeOf base = some (.vector s width) ∧
      areTargets width (name.toList.map laneIndex) = true

/-- The expression is written as several lanes of a vector. -/
def isLanes (env : Env) : Expr → Bool
  | .field base name =>
    decide (2 ≤ name.toList.length) && isSwizzle name && (env.typeOf base).any ShaderType.isVector
  | _ => false

theorem AreLanesOf.isLanes (h : AreLanesOf env base name) : isLanes env (.field base name) = true := by
  obtain ⟨hlength, hswizzle, -, s, width, htype, -⟩ := h
  rw [Lowering.isLanes, decide_eq_true hlength, hswizzle, htype]
  rfl

/-- What becomes of a statement: it stays if it does not assign to several lanes of a vector, and with
a notice if they are not lanes of a variable. -/
inductive LanesTo (env : Env) (a : State) : Stmt → List Stmt → State → Prop where
  | kept {s : Stmt} : (∀ op base name rhs, s = .expr (.assign op (.field base name) rhs) →
      isLanes env (.field base name) = false) → LanesTo env a s [s] a
  | noted {op : Option BinOp} {base rhs : Expr} {name : String} (n : LoweringNotice) :
      ¬ AreLanesOf env base name → LanesTo env a (.expr (.assign op (.field base name) rhs))
        [.expr (.assign op (.field base name) rhs)] { a with notices := a.notices ++ [n] }
  | lanes {op : Option BinOp} {base rhs value : Expr} {name : String} {out : List Stmt} {b : State} :
      AreLanesOf env base name → (value = rhs ∨ ∃ op, value = .binary op (.field base name) rhs) →
      AssignsTo base value a out b → LanesTo env a (.expr (.assign op (.field base name) rhs)) out b

theorem lowerLanes_to (env : Env) (op : Option BinOp) (base : Expr) (name : String) (rhs : Expr)
    (a : State) :
    let s : Stmt := .expr (.assign op (.field base name) rhs)
    LanesTo env a s ((lowerLanes env op base name rhs a).1.getD [s])
      (lowerLanes env op base name rhs a).2 := by
  intro s
  have hkept : isLanes env (.field base name) = false → LanesTo env a s [s] a := by
    refine fun h => .kept fun op' base' name' rhs' heq => ?_
    cases (Expr.assign.inj (Stmt.expr.inj heq)).2.1
    exact h
  unfold lowerLanes
  split
  · rename_i hname
    refine hkept ?_
    grind [isLanes]
  · rename_i hname
    rw [Bool.or_eq_true, decide_eq_true_iff, Bool.not_eq_true', not_or, Nat.not_lt,
      Bool.not_eq_false] at hname
    match htype : env.typeOf base with
    | some (.vector k width) =>
      dsimp only
      split
      · rename_i htargets
        refine .noted _ fun ⟨_, _, _, k', width', htype', htargets'⟩ => ?_
        grind
      · rename_i htargets
        rw [Bool.not_eq_true', Bool.not_eq_false] at htargets
        split
        · rename_i hpure
          rw [Bool.not_eq_true'] at hpure
          exact .noted _ fun ⟨_, _, hpure', _⟩ => Bool.false_ne_true (hpure.symm.trans hpure')
        · rename_i hpure
          rw [Bool.not_eq_true', Bool.not_eq_false] at hpure
          refine .lanes ⟨hname.1, hname.2, hpure, k, width, htype, htargets⟩ ?_
            (assignLanes_to env base name k width _ a)
          grind
    | none | some .void | some (.scalar _) | some (.matrix _ _) | some .sampler | some (.struct _)
    | some (.array _ _) =>
      refine hkept ?_
      rw [isLanes, htype]
      exact Bool.and_false _

theorem lowerLaneStmt_to (env : Env) (s : Stmt) (a : State) :
    LanesTo env a s (lowerLaneStmt env s a).1 (lowerLaneStmt env s a).2 := by
  unfold lowerLaneStmt
  split
  · exact lowerLanes_to env _ _ _ _ a
  · rename_i hne
    exact .kept fun op base name rhs h => absurd h (hne op base name rhs)

/-! ## Conversions -/

theorem written_toFloat {type : ShaderType} (h : Written es e) : Written es (toFloat type e) := by
  unfold toFloat
  split
  · exact .float _
  · exact .unary (.float _)
  · exact .construct (forall_mem_singleton.mpr h)

theorem written_floatIfInteger (h : Written es e) : Written es (floatIfInteger env e) := by
  grind [floatIfInteger, written_toFloat]

theorem written_converted (h : Converted env e x) : Written [e] x := by
  cases h with
  | same => exact .self e
  | float => exact written_toFloat (.self e)
  | spread => exact .construct (forall_mem_singleton.mpr (written_floatIfInteger (.self e)))

/-- The node stays, and each of its operands is written anew. -/
def Renewed (e x : Expr) : Prop :=
  ∃ cs, x = e.withChildren cs ∧ List.Forall₂ (fun c c' => Written [c] c') e.children cs

theorem renewed_self (e : Expr) : Renewed e e :=
  ⟨e.children, (withChildren_children e).symm, forall₂_same.mpr fun c _ => .self c⟩

theorem Renewed.plain (h : Renewed e x) (he : Plain e) : Plain x := by
  obtain ⟨cs, rfl, hcs⟩ := h
  obtain ⟨hhead, hch⟩ := avoids_iff.mp he
  refine plain_of_children ((isConditional_withChildren _ _).trans hhead) ?_
  rw [children_withChildren hcs.length_eq.symm]
  intro x hx
  obtain ⟨c, hc, hwritten⟩ := exists_of_forall₂_right hcs hx
  exact hwritten.plain (forall_mem_singleton.mpr (hch c hc))

theorem renewed_convertNode (env : Env) (e : Expr) : Renewed e (convertNode env e) := by
  obtain ⟨cs, heq, hcs⟩ := exists_convertNode_eq env e
  exact ⟨cs, heq, hcs.imp fun _ _ => written_converted⟩

theorem exists_of_mem_convertDecl {d : VarDecl} (h : x ∈ (convertDecl env d).init.toList) :
    ∃ e ∈ d.init.toList, Written [e] x := by
  obtain ⟨e, he, rfl⟩ := Option.map_eq_some_iff.mp (Option.mem_toList.mp h)
  grind [written_converted, converted_coerce]

/-! ## Operations -/

theorem written_testInput (h : Written es e) : Written es (testInput inputs env e) := by
  rcases testInput_cases inputs env e with heq | ⟨name, rfl, -, heq⟩
  · rw [heq]
    exact h
  · rw [heq]
    exact .binary h (.int _)

theorem renewed_testOperands (inputs : List String) (env : Env) (e : Expr) :
    Renewed e (testOperands inputs env e) := by
  unfold testOperands
  split
  · exact renewed_self e
  · split
    · rename_i op lhs rhs _
      exact ⟨[_, _], rfl, .cons (.self lhs) (.cons (written_testInput (.self rhs)) .nil)⟩
    · rw [mapChildren_eq]
      exact ⟨_, rfl, forall₂_map_self (fun c => written_testInput (.self c)) e.children⟩

theorem written_intOperand (h : Written es e) : Written es (intOperand env e) := by
  rcases intOperand_cases env e with heq | ⟨_, _, -, -, heq⟩
  · rw [heq]
    exact h
  · rw [heq]
    exact .construct (forall_mem_singleton.mpr h)

theorem written_shiftAmount (h : Written es e) : Written es (shiftAmount env e) := by
  rcases shiftAmount_cases env e with heq | ⟨_, -, heq⟩ | ⟨_, -, heq⟩
  · rw [heq]
    exact h
  · rw [heq]
    exact .int _
  · rw [heq]
    exact .construct (forall_mem_singleton.mpr h)

theorem written_floorMod (hx : Written es x) (hy : Written es y) : Written es (floorMod env x y) := by
  unfold floorMod
  split
  · have hfloor : Written es (.call "floor" [.binary .div x y]) :=
      .call .floor (forall_mem_singleton.mpr (.binary hx hy))
    exact .binary hx (.binary hy hfloor)
  · have hargs : ∀ a ∈ [x, y], Written es a :=
      forall_mem_cons.mpr ⟨hx, forall_mem_singleton.mpr hy⟩
    dsimp only
    split
    · exact .call .scalarMod hargs
    · exact .call (.vectorMod _) hargs

theorem zeroOf_eq (type : ShaderType) :
    ∃ zero : Expr, (zero = .float "0.0" ∨ zero = .int "0u" ∨ zero = .int "0") ∧
      zeroOf type = if type.isVector then .construct type [zero] else zero := by
  refine ⟨_, ?_, by unfold zeroOf; rfl⟩
  split <;> simp

theorem written_zeroOf (type : ShaderType) : Written es (zeroOf type) := by
  obtain ⟨zero, hcases, heq⟩ := zeroOf_eq type
  have hzero : Written es zero := by
    rcases hcases with rfl | rfl | rfl
    · exact .float _
    · exact .int _
    · exact .int _
  rw [heq]
  split
  · exact .construct (forall_mem_singleton.mpr hzero)
  · exact hzero

theorem written_diagonal (h : Written es e) (columns rows : Nat) :
    Written es (diagonal columns rows e) := by
  refine .construct (forall_mem_map.mpr fun c _ => ?_)
  refine .construct (forall_mem_map.mpr fun r _ => ?_)
  split
  · exact h
  · exact .float _

theorem introduced_builtinName {renamed : String} (h : builtinName env name args = some renamed) :
    Introduced renamed args.length := by
  unfold builtinName at h
  split at h
  · split at h
    · rename_i hlength
      cases h
      rw [beq_iff_eq.mp hlength]
      exact .atan2
    · cases h
  · cases h
    exact .inverseSqrt _
  · cases h
    exact .dpdx _
  · cases h
    exact .dpdy _
  · cases h
    exact .round _
  · cases h
    exact .faceForward _
  · split at h
    · split at h
      · cases h
        exact .select
      · cases h
    · cases h
  · cases h

theorem written_reshaped (h : ∀ a ∈ args, Written es a) (he : Reshaped env args e) : Written es e := by
  cases he with
  | negation => exact .unary (h _ mem_cons_self)
  | bitcast => exact .call (.bitcast _) h
  | remainder | comparison =>
    rw [forall_mem_cons, forall_mem_singleton] at h
    first | exact written_floorMod h.1 h.2 | exact .binary h.1 h.2

theorem written_calledAs (hcall : Written es (.call name args)) (h : ∀ a ∈ args, Written es a) :
    Written es (calledAs env name args) := by
  unfold calledAs
  split
  · exact hcall
  · split
    · rename_i hrenamed
      exact .call (introduced_builtinName hrenamed) h
    · cases hshape : reshapeCall env name args with
      | none => exact hcall
      | some e => exact written_reshaped h (reshaped_of_reshapeCall hshape).2

theorem written_constructed {type : ShaderType} (h : ∀ a ∈ args, Written es a) :
    Written es (constructed env type args) := by
  rcases constructed_cases env type args with
    heq | ⟨arg, _, rfl, -, ⟨-, -, heq⟩ | ⟨-, -, heq⟩ | ⟨_, _, -, -, heq⟩⟩
  · rw [heq]
    exact .construct h
  · rw [heq]
    exact h arg mem_cons_self
  · rw [heq]
    exact .binary (h arg mem_cons_self) (written_zeroOf _)
  · rw [heq]
    exact written_diagonal (h arg mem_cons_self) _ _

theorem written_lowerBinary {op : BinOp} (hx : Written es x) (hy : Written es y) :
    Written es (lowerBinary env op x y) := by
  have hargs : ∀ op, ∀ a ∈ [Expr.binary op x y], Written es a := fun _ =>
    forall_mem_singleton.mpr (.binary hx hy)
  unfold lowerBinary
  split
  · exact .binary hx hy
  · split
    · exact .call .all (hargs _)
    · exact .binary hx hy
  · split
    · exact .call .any (hargs _)
    · exact .binary hx hy
  · split
    · exact .binary (written_intOperand hx) (written_intOperand hy)
    · split
      · exact .binary (written_intOperand hx) (written_shiftAmount hy)
      · exact .binary hx hy

theorem written_lowerAssigned {op : Option BinOp} (h : Written es e) :
    Written es (lowerAssigned env op e) := by
  unfold lowerAssigned
  grind [written_shiftAmount, written_intOperand]

theorem written_operatedOn (env : Env) (x : Expr) : Written (x :: x.children) (operatedOn env x) := by
  have hself : Written (x :: x.children) x := .given mem_cons_self
  have hch : ∀ c ∈ x.children, Written (x :: x.children) c := fun c hc =>
    .given (mem_cons_of_mem _ hc)
  unfold operatedOn
  split
  · exact written_calledAs hself hch
  · exact written_constructed hch
  · grind [written_lowerBinary, children]
  · exact .assign (hch _ (by simp [children])) (written_lowerAssigned (hch _ (by simp [children])))
  · exact .unary (written_intOperand (hch _ (by simp [children])))
  · exact hself

theorem yields_lowerCall (env : Env) (name : String) (args : List Expr) :
    Yields (lowerCall env name args) fun _ => True := by
  unfold lowerCall
  split
  · exact .pure trivial
  · split
    · exact .pure trivial
    · split
      · exact .pure trivial
      · split
        · exact .after_note (.pure trivial)
        · exact .pure trivial

theorem yields_lowerConstruct (env : Env) (type : ShaderType) (args : List Expr) :
    Yields (lowerConstruct env type args) fun _ => True := by
  unfold lowerConstruct
  split
  · split
    · unfold lowerConversion
      split
      · exact .pure trivial
      · exact .pure trivial
      · split
        · exact .pure trivial
        · exact .when_note (.pure trivial)
        · exact .pure trivial
      · exact .pure trivial
    · exact .pure trivial
  · exact .pure trivial

theorem yields_state_lowerOperation (inputs : List String) (env : Env) (e : Expr) :
    Yields (lowerOperation inputs env e) fun _ => True := by
  unfold lowerOperation
  split
  · exact yields_lowerCall env _ _
  · exact yields_lowerConstruct env _ _
  all_goals exact .pure trivial

theorem yields_lowerOperation (inputs : List String) (env : Env) (e : Expr) :
    Yields (lowerOperation inputs env e) fun y => ∃ x, Renewed e x ∧ Written (x :: x.children) y := by
  intro a
  refine ⟨⟨_, renewed_testOperands inputs env e, ?_⟩, (yields_state_lowerOperation inputs env e a).2⟩
  rw [lowerOperation_fst]
  exact written_operatedOn env _

/-! ## Reads of images -/

def IsReadVar (binding var : String) : Prop :=
  var ∈ [Wgsl.textureVar binding, Wgsl.samplerVar binding, Wgsl.fragNormCoord]

theorem ofName_of_introduced {n : String} {k : Nat} (h : Introduced n k) : Access.ofName n = none := by
  have hletter : ∀ n : String, 's' ∈ n.toList → Access.ofName n = none := by
    intro n hn
    unfold Access.ofName
    split <;> first | rfl | exact absurd hn (by decide)
  cases h with
  | bitcast | vectorMod =>
    refine hletter _ ?_
    simp only [String.toList_append, mem_append]
    simp
  | _ => rfl

section Read

variable {binding : String} {rest : List Expr}

theorem composed_dimensions : Composed Introduced (IsReadVar binding) es (dimensions binding) :=
  .call .textureDimensions (forall_mem_singleton.mpr (.name mem_cons_self))

theorem composed_imageSize : Composed Introduced (IsReadVar binding) es (imageSize binding) :=
  .construct (forall_mem_singleton.mpr composed_dimensions)

theorem composed_sample (hx : Composed Introduced (IsReadVar binding) es x)
    (hy : Composed Introduced (IsReadVar binding) es y) (flip : Bool) :
    Composed Introduced (IsReadVar binding) es (sample flip binding x y) := by
  have hsampler : IsReadVar binding (Wgsl.samplerVar binding) := mem_cons_of_mem _ mem_cons_self
  refine .call .textureSampleLevel (forall_mem_cons.mpr ⟨.name mem_cons_self, forall_mem_cons.mpr
    ⟨.name hsampler, forall_mem_cons.mpr ⟨?_, forall_mem_singleton.mpr hy⟩⟩⟩)
  split
  · exact .call .flipY (forall_mem_singleton.mpr hx)
  · exact hx

theorem composed_fetch (hx : Composed Introduced (IsReadVar binding) es x)
    (hy : Composed Introduced (IsReadVar binding) es y) (flip : Bool) :
    Composed Introduced (IsReadVar binding) es (fetch env flip binding x y) := by
  have htexel : Composed Introduced (IsReadVar binding) es
      (if env.typeOf x == some (.vector .int 2) then x else .construct (.vector .int 2) [x]) := by
    split
    · exact hx
    · exact .construct (forall_mem_singleton.mpr hx)
  refine .call .textureLoad (forall_mem_cons.mpr ⟨.name mem_cons_self, forall_mem_cons.mpr
    ⟨?_, forall_mem_singleton.mpr hy⟩⟩)
  split
  · exact .call .flipTexel (forall_mem_cons.mpr
      ⟨htexel, forall_mem_singleton.mpr composed_dimensions⟩)
  · exact htexel

/-- A read of a texture is composed of its coordinates and of the variables of the texture and of the
fragment. -/
theorem composed_read {access : Access} {flip : Bool}
    (hrest : ∀ x ∈ rest, Composed Introduced (IsReadVar binding) es x)
    (h : access.read env flip binding rest = some e) :
    Composed Introduced (IsReadVar binding) es e := by
  unfold Access.read at h
  split at h
  · cases h
    exact composed_sample (.name (by simp [IsReadVar])) (.float _) _
  · cases h
    exact composed_imageSize
  · cases h
    exact composed_sample (hrest _ mem_cons_self) (.float _) _
  · cases h
    exact composed_sample (.binary (hrest _ mem_cons_self) composed_imageSize) (.float _) _
  · cases h
    rw [forall_mem_cons] at hrest
    exact composed_sample hrest.1 (.headD hrest.2 (.float _)) _
  · cases h
    rw [forall_mem_cons] at hrest
    exact composed_fetch hrest.1 (.headD hrest.2 (.int _)) _
  · cases h

end Read

/-! ## Names of the host -/

theorem yields_bindNode (st : Setting) (env : Env) (e : Expr) :
    Yields (bindNode st env e) (Composed (fun _ _ => False) (fun _ => True) [e]) := by
  unfold bindNode
  split
  · split
    · exact .pure (.name trivial)
    · refine .bind .get fun s _ => .pure ?_
      unfold hostExpr?
      split
      · exact .name trivial
      · split
        · split
          · exact .field (.name trivial)
          · exact .name trivial
        · exact .name trivial
  · split
    · dsimp only
      split
      · exact .after_note (.pure (.name trivial))
      · exact .pure (.name trivial)
    · exact .pure (.self _)
  · exact .pure (.self _)

end Nodes

end ShaderEffect.Lowering
