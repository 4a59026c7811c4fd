import ShaderEffect.Proofs.Lowering.Stable.Always

/-!
# When the pass on operations leaves its own outcome alone

Most of what the pass writes is written for good: a shift has an unsigned amount, a bit operation
has integers, a helper is called under its own name. Vectors are another matter, for the pass puts
`all` and `any` around comparisons of them and does not look whether they stand there already.
**The pass leaves its own outcome as it is exactly if it compares no vectors with `==` or `!=`**
(`lowerOperations_again_iff`).
-/

namespace ShaderEffect.Lowering

open Walker Expr List Expr

variable {op : BinOp} {name : String} {type : ShaderType} {q : Site}
variable (inputs : List String)

/-! ## The change of nodes is faithful -/

section Faithful

variable {inputs : List String} {env : Env} {e x y : Expr}
variable {rhs lhs : Expr}

theorem lowerBinary_cases (env : Env) (op : BinOp) (lhs rhs : Expr) :
    (∃ op' x y, lowerBinary env op lhs rhs = .binary op' x y) ∨
      ∃ name args, lowerBinary env op lhs rhs = .call name args := by
  unfold lowerBinary
  split
  · exact .inl ⟨_, _, _, rfl⟩
  · split
    · exact .inr ⟨_, _, rfl⟩
    · exact .inl ⟨_, _, _, rfl⟩
  · split
    · exact .inr ⟨_, _, rfl⟩
    · exact .inl ⟨_, _, _, rfl⟩
  · split
    · exact .inl ⟨_, _, _, rfl⟩
    · split <;> exact .inl ⟨_, _, _, rfl⟩

/-- The operands of an operation are tested, unless it is a test itself. -/
theorem operated_binary (inputs : List String) (env : Env) (op : BinOp) (lhs rhs : Expr) :
    operated inputs env (.binary op lhs rhs) =
      if isInputTest inputs (.binary op lhs rhs) then lowerBinary env op lhs rhs
      else lowerBinary env op (testInput inputs env lhs) (testInput inputs env rhs) := by
  unfold operated testOperands
  split <;> rfl

theorem operated_construct (inputs : List String) (env : Env) (type : ShaderType)
    (args : List Expr) :
    operated inputs env (.construct type args) =
      constructed env type (args.map (testInput inputs env)) := rfl

theorem operated_call (inputs : List String) (env : Env) (name : String) (args : List Expr) :
    operated inputs env (.call name args) =
      calledAs env name (args.map (testInput inputs env)) := rfl

theorem mapNodes_of_testInput {other : Env}
    (h : testInput inputs other (e.mapNodes (operated inputs env)) = e) :
    e.mapNodes (operated inputs env) = e := by
  rcases testInput_cases inputs other (e.mapNodes (operated inputs env)) with
    hsame | ⟨name, hname, -, htest⟩
  · rw [← hsame]
    exact h
  · obtain rfl : e = .binary .ne (.ident name) (.int "0") := h.symm.trans htest
    rw [mapNodes, operated_binary] at hname
    split at hname
    all_goals
      rcases lowerBinary_cases env _ _ _ with ⟨_, _, _, hout⟩ | ⟨_, _, hout⟩
      all_goals
        rw [hout] at hname
        cases hname

theorem mapNodes_construct (inputs : List String) (env : Env) {s : Scalar} (hs : s ≠ .bool)
    (n : Nat) (args : List Expr) :
    ∃ xs, (Expr.construct (.ofComponents s n) args).mapNodes (operated inputs env) =
      .construct (.ofComponents s n) xs := by
  rw [mapNodes, operated_construct, constructed_ofComponents hs]
  exact ⟨_, rfl⟩

theorem mapNodes_of_intOperand
    (h : intOperand env (testInput inputs env (e.mapNodes (operated inputs env))) = e) :
    e.mapNodes (operated inputs env) = e := by
  generalize hy : testInput inputs env (e.mapNodes (operated inputs env)) = y at h
  rcases intOperand_cases env y with hsame | ⟨type, n, htype, hfloat, hout⟩
  · exact mapNodes_of_testInput (hy.trans (hsame.symm.trans h))
  · obtain rfl : e = .construct (.ofComponents .int n) [y] := h.symm.trans hout
    obtain ⟨xs, hxs⟩ := mapNodes_construct inputs env (show Scalar.int ≠ .bool by decide) n [y]
    rw [hxs] at hy
    obtain rfl : construct (.ofComponents .int n) xs = y := hy
    rw [Env.typeOf_construct_ofComponents] at htype
    cases htype
    simp [ShaderType.isFloatBased, component_ofComponents] at hfloat

theorem mapNodes_of_shiftAmount
    (h : shiftAmount env (testInput inputs env (e.mapNodes (operated inputs env))) = e) :
    e.mapNodes (operated inputs env) = e := by
  generalize hy : testInput inputs env (e.mapNodes (operated inputs env)) = y at h
  rcases shiftAmount_cases env y with hsame | ⟨text, rfl, hout⟩ | ⟨n, huint, hout⟩
  · exact mapNodes_of_testInput (hy.trans (hsame.symm.trans h))
  · obtain rfl : e = .int (text ++ "u") := h.symm.trans hout
    have htext : text ++ "u" = text := int.inj hy
    have hlength := congrArg (fun s => s.toList.length) htext
    simp at hlength
  · obtain rfl : e = .construct (.ofComponents .uint n) [y] := h.symm.trans hout
    obtain ⟨xs, hxs⟩ := mapNodes_construct inputs env (show Scalar.uint ≠ .bool by decide) n [y]
    rw [hxs] at hy
    obtain rfl : construct (.ofComponents .uint n) xs = y := hy
    grind [Env.typeOf_construct_ofComponents, component_ofComponents]

theorem mapNodes_of_lowerAssigned {op : Option BinOp}
    (h : lowerAssigned env op (testInput inputs env (e.mapNodes (operated inputs env))) = e) :
    e.mapNodes (operated inputs env) = e := by
  unfold lowerAssigned at h
  grind [mapNodes_of_shiftAmount, mapNodes_of_intOperand, mapNodes_of_testInput]

theorem mapNodes_of_map_testInput {es : List Expr}
    (h : (mapNodesAll (operated inputs env) es).map (testInput inputs env) = es) :
    ∀ e ∈ es, e.mapNodes (operated inputs env) = e := by
  rw [mapNodesAll_eq_map, map_map] at h
  intro e he
  exact mapNodes_of_testInput (map_eq_self_iff.mp h e he)

def nestedBool : Nat → Expr → Expr
  | 0, e => e
  | k + 1, e => .construct .bool [nestedBool k e]

theorem nestedBool_construct (e : Expr) :
    ∀ k, nestedBool k (.construct .bool [e]) = nestedBool (k + 1) e
  | 0 => rfl
  | k + 1 => congrArg (fun x => construct .bool [x]) (nestedBool_construct e k)

theorem operated_binary_ne_construct (op : BinOp) (lhs rhs : Expr) (type : ShaderType)
    (args : List Expr) : operated inputs env (.binary op lhs rhs) ≠ .construct type args := by
  rw [operated_binary]
  split
  all_goals
    intro h
    rcases lowerBinary_cases env op _ _ with ⟨_, _, _, hout⟩ | ⟨_, _, hout⟩
    all_goals
      rw [hout] at h
      cases h

theorem calledAs_ne_construct (name : String) (args xs : List Expr) (type : ShaderType) :
    calledAs env name args ≠ .construct type xs := by
  intro h
  rcases calledAs_cases env name args with hout | ⟨-, ⟨_, -, hout⟩ | hout⟩
  · rw [hout] at h
    cases h
  · rw [hout] at h
    cases h
  · rw [h] at hout
    generalize hx : construct type xs = x at hout
    cases hout with
    | remainder a b =>
      grind [floorMod_cases]
    | _ => cases hx

/-- Nothing becomes a truth value made of itself: a constructor of truth values is dropped or stays,
and none is added. -/
theorem mapNodes_ne_nestedBool (inputs : List String) (env : Env) (e : Expr) :
    ∀ k, e.mapNodes (operated inputs env) ≠ nestedBool (k + 1) e := by
  induction e using byChildren with
  | node e ih =>
    intro k heq
    cases e with
    | construct type args =>
      rw [mapNodes, mapNodesAll_eq_map, operated_construct, map_map] at heq
      rcases constructed_cases env type (args.map (testInput inputs env ∘
        mapNodes (operated inputs env))) with hout | ⟨arg, fromType, hargs, -, hout⟩
      · rw [hout] at heq
        obtain ⟨rfl, hargs⟩ := construct.inj heq
        obtain ⟨c, rfl, hc⟩ := map_eq_singleton_iff.mp hargs
        rw [nestedBool_construct] at hc
        exact ih c mem_cons_self k (eq_of_testInput_eq hc fun _ h => by cases h)
      · obtain ⟨c, rfl, hc⟩ := map_eq_singleton_iff.mp hargs
        rcases hout with ⟨rfl, -, hout⟩ | ⟨-, -, hout⟩ | ⟨columns, rows, rfl, -, hout⟩
        · rw [hout, nestedBool_construct] at heq
          exact ih c mem_cons_self (k + 1)
            (eq_of_testInput_eq (hc.trans heq) fun _ h => by cases h)
        · rw [hout] at heq
          cases heq
        · rw [hout] at heq
          cases heq
    | call name args =>
      rw [mapNodes, operated_call] at heq
      exact calledAs_ne_construct _ _ _ _ heq
    | binary op lhs rhs =>
      rw [mapNodes] at heq
      exact operated_binary_ne_construct _ _ _ _ _ heq
    | unary op operand => cases op <;> cases heq
    | _ => cases heq

theorem faithful_call {args : List Expr}
    (heq : (Expr.call name args).mapNodes (operated inputs env) = .call name args) :
    ∀ c ∈ args, c.mapNodes (operated inputs env) = c := by
  rw [mapNodes, operated_call] at heq
  rcases calledAs_cases env name ((mapNodesAll (operated inputs env) args).map
    (testInput inputs env)) with hout | ⟨hname, ⟨renamed, hrenamed, hout⟩ | hout⟩
  · rw [hout] at heq
    exact mapNodes_of_map_testInput (call.inj heq).2
  · grind
  · rw [heq] at hout
    generalize hx : call name args = x at hout
    generalize (mapNodesAll (operated inputs env) args).map (testInput inputs env) = ys at hout
    cases hout with
    | bitcast =>
      refine absurd hname (not_mem_changingNames (c := '<') (by decide) ?_)
      rw [(call.inj hx).1, String.toList_append, String.toList_append, mem_append,
        mem_append]
      exact .inl (.inl (by decide))
    | remainder a b =>
      grind [floorMod_cases]
    | negation | comparison => cases hx

theorem faithful_construct {args : List Expr}
    (heq : (Expr.construct type args).mapNodes (operated inputs env) = .construct type args) :
    ∀ c ∈ args, c.mapNodes (operated inputs env) = c := by
  rw [mapNodes, operated_construct] at heq
  rcases constructed_cases env type ((mapNodesAll (operated inputs env) args).map
    (testInput inputs env)) with hout | ⟨arg, fromType, hargs, htype, hout⟩
  · rw [hout] at heq
    exact mapNodes_of_map_testInput (construct.inj heq).2
  · rw [mapNodesAll_eq_map, map_map] at hargs
    obtain ⟨c, rfl, hc⟩ := map_eq_singleton_iff.mp hargs
    rcases hout with ⟨rfl, -, hout⟩ | ⟨-, -, hout⟩ | ⟨columns, rows, rfl, hscalar, hout⟩
    · rw [hout] at heq
      exact absurd (eq_of_testInput_eq (hc.trans heq) fun _ h => by cases h)
        (mapNodes_ne_nestedBool inputs env c 0)
    · rw [hout] at heq
      cases heq
    · -- a single column is a vector, but the value on the diagonal is a scalar
      rw [hout] at heq
      obtain ⟨column, -, hcolumn⟩ := map_eq_singleton_iff.mp (construct.inj heq).2
      obtain ⟨xs, hvec⟩ : ∃ xs, c.mapNodes (operated inputs env) = .construct (.vec rows) xs := by
        rw [← hcolumn, mapNodes, operated_construct,
          constructed_of_number rfl (fun _ _ h => by cases h)]
        exact ⟨_, rfl⟩
      rw [Function.comp_apply, hvec] at hc
      obtain rfl : construct (.vec rows) xs = arg := hc
      rw [Env.typeOf] at htype
      cases htype
      cases hscalar

theorem lowerBinary_eq_binary (h : lowerBinary env op x y = .binary op lhs rhs) :
    (x = lhs ∧ y = rhs) ∨ (op.isBitwise = true ∧ intOperand env x = lhs ∧ intOperand env y = rhs) ∨
      (op.isShift = true ∧ intOperand env x = lhs ∧ shiftAmount env y = rhs) := by
  unfold lowerBinary at h
  grind

theorem isInputTest_op (h : isInputTest inputs (.binary op lhs rhs) = true) : op = .ne := by
  unfold isInputTest at h
  split at h
  · rename_i heq
    exact (binary.inj heq).1
  · cases h

theorem faithful_binary
    (heq : (Expr.binary op lhs rhs).mapNodes (operated inputs env) = .binary op lhs rhs) :
    lhs.mapNodes (operated inputs env) = lhs ∧ rhs.mapNodes (operated inputs env) = rhs := by
  rw [mapNodes, operated_binary] at heq
  split at heq
  · rename_i htest
    obtain rfl := isInputTest_op htest
    rcases lowerBinary_eq_binary heq with h | ⟨h, -⟩ | ⟨h, -⟩
    · exact h
    · cases h
    · cases h
  · rcases lowerBinary_eq_binary heq with ⟨hl, hr⟩ | ⟨-, hl, hr⟩ | ⟨-, hl, hr⟩
    · exact ⟨mapNodes_of_testInput hl, mapNodes_of_testInput hr⟩
    · exact ⟨mapNodes_of_intOperand hl, mapNodes_of_intOperand hr⟩
    · exact ⟨mapNodes_of_intOperand hl, mapNodes_of_shiftAmount hr⟩

/-- The operands of the node are tested, and nothing else happens to it. -/
def isOrdinary : Expr → Bool
  | .ident _ | .call _ _ | .construct _ _ | .unary _ _ | .binary _ _ _ | .assign _ _ _ => false
  | _ => true

theorem isOrdinary_withChildren (e : Expr) (xs : List Expr) :
    isOrdinary (e.withChildren xs) = isOrdinary e := by
  unfold withChildren
  split <;> rfl

theorem operated_of_isOrdinary (h : isOrdinary e = true) :
    operated inputs env e = e.withChildren (e.children.map (testInput inputs env)) := by
  rw [← mapChildren_eq]
  cases e <;> first | rfl | cases h

theorem faithful_ordinary (h : isOrdinary e = true) (heq : e.mapNodes (operated inputs env) = e) :
    ∀ c ∈ e.children, c.mapNodes (operated inputs env) = c := by
  grind [mapNodes_eq, operated_of_isOrdinary, isOrdinary_withChildren, children_withChildren,
      mapNodes_of_testInput, map_eq_self_iff]

/-- **A node of the lowered operations that is as it was has operands as they were.** -/
theorem faithful_operated (inputs : List String) (env : Env) : Faithful (operated inputs env) := by
  intro e heq c hc
  cases e with
  | call name args => exact faithful_call heq c hc
  | construct type args => exact faithful_construct heq c hc
  | binary op lhs rhs =>
    obtain ⟨hl, hr⟩ := faithful_binary heq
    grind [children]
  | assign op lhs rhs =>
    obtain ⟨-, hl, hr⟩ := assign.inj heq
    grind [children, mapNodes_of_lowerAssigned]
  | unary op operand =>
    obtain rfl := mem_singleton.mp hc
    cases op with
    | bitNot => exact mapNodes_of_intOperand (unary.inj heq).2
    | _ => exact mapNodes_of_testInput (unary.inj heq).2
  | ident => cases hc
  | _ => exact faithful_ordinary rfl heq c hc

end Faithful

/-! ## What has been lowered stays -/

def ComparesVectors (env : Env) : Expr → Prop
  | .binary .eq lhs _ => (env.typeOf lhs).any ShaderType.isVector = true
  | .binary .ne lhs _ => (env.typeOf lhs).any ShaderType.isVector = true
  | _ => False

/-- The node stays, unless it compares vectors. -/
def StaysOperated (inputs : List String) (env : Env) (e : Expr) : Prop :=
  ¬ ComparesVectors env e → operated inputs env e = e

structure IsOperand (inputs : List String) (env : Env) (e : Expr) : Prop where
  nodes : e.All (StaysOperated inputs env)
  tested : testInput inputs env e = e

section Stays

variable {inputs : List String} {env : Env} {e x y : Expr} {args : List Expr}

theorem testOperands_eq_self (h : ∀ c ∈ e.children, testInput inputs env c = c) :
    testOperands inputs env e = e := by
  have hmap : e.mapChildren (testInput inputs env) = e := by
    rw [mapChildren_eq, map_eq_self_iff.mpr h, withChildren_children]
  unfold testOperands
  grind [children]

theorem isOperand_node (htested : testInput inputs env e = e)
    (hchildren : ∀ c ∈ e.children, IsOperand inputs env c)
    (hnode : ¬ ComparesVectors env e → operatedOn env e = e) : IsOperand inputs env e := by
  refine ⟨all_iff.mpr ⟨fun hne => ?_, fun c hc => (hchildren c hc).nodes⟩, htested⟩
  rw [operated, testOperands_eq_self fun c hc => (hchildren c hc).tested]
  exact hnode hne

theorem lowerBinary_of_not_compares (hxor : op ≠ .xor) (hbit : op.isBitwise = false)
    (hshift : op.isShift = false) (h : ¬ ComparesVectors env (.binary op x y)) :
    lowerBinary env op x y = .binary op x y := by
  unfold lowerBinary
  split
  · exact absurd rfl hxor
  · exact if_neg h
  · exact if_neg h
  · rw [hbit, hshift]
    rfl

theorem lowerBinary_of_bitwise (h : op.isBitwise = true) (x y : Expr) :
    lowerBinary env op x y = .binary op (intOperand env x) (intOperand env y) := by
  cases op <;> first | rfl | cases h

theorem lowerBinary_of_shift (h : op.isShift = true) (x y : Expr) :
    lowerBinary env op x y = .binary op (intOperand env x) (shiftAmount env y) := by
  cases op <;> first | rfl | cases h

theorem isOperand_binary (hx : IsOperand inputs env x) (hy : IsOperand inputs env y)
    (hxor : op ≠ .xor) (hbit : op.isBitwise = false) (hshift : op.isShift = false) :
    IsOperand inputs env (.binary op x y) := by
  refine isOperand_node rfl ?_ (lowerBinary_of_not_compares hxor hbit hshift)
  grind [children]

theorem isOperand_int (text : String) : IsOperand inputs env (.int text) :=
  isOperand_node rfl (forall_mem_nil _) fun _ => rfl

theorem isOperand_float (text : String) : IsOperand inputs env (.float text) :=
  isOperand_node rfl (forall_mem_nil _) fun _ => rfl

theorem isOperand_inputTest (h : name ∈ inputs) :
    IsOperand inputs env (.binary .ne (.ident name) (.int "0")) := by
  refine ⟨all_binary.mpr ⟨fun hne => ?_, all_ident.mpr fun _ => rfl, all_int.mpr fun _ => rfl⟩, rfl⟩
  have htest : isInputTest inputs (.binary .ne (.ident name) (.int "0")) = true := by
    simpa [isInputTest] using h
  rw [operated_binary, if_pos htest]
  exact lowerBinary_of_not_compares (by decide) rfl rfl hne

theorem isOperand_testInput (h : e.All (StaysOperated inputs env)) :
    IsOperand inputs env (testInput inputs env e) := by
  rcases testInput_cases inputs env e with hsame | ⟨name, -, hname, htest⟩
  · exact ⟨by rwa [hsame], testInput_testInput inputs env e⟩
  · rw [htest]
    exact isOperand_inputTest hname

theorem isOperand_map_testInput (h : ∀ c ∈ args, c.All (StaysOperated inputs env)) :
    ∀ c ∈ args.map (testInput inputs env), IsOperand inputs env c :=
  forall_mem_map.mpr fun c hc => isOperand_testInput (h c hc)

theorem isOperand_ordinary (h : isOrdinary e = true)
    (hc : ∀ c ∈ e.children, c.All (StaysOperated inputs env)) :
    IsOperand inputs env (operated inputs env e) := by
  have hkind := (isOrdinary_withChildren e (e.children.map (testInput inputs env))).trans h
  have hoperands : ∀ c ∈ (e.withChildren (e.children.map (testInput inputs env))).children,
      IsOperand inputs env c := by
    rw [children_withChildren (length_map _)]
    exact isOperand_map_testInput hc
  rw [operated_of_isOrdinary h]
  generalize e.withChildren (e.children.map (testInput inputs env)) = x at hkind hoperands
  refine isOperand_node ?_ hoperands fun _ => ?_
  all_goals cases x <;> first | rfl | cases hkind

theorem isOperand_construct (hargs : ∀ c ∈ args, IsOperand inputs env c)
    (hnode : constructed env type args = .construct type args) :
    IsOperand inputs env (.construct type args) :=
  isOperand_node rfl hargs fun _ => hnode

theorem isOperand_call (hargs : ∀ c ∈ args, IsOperand inputs env c)
    (hnode : calledAs env name args = .call name args) : IsOperand inputs env (.call name args) :=
  isOperand_node rfl hargs fun _ => hnode

theorem isOperand_intOperand (h : IsOperand inputs env x) :
    IsOperand inputs env (intOperand env x) := by
  grind [intOperand_cases, isOperand_construct, constructed_ofComponents]

theorem isOperand_shiftAmount (h : IsOperand inputs env x) :
    IsOperand inputs env (shiftAmount env x) := by
  grind [shiftAmount_cases, isOperand_int, isOperand_construct, constructed_ofComponents]

theorem isOperand_lowerAssigned (op : Option BinOp) (h : IsOperand inputs env x) :
    IsOperand inputs env (lowerAssigned env op x) := by
  unfold lowerAssigned
  grind [isOperand_shiftAmount, isOperand_intOperand]

theorem lowerAssigned_lowerAssigned (env : Env) (op : Option BinOp) (e : Expr) :
    lowerAssigned env op (lowerAssigned env op e) = lowerAssigned env op e := by
  cases op with
  | none => rfl
  | some op =>
    unfold lowerAssigned
    dsimp only
    split
    · exact shiftAmount_shiftAmount env e
    · split
      · exact intOperand_intOperand env e
      · rfl

theorem isOperand_floorMod (hx : IsOperand inputs env x) (hy : IsOperand inputs env y) :
    IsOperand inputs env (floorMod env x y) := by
  rcases floorMod_cases env x y with hout | ⟨name, hname, hout⟩
  · have hdiv : IsOperand inputs env (.binary .div x y) :=
      isOperand_binary hx hy (by decide) rfl rfl
    have hfloor : IsOperand inputs env (.call "floor" [.binary .div x y]) :=
      isOperand_call (forall_mem_singleton.mpr hdiv) (calledAs_of_not_mem (by decide))
    rw [hout]
    exact isOperand_binary hx (isOperand_binary hy hfloor (by decide) rfl rfl) (by decide) rfl rfl
  grind [isOperand_call, calledAs_of_not_mem]

theorem isOperand_zeroOf (h : type.isBoolBased = false) : IsOperand inputs env (zeroOf type) := by
  obtain ⟨zero, hcases, heq⟩ := zeroOf_eq type
  have hzero : IsOperand inputs env zero := by
    grind [isOperand_float, isOperand_int]
  rw [heq]
  split
  · rename_i hvector
    refine isOperand_construct (forall_mem_singleton.mpr hzero) (constructed_of_number h ?_ _)
    rintro columns rows rfl
    cases hvector
  · exact hzero

theorem isOperand_diagonal (h : IsOperand inputs env x) (columns rows : Nat) :
    IsOperand inputs env (diagonal columns rows x) := by
  have hcolumn : ∀ c, IsOperand inputs env (.construct (.vec rows) ((range rows).map fun r =>
      if r == c then x else .float "0.0")) := by
    intro c
    refine isOperand_construct (forall_mem_map.mpr fun r _ => ?_)
      (constructed_of_number rfl (fun _ _ h => by cases h) _)
    split
    · exact h
    · exact isOperand_float _
  refine isOperand_construct (forall_mem_map.mpr fun c _ => hcolumn c) ?_
  -- a single column is a vector, which is no scalar to be put on a diagonal
  rcases constructed_cases env (.matrix columns rows) ((range columns).map fun c =>
    .construct (.vec rows) ((range rows).map fun r => if r == c then x else .float "0.0")) with
    hout | ⟨arg, fromType, hargs, htype, ⟨htarget, -⟩ | ⟨htarget, -⟩ | ⟨_, _, -, hscalar, -⟩⟩
  · exact hout
  · cases htarget
  · cases htarget
  · obtain ⟨c, -, rfl⟩ := map_eq_singleton_iff.mp hargs
    rw [Env.typeOf] at htype
    cases htype
    cases hscalar

theorem isOperand_reshaped (h : Reshaped env args e) (hargs : ∀ c ∈ args, IsOperand inputs env c) :
    IsOperand inputs env e := by
  cases h with
  | negation x => exact isOperand_node rfl hargs fun _ => rfl
  | bitcast x type =>
    refine isOperand_call hargs
      (calledAs_of_not_mem (not_mem_changingNames (c := '<') (by decide) ?_))
    rw [String.toList_append, String.toList_append, mem_append, mem_append]
    exact .inl (.inl (by decide))
  | remainder x y =>
    grind [isOperand_floorMod]
  | @comparison op hop x y =>
    simp only [forall_mem_cons] at hargs
    refine isOperand_binary hargs.1 hargs.2.1 ?_ ?_ ?_
    · rintro rfl
      cases hop
    · cases op <;> first | rfl | cases hop
    · cases op <;> first | rfl | cases hop

theorem isOperand_calledAs (env : Env) (name : String)
    (hargs : ∀ c ∈ args, IsOperand inputs env c) :
    IsOperand inputs env (calledAs env name args) := by
  grind [calledAs_cases, isOperand_call, isOperand_reshaped]

theorem isOperand_constructed (env : Env) (type : ShaderType)
    (hargs : ∀ c ∈ args, IsOperand inputs env c) :
    IsOperand inputs env (constructed env type args) := by
  rcases constructed_cases env type args with hout | ⟨arg, fromType, rfl, -, hout⟩
  · rw [hout]
    exact isOperand_construct hargs hout
  · have harg := hargs arg mem_cons_self
    rcases hout with ⟨-, -, hout⟩ | ⟨-, hbool, hout⟩ | ⟨columns, rows, -, -, hout⟩
    · rwa [hout]
    · rw [hout]
      exact isOperand_binary harg (isOperand_zeroOf hbool) (by decide) rfl rfl
    · rw [hout]
      exact isOperand_diagonal harg columns rows

theorem isOperand_lowerBinary (op : BinOp) (hx : IsOperand inputs env x)
    (hy : IsOperand inputs env y) : IsOperand inputs env (lowerBinary env op x y) := by
  have hne : IsOperand inputs env (.binary .ne x y) := isOperand_binary hx hy (by decide) rfl rfl
  have heq : IsOperand inputs env (.binary .eq x y) := isOperand_binary hx hy (by decide) rfl rfl
  by_cases hbit : op.isBitwise = true
  · rw [lowerBinary_of_bitwise hbit]
    refine isOperand_node rfl ?_ fun _ => ?_
    · grind [children, isOperand_intOperand]
    · rw [operatedOn, lowerBinary_of_bitwise hbit, intOperand_intOperand, intOperand_intOperand]
  by_cases hshift : op.isShift = true
  · rw [lowerBinary_of_shift hshift]
    refine isOperand_node rfl ?_ fun _ => ?_
    · grind [children, isOperand_intOperand, isOperand_shiftAmount]
    · rw [operatedOn, lowerBinary_of_shift hshift, intOperand_intOperand, shiftAmount_shiftAmount]
  unfold lowerBinary
  split
  · exact hne
  · split
    · exact isOperand_call (forall_mem_singleton.mpr heq) (calledAs_of_not_mem (by decide))
    · exact heq
  · split
    · exact isOperand_call (forall_mem_singleton.mpr hne) (calledAs_of_not_mem (by decide))
    · exact hne
  grind [isOperand_binary]

theorem eq_of_isInputTest (h : isInputTest inputs e = true) :
    ∃ name ∈ inputs, e = .binary .ne (.ident name) (.int "0") := by
  unfold isInputTest at h
  grind

/-- **Every node that the pass writes stays, unless it compares vectors.** -/
theorem all_stays_operated (h : ∀ c ∈ e.children, c.All (StaysOperated inputs env)) :
    (operated inputs env e).All (StaysOperated inputs env) := by
  by_cases htest : isInputTest inputs e = true
  · obtain ⟨name, hname, rfl⟩ := eq_of_isInputTest htest
    have hself : IsOperand inputs env (.binary .ne (.ident name) (.int "0")) :=
      isOperand_inputTest hname
    rw [operated_binary, if_pos htest]
    unfold lowerBinary
    dsimp only
    split
    · exact (isOperand_call (forall_mem_singleton.mpr hself)
        (calledAs_of_not_mem (by decide))).nodes
    · exact hself.nodes
  cases e with
  | call name args =>
    rw [operated_call]
    exact (isOperand_calledAs env name (isOperand_map_testInput h)).nodes
  | construct type args =>
    rw [operated_construct]
    exact (isOperand_constructed env type (isOperand_map_testInput h)).nodes
  | binary op lhs rhs =>
    simp only [children, forall_mem_cons] at h
    rw [operated_binary, if_neg htest]
    exact (isOperand_lowerBinary op (isOperand_testInput h.1) (isOperand_testInput h.2.1)).nodes
  | assign op lhs rhs =>
    simp only [children, forall_mem_cons] at h
    have hvalue := isOperand_lowerAssigned op (isOperand_testInput h.2.1)
    refine all_assign.mpr ⟨fun _ => ?_, h.1, hvalue.nodes⟩
    show assign op lhs (lowerAssigned env op (testInput inputs env _)) = _
    rw [hvalue.tested, lowerAssigned_lowerAssigned]
  | unary op operand =>
    have hoperand := isOperand_testInput (forall_mem_singleton.mp h)
    cases op with
    | bitNot =>
      refine (isOperand_node (e := .unary .bitNot _) rfl
        (forall_mem_singleton.mpr (isOperand_intOperand hoperand)) fun _ => ?_).nodes
      exact congrArg (unary .bitNot) (intOperand_intOperand env _)
    | _ =>
      exact (isOperand_node (e := .unary _ _) rfl (forall_mem_singleton.mpr hoperand)
        fun _ => rfl).nodes
  | ident name => exact all_ident.mpr fun _ => rfl
  | _ => exact (isOperand_ordinary rfl h).nodes

theorem not_compares_of_operated_eq (h : operated inputs env e = e) : ¬ ComparesVectors env e := by
  have hnode : ∀ {op : BinOp} {lhs rhs : Expr}, op = .eq ∨ op = .ne →
      operated inputs env (.binary op lhs rhs) = .binary op lhs rhs →
        ¬ (env.typeOf lhs).any ShaderType.isVector = true := by
    grind [lowerBinary, operated_binary]
  intro hcompares
  unfold ComparesVectors at hcompares
  grind

end Stays

/-! ## Programs -/

/-- The lowering of operations as a rewriting: the inputs among the expressions are tested last. -/
def operations (inputs : List String) : Rewriting where
  node := operated inputs
  whole := fun env _ e => testInput inputs env e

theorem apply_operations (hrole : q.role ≠ .label) (e : Expr) :
    (operations inputs).apply { q with expr := e } =
      testInput inputs q.around (e.mapNodes (operated inputs q.env)) := by
  obtain ⟨env, around, role, expr⟩ := q
  cases role with
  | label => exact absurd rfl hrole
  | operand | wanted => rfl

/-- Every node of a lowered expression stays, unless it compares vectors. -/
theorem all_stays_apply (hrole : q.role ≠ .label) :
    ((operations inputs).apply q).All (StaysOperated inputs q.env) := by
  rw [show (operations inputs).apply q = _ from apply_operations inputs hrole q.expr]
  rcases testInput_cases inputs q.around (q.expr.mapNodes (operated inputs q.env)) with
    hsame | ⟨name, -, hname, htest⟩
  · rw [hsame]
    exact all_mapNodes (fun _ => all_stays_operated) q.expr
  · rw [htest]
    exact (isOperand_inputTest hname).nodes

theorem apply_apply_operations (hrole : q.role ≠ .label) :
    (operations inputs).apply { q with expr := (operations inputs).apply q } =
      (operations inputs).apply q ↔
        ((operations inputs).apply q).All fun x => ¬ ComparesVectors q.env x := by
  have hself : (operations inputs).apply q =
      testInput inputs q.around (q.expr.mapNodes (operated inputs q.env)) :=
    apply_operations inputs hrole q.expr
  rw [apply_operations inputs hrole]
  constructor
  · intro heq x hx
    have hnodes := mapNodes_of_testInput heq
    exact not_compares_of_operated_eq
      ((faithful_operated inputs q.env).mapNodes_eq_self_iff.mp hnodes x hx)
  · intro hnone
    have hstays := all_stays_apply inputs hrole
    rw [mapNodes_eq_self fun x hx => hstays x hx (hnone x hx), hself, testInput_testInput]

def operationWalker (inputs : List String) : Walker State where
  expr := lowerOperation inputs
  stmt := fun env s => pure [s.mapExprs (testInput inputs env)]
  global := fun env d => pure { d with init := d.init.map (testInput inputs env) }

theorem rewrites_operations :
    (operationWalker inputs).Rewrites (fun _ _ => True) (operations inputs) where
  expr := fun env e _ a _ => ⟨lowerOperation_fst env a _ e, trivial⟩
  stmt := fun _ s result _ _ =>
    ⟨congrArg (fun s => [s]) (Stmt.mapExprs_eq_mapRoles _ result s), trivial⟩
  global := fun _ _ _ _ => ⟨rfl, trivial⟩
  enter := fun _ _ _ _ => ⟨rfl, trivial⟩
  leave := fun _ _ _ _ _ => ⟨rfl, trivial⟩

/-- Every node that the pass leaves stays, unless it compares vectors. -/
theorem eachNode_staysOperated (st : Setting) (p : Program) (a : State) :
    let q := (lowerOperations st p a).1
    q.EachNode (st.envFor q) (StaysOperated st.booleanInputs) := by
  intro q u hu hrole
  obtain ⟨e, he⟩ := made_envFor (rewrites_operations st.booleanInputs) st p (a := a) trivial u hu
  rw [he]
  exact all_stays_apply st.booleanInputs (q := { u with expr := e }) hrole

/-- **The pass leaves its own outcome as it is exactly if that compares no vectors.** -/
theorem lowerOperations_again_iff (st : Setting) (p : Program) (a b : State) :
    let q := (lowerOperations st p a).1
    (lowerOperations st q b).1 = q ↔
      q.EachNode (st.envFor q) fun env x => ¬ ComparesVectors env x :=
  walk_walk_eq_iff (rewrites_operations st.booleanInputs)
    (fun env e => testInput_testInput _ env e) (fun _ hrole _ => apply_apply_operations _ hrole) st p
    trivial trivial

end ShaderEffect.Lowering
