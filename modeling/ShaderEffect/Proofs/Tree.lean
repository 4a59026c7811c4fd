import Mathlib.Data.List.Basic
import Mathlib.Data.List.Forall2
import ShaderEffect.Shader.Program

/-!
# Trees by their children

Every node of a tree is a head and a list of children. `Expr.withChildren` puts other operands under
a head, and `Expr.byChildren` is induction over that view, so that a proof about all expressions
does not go through the constructors one by one. `Stmt.children`, `Stmt.operands` and
`Stmt.labelValues` give the same view of statements: the statements inside, the expressions that are
evaluated, and the expressions of case labels.

`Expr.Avoids` and `Stmt.Avoids` say that no node of a tree is of an unwanted kind, and
`Stmt.hasLabel` that some case label of a statement holds a node of a given kind.
-/

namespace ShaderEffect

open List

variable {α : Type}
variable (f : Expr → Expr) (h : Stmt → Stmt) (labels : List CaseLabel) (body : List Stmt)
  {bad : Expr → Bool} {ss : List Stmt}

/-! ## Lists of children -/

theorem map_eq_self_iff {f : α → α} {xs : List α} : xs.map f = xs ↔ ∀ x ∈ xs, f x = x := by
  conv_lhs => rhs; rw [← map_id xs]
  exact map_inj_left

theorem forall₂_map_self {R : α → α → Prop} {f : α → α} (h : ∀ x, R x (f x)) (xs : List α) :
    List.Forall₂ R xs (xs.map f) :=
  forall₂_map_right_iff.mpr (forall₂_same.mpr fun x _ => h x)

theorem exists_of_forall₂_right {β : Type} {R : α → β → Prop} {xs : List α} {ys : List β}
    (h : List.Forall₂ R xs ys) {y : β} (hy : y ∈ ys) : ∃ x ∈ xs, R x y := by
  induction h with
  | nil => exact absurd hy not_mem_nil
  | cons hhead _ ih =>
    rcases mem_cons.mp hy with rfl | hy
    · exact ⟨_, mem_cons_self, hhead⟩
    · obtain ⟨x, hx, hR⟩ := ih hy
      exact ⟨x, mem_cons_of_mem _ hx, hR⟩

/-! ## Expressions -/

namespace Expr

variable {e : Expr} {xs : List Expr}

/-- The node with other operands. Lists of another length than its own leave it as it is. -/
def withChildren : Expr → List Expr → Expr
  | .unary op _, [x] => .unary op x
  | .binary op _ _, [x, y] => .binary op x y
  | .assign op _ _, [x, y] => .assign op x y
  | .conditional _ _ _, [x, y, z] => .conditional x y z
  | .call name _, xs => .call name xs
  | .construct type _, xs => .construct type xs
  | .field _ name, [x] => .field x name
  | .index _ _, [x, y] => .index x y
  | .comma _, xs => .comma xs
  | .deref _, [x] => .deref x
  | .addrOf _, [x] => .addrOf x
  | e, _ => e

@[simp] theorem withChildren_children (e : Expr) : e.withChildren e.children = e := by
  cases e <;> rfl

theorem children_withChildren (h : xs.length = e.children.length) :
    (e.withChildren xs).children = xs := by
  cases e with
  | call | construct | comma => rfl
  | int | float | bool | ident => exact (length_eq_zero_iff.mp h).symm
  | unary | field | deref | addrOf =>
    obtain ⟨x, rfl⟩ := length_eq_one_iff.mp h
    rfl
  | binary | assign | index =>
    obtain ⟨x, y, rfl⟩ := length_eq_two.mp h
    rfl
  | conditional =>
    obtain ⟨x, y, z, rfl⟩ := length_eq_three.mp h
    rfl

theorem withChildren_withChildren (h : xs.length = e.children.length) :
    (e.withChildren xs).withChildren e.children = e := by
  cases e with
  | call | construct | comma | int | float | bool | ident => rfl
  | unary | field | deref | addrOf =>
    obtain ⟨x, rfl⟩ := length_eq_one_iff.mp h
    rfl
  | binary | assign | index =>
    obtain ⟨x, y, rfl⟩ := length_eq_two.mp h
    rfl
  | conditional =>
    obtain ⟨x, y, z, rfl⟩ := length_eq_three.mp h
    rfl

def isCall : Expr → Bool
  | .call .. => true
  | _ => false

theorem isCall_withChildren (e : Expr) (xs : List Expr) :
    (e.withChildren xs).isCall = e.isCall := by
  unfold withChildren
  split <;> rfl

theorem eq_call_of_withChildren {args : List Expr} {name : String}
    (h : e.withChildren xs = .call name args) : ∃ args', e = .call name args' ∧ xs = args := by
  have hcall : e.isCall = true := by
    rw [← isCall_withChildren e xs, h]
    rfl
  cases e with
  | call name' args' =>
    obtain ⟨rfl, rfl⟩ := Expr.call.inj h
    exact ⟨args', rfl, rfl⟩
  | _ => cases hcall

theorem eq_ident_of_withChildren {name : String} (h : e.withChildren xs = .ident name) :
    e = .ident name := by
  unfold withChildren at h
  split at h
  case h_12 => exact h
  all_goals cases h

theorem sizeOf_lt_of_mem_children {c : Expr} (h : c ∈ e.children) : sizeOf c < sizeOf e := by
  cases e with
  | call | construct | comma =>
    have := sizeOf_lt_of_mem h
    simp only [call.sizeOf_spec, construct.sizeOf_spec, comma.sizeOf_spec, children] at this ⊢
    omega
  | int | float | bool | ident => exact absurd h (not_mem_nil)
  | unary | field | deref | addrOf =>
    rw [mem_singleton.mp h]
    simp only [unary.sizeOf_spec, field.sizeOf_spec, deref.sizeOf_spec, addrOf.sizeOf_spec]
    omega
  | binary | assign | index | conditional =>
    simp only [children, mem_cons, not_mem_nil, or_false] at h
    rcases h with rfl | rfl | rfl <;>
      simp only [binary.sizeOf_spec, assign.sizeOf_spec, index.sizeOf_spec,
        conditional.sizeOf_spec] <;> omega

theorem byChildren {P : Expr → Prop} (node : ∀ e, (∀ c ∈ e.children, P c) → P e) (e : Expr) :
    P e :=
  node e fun c _h => byChildren node c
termination_by sizeOf e
decreasing_by exact sizeOf_lt_of_mem_children _h

attribute [local simp] children subexprs subexprsAll mapNodes mapNodesAll

theorem subexprsAll_eq_flatMap : ∀ es : List Expr, subexprsAll es = es.flatMap subexprs
  | [] => rfl
  | e :: es => by rw [subexprsAll, subexprsAll_eq_flatMap es, flatMap_cons]

theorem subexprs_eq_cons (e : Expr) : e.subexprs = e :: e.children.flatMap subexprs := by
  cases e <;> simp [subexprsAll_eq_flatMap]

theorem subexprs_subset {c : Expr} (hc : c ∈ e.children) : c.subexprs ⊆ e.subexprs := by
  rw [subexprs_eq_cons e]
  exact fun x hx => mem_cons_of_mem e (mem_flatMap.mpr ⟨c, hc, hx⟩)

theorem mem_subexprs_self (e : Expr) : e ∈ e.subexprs := by
  rw [subexprs_eq_cons]
  exact mem_cons_self ..

theorem subexprs_subset_of_mem {x : Expr} (hx : x ∈ e.subexprs) : x.subexprs ⊆ e.subexprs := by
  induction e using byChildren with
  | node e ih =>
    rw [subexprs_eq_cons, mem_cons, mem_flatMap] at hx
    rcases hx with rfl | ⟨c, hc, hx⟩
    · exact fun _ hy => hy
    · exact fun _ hy => subexprs_subset hc (ih c hc hx hy)

theorem mapChildren_eq (e : Expr) :
    e.mapChildren f = e.withChildren (e.children.map f) := by
  cases e <;> rfl

theorem mapNodesAll_eq_map (f : Expr → Expr) :
    ∀ es : List Expr, mapNodesAll f es = es.map (mapNodes f)
  | [] => rfl
  | e :: es => by rw [mapNodesAll, mapNodesAll_eq_map f es, map_cons]

theorem mapNodes_eq (e : Expr) :
    mapNodes f e = f (e.withChildren (e.children.map (mapNodes f))) := by
  cases e <;> simp [withChildren, mapNodesAll_eq_map]

theorem forall_subexprs_iff {P : Expr → Prop} :
    (∀ x ∈ e.subexprs, P x) ↔ P e ∧ ∀ c ∈ e.children, ∀ x ∈ c.subexprs, P x := by
  rw [subexprs_eq_cons]
  simp only [mem_cons, mem_flatMap, forall_eq_or_imp]
  refine and_congr Iff.rfl ⟨fun h c hc x hx => h x ⟨c, hc, hx⟩, ?_⟩
  rintro h x ⟨c, hc, hx⟩
  exact h c hc x hx

/-- No node of the expression is of the given kind. -/
def Avoids (bad : Expr → Bool) (e : Expr) : Prop :=
  ∀ x ∈ e.subexprs, bad x = false

theorem avoids_iff :
    e.Avoids bad ↔ bad e = false ∧ ∀ c ∈ e.children, c.Avoids bad :=
  forall_subexprs_iff

theorem any_subexprs_eq_false_iff :
    e.subexprs.any bad = false ↔ e.Avoids bad := by
  simp [Avoids, any_eq_false]

end Expr

/-! ## Statements -/

@[simp] theorem Case.labels_mk :
    (Case.mk labels body).labels = labels := rfl

@[simp] theorem Case.body_mk :
    (Case.mk labels body).body = body := rfl

namespace Stmt

variable {t s : Stmt}

/-- The statements directly inside a statement. -/
def children : Stmt → List Stmt
  | .block body => body
  | .ifElse _ whenTrue whenFalse => whenTrue :: whenFalse.toList
  | .forLoop start _ _ body => start.toList ++ [body]
  | .whileLoop _ body => [body]
  | .doWhile body _ => [body]
  | .loop body continuing _ => body ++ continuing
  | .switch _ cases => cases.flatMap Case.body
  | _ => []

/-- The expressions that a statement evaluates itself: all that it holds but case labels. -/
def operands : Stmt → List Expr
  | .switch selector _ => [selector]
  | s => s.exprs

/-- The expressions of the case labels of a `switch`. -/
def labelValues : Stmt → List Expr
  | .switch _ cases => cases.flatMap fun c => c.labels.filterMap CaseLabel.value?
  | _ => []

attribute [local simp] exprs operands labelValues children mapExprs substmts substmtsAll substmtsOpt
  substmtsCases

theorem exprs_eq_append (s : Stmt) : s.exprs = s.operands ++ s.labelValues := by
  cases s <;> simp

theorem substmtsAll_eq_flatMap : ∀ ss : List Stmt, substmtsAll ss = ss.flatMap substmts
  | [] => rfl
  | s :: ss => by rw [substmtsAll, substmtsAll_eq_flatMap ss, flatMap_cons]

theorem substmtsOpt_eq_flatMap (o : Option Stmt) : substmtsOpt o = o.toList.flatMap substmts := by
  cases o <;> simp

theorem substmtsCases_eq_flatMap :
    ∀ cs : List Case, substmtsCases cs = (cs.flatMap Case.body).flatMap substmts
  | [] => rfl
  | .mk labels body :: cs => by
    rw [substmtsCases, substmtsCases_eq_flatMap cs, substmtsAll_eq_flatMap, flatMap_cons,
      flatMap_append]
    rfl

theorem substmts_eq_cons (s : Stmt) : s.substmts = s :: s.children.flatMap substmts := by
  cases s <;> simp [substmtsAll_eq_flatMap, substmtsOpt_eq_flatMap, substmtsCases_eq_flatMap]

/-- No statement inside is of the kind `badStmt`, and no node of an expression that is evaluated is
of the kind `badExpr`. Case labels are free. -/
def Avoids (badExpr : Expr → Bool) (badStmt : Stmt → Bool) (s : Stmt) : Prop :=
  ∀ t ∈ s.substmts, badStmt t = false ∧ ∀ e ∈ t.operands, e.Avoids badExpr

variable {badExpr : Expr → Bool} {badStmt : Stmt → Bool}

theorem avoids_iff :
    s.Avoids badExpr badStmt ↔ badStmt s = false ∧ (∀ e ∈ s.operands, e.Avoids badExpr) ∧
      ∀ c ∈ s.children, c.Avoids badExpr badStmt := by
  unfold Avoids
  rw [substmts_eq_cons]
  simp only [mem_cons, mem_flatMap, forall_eq_or_imp, and_assoc]
  refine and_congr Iff.rfl (and_congr Iff.rfl ⟨fun h c hc t ht => h t ⟨c, hc, ht⟩, ?_⟩)
  rintro h t ⟨c, hc, ht⟩
  exact h c hc t ht

/-- Some case label of the statement, or of a statement inside, holds a node of the given kind. -/
def hasLabel (kind : Expr → Bool) (s : Stmt) : Bool :=
  s.substmts.any fun t => t.labelValues.any fun e => e.subexprs.any kind

theorem hasLabel_eq (kind : Expr → Bool) (s : Stmt) :
    s.hasLabel kind =
      (s.labelValues.any (fun e => e.subexprs.any kind) || s.children.any (hasLabel kind)) := by
  unfold hasLabel
  rw [substmts_eq_cons, any_cons, any_flatMap]

/-! ## Changing trees -/

@[simp] theorem operands_mapExprs (s : Stmt) :
    (s.mapExprs f).operands = s.operands.map f := by
  cases s with
  | decl ds =>
    simp only [mapExprs, operands, exprs]
    induction ds with
    | nil => rfl
    | cons d ds ih =>
      cases hd : d.init <;> simp_all
  | forLoop start cond step => cases cond <;> cases step <;> rfl
  | loop body continuing breakIf => cases breakIf <;> rfl
  | ret value => cases value <;> rfl
  | _ => rfl

@[simp] theorem children_mapExprs (s : Stmt) :
    (s.mapExprs f).children = s.children := by
  cases s with
  | switch selector cases => simp [flatMap_map]
  | _ => rfl

@[simp] theorem labelValues_mapExprs (s : Stmt) :
    (s.mapExprs f).labelValues = s.labelValues.map f := by
  cases s with
  | switch selector cases =>
    have hlabels : ∀ ls : List CaseLabel, (ls.map (CaseLabel.map f)).filterMap CaseLabel.value? =
        (ls.filterMap CaseLabel.value?).map f := by
      intro ls
      induction ls with
      | nil => rfl
      | cons l ls ih =>
        cases l <;> simp only [map_cons, CaseLabel.map, filterMap_cons, CaseLabel.value?, ih]
    simp only [mapExprs, labelValues, flatMap_map, map_flatMap, Case.labels_mk, hlabels]
  | _ => rfl

/-- Changes the statements directly inside a statement, each on its own. -/
def mapChildren (h : Stmt → Stmt) : Stmt → Stmt
  | .block body => .block (body.map h)
  | .ifElse cond whenTrue whenFalse => .ifElse cond (h whenTrue) (whenFalse.map h)
  | .forLoop start cond step body => .forLoop (start.map h) cond step (h body)
  | .whileLoop cond body => .whileLoop cond (h body)
  | .doWhile body cond => .doWhile (h body) cond
  | .loop body continuing breakIf => .loop (body.map h) (continuing.map h) breakIf
  | .switch selector cases => .switch selector (cases.map fun c => .mk c.labels (c.body.map h))
  | s => s

attribute [local simp] mapChildren mapTree mapTreeOpt

@[simp] theorem children_mapChildren (s : Stmt) :
    (s.mapChildren h).children = s.children.map h := by
  cases s with
  | ifElse cond t f => cases f <;> rfl
  | forLoop start => cases start <;> rfl
  | loop => simp
  | switch selector cases => simp [flatMap_map, map_flatMap]
  | _ => rfl

@[simp] theorem operands_mapChildren (s : Stmt) :
    (s.mapChildren h).operands = s.operands := by
  cases s <;> rfl

@[simp] theorem labelValues_mapChildren (s : Stmt) :
    (s.mapChildren h).labelValues = s.labelValues := by
  cases s with
  | switch selector cases => simp [flatMap_map]
  | _ => rfl

theorem mapChildren_eq_self {h : Stmt → Stmt} (hs : ∀ c ∈ s.children, h c = c) :
    s.mapChildren h = s := by
  have hlist : ∀ ss : List Stmt, (∀ c ∈ ss, h c = c) → ss.map h = ss := fun ss hss =>
    (map_congr_left hss).trans (map_id ss)
  cases s with
  | block body => exact congrArg Stmt.block (hlist body hs)
  | ifElse cond t f =>
    rw [children, forall_mem_cons] at hs
    rw [mapChildren, hs.1]
    cases f with
    | none => rfl
    | some f => rw [Option.map_some, hs.2 f (by simp)]
  | forLoop start cond step body =>
    rw [children, forall_mem_append] at hs
    rw [mapChildren, hs.2 body (by simp)]
    cases start with
    | none => rfl
    | some start => rw [Option.map_some, hs.1 start (by simp)]
  | whileLoop cond body => rw [mapChildren, hs body (by simp [children])]
  | doWhile body cond => rw [mapChildren, hs body (by simp [children])]
  | loop body continuing breakIf =>
    rw [children, forall_mem_append] at hs
    rw [mapChildren, hlist body hs.1, hlist continuing hs.2]
  | switch selector cases =>
    have hcases : (cases.map fun c => Case.mk c.labels (c.body.map h)) = cases.map id :=
      map_congr_left fun c hc => by
        have hbody := hlist c.body fun t ht => hs t (mem_flatMap.mpr ⟨c, hc, ht⟩)
        rw [hbody]
        cases c
        rfl
    rw [mapChildren, hcases, map_id]
  | _ => rfl

theorem mapTreeAll_eq_map (f : Expr → Expr) (g : Stmt → Stmt) :
    ∀ ss : List Stmt, mapTreeAll f g ss = ss.map (mapTree f g)
  | [] => rfl
  | s :: ss => by rw [mapTreeAll, mapTreeAll_eq_map f g ss, map_cons]

theorem mapTreeCases_eq_map (f : Expr → Expr) (g : Stmt → Stmt) :
    ∀ cs : List Case, mapTreeCases f g cs =
      cs.map fun c => .mk (c.labels.map (CaseLabel.map f)) (c.body.map (mapTree f g))
  | [] => rfl
  | .mk labels body :: cs => by
    rw [mapTreeCases, mapTreeCases_eq_map f g cs, mapTreeAll_eq_map]
    rfl

theorem mapTree_eq (g : Stmt → Stmt) (s : Stmt) :
    mapTree f g s = g ((s.mapChildren (mapTree f g)).mapExprs f) := by
  cases s with
  | ifElse cond t e => cases e <;> simp
  | forLoop start => cases start <;> simp
  | switch selector cases =>
    simp [mapTreeCases_eq_map, Function.comp_def]
  | _ => simp [mapTreeAll_eq_map]

theorem sizeOf_lt_of_mem_children {c : Stmt} (h : c ∈ s.children) : sizeOf c < sizeOf s := by
  cases s with
  | block body =>
    have := sizeOf_lt_of_mem h
    simp only [children, block.sizeOf_spec] at this ⊢
    omega
  | ifElse cond t f =>
    simp only [children, mem_cons, Option.mem_toList] at h
    rcases h with rfl | h
    · simp only [ifElse.sizeOf_spec]
      omega
    · obtain rfl := h
      simp only [ifElse.sizeOf_spec, Option.some.sizeOf_spec]
      omega
  | forLoop start cond step body =>
    simp only [children, mem_append, Option.mem_toList, mem_singleton] at h
    rcases h with h | rfl
    · obtain rfl := h
      simp only [forLoop.sizeOf_spec, Option.some.sizeOf_spec]
      omega
    · simp only [forLoop.sizeOf_spec]
      omega
  | whileLoop | doWhile =>
    rw [mem_singleton.mp h]
    simp only [whileLoop.sizeOf_spec, doWhile.sizeOf_spec]
    omega
  | loop body continuing breakIf =>
    simp only [children, mem_append] at h
    rcases h with h | h <;>
    · have := sizeOf_lt_of_mem h
      simp only [loop.sizeOf_spec]
      omega
  | switch selector cases =>
    obtain ⟨⟨labels, body⟩, hcase, hc⟩ := mem_flatMap.mp h
    have h1 := sizeOf_lt_of_mem hcase
    have h2 := sizeOf_lt_of_mem hc
    simp only [switch.sizeOf_spec, Case.mk.sizeOf_spec, Case.body] at h1 h2 ⊢
    omega
  | decl | expr | ret | breakOut | continueOn | discard | empty => exact absurd h not_mem_nil

/-- Induction over statements: a statement with the property for all statements directly inside it
has it. -/
theorem byChildren {P : Stmt → Prop} (node : ∀ s, (∀ c ∈ s.children, P c) → P s) (s : Stmt) : P s :=
  node s fun c _h => byChildren node c
termination_by sizeOf s
decreasing_by exact sizeOf_lt_of_mem_children _h

/-! ## Statements inside -/

theorem mem_substmts_self (s : Stmt) : s ∈ s.substmts := by
  rw [substmts_eq_cons]
  exact mem_cons_self

theorem mem_substmtsAll : t ∈ substmtsAll ss ↔ ∃ s ∈ ss, t ∈ s.substmts := by
  rw [substmtsAll_eq_flatMap, mem_flatMap]

theorem mem_substmts : t ∈ s.substmts ↔ t = s ∨ t ∈ substmtsAll s.children := by
  rw [substmts_eq_cons, mem_cons, substmtsAll_eq_flatMap]

theorem substmtsAll_append (ss ts : List Stmt) :
    substmtsAll (ss ++ ts) = substmtsAll ss ++ substmtsAll ts := by
  simp only [substmtsAll_eq_flatMap, flatMap_append]

theorem substmtsAll_subset {ss ts : List Stmt} (h : ss ⊆ ts) : substmtsAll ss ⊆ substmtsAll ts := by
  intro t ht
  obtain ⟨s, hs, ht⟩ := mem_substmtsAll.mp ht
  exact mem_substmtsAll.mpr ⟨s, h hs, ht⟩

theorem substmts_trans {u : Stmt} (hst : t ∈ s.substmts) (htu : u ∈ t.substmts) :
    u ∈ s.substmts := by
  induction s using byChildren with
  | node s ih =>
    rcases mem_substmts.mp hst with rfl | hst
    · exact htu
    · obtain ⟨c, hc, hst⟩ := mem_substmtsAll.mp hst
      exact mem_substmts.mpr (.inr (mem_substmtsAll.mpr ⟨c, hc, ih c hc hst⟩))

theorem sizeOf_le_of_mem_substmts (h : t ∈ s.substmts) : sizeOf t ≤ sizeOf s := by
  induction s using byChildren with
  | node s ih =>
    rcases mem_substmts.mp h with rfl | h
    · exact Nat.le_refl _
    · obtain ⟨c, hc, h⟩ := mem_substmtsAll.mp h
      exact Nat.le_trans (ih c hc h) (Nat.le_of_lt (sizeOf_lt_of_mem_children hc))

end Stmt

end ShaderEffect
