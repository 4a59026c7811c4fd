import ShaderEffect.Lowering.Basic
import ShaderEffect.Proofs.Rewrite
import ShaderEffect.Proofs.Typing.Soundness

/-!
# Proper types

Vectors and matrices have from two to four components in each direction. Where a program names only
such types, **inference gives only such types** (`Env.Proper.typeOf`), and every expression of the
program stands where only such types are declared (`Program.Proper.sites`).
-/

namespace ShaderEffect

open List Expr

variable {t u : ShaderType}

namespace ShaderType

/-- Vectors and matrices have from two to four components in each direction. -/
def isProper : ShaderType → Bool
  | .vector _ n => decide (2 ≤ n ∧ n ≤ 4)
  | .matrix c r => decide ((2 ≤ c ∧ c ≤ 4) ∧ 2 ≤ r ∧ r ≤ 4)
  | .array elem _ => elem.isProper
  | .void | .scalar _ | .sampler | .struct _ => true

attribute [local simp] isProper

theorem isProper_vector {s : Scalar} {n : Nat} :
    (vector s n).isProper = true ↔ 2 ≤ n ∧ n ≤ 4 := by
  simp

theorem isProper_matrix {c r : Nat} :
    (matrix c r).isProper = true ↔ (2 ≤ c ∧ c ≤ 4) ∧ 2 ≤ r ∧ r ≤ 4 := by
  simp

theorem isProper_ofComponents (s : Scalar) {n : Nat} (h : n ≤ 4) :
    (ofComponents s n).isProper = true := by
  unfold ofComponents
  split
  · rfl
  · exact isProper_vector.mpr ⟨by omega, h⟩

theorem components_le (h : t.isProper = true) : t.components.getD 0 ≤ 4 := by
  cases t with
  | vector s n => exact (isProper_vector.mp h).2
  | _ => simp [components]

theorem isProper_widen (ht : t.isProper = true) (hu : u.isProper = true) :
    (widen t u).isProper = true := by
  grind [widen, isProper_ofComponents, components_le]

theorem isProper_foldl_widen : ∀ {ts : List ShaderType} {t : ShaderType}, t.isProper = true →
    (∀ u ∈ ts, u.isProper = true) → (ts.foldl widen t).isProper = true
  | [], _, ht, _ => ht
  | u :: us, t, ht, hts => by
    obtain ⟨hu, hus⟩ := forall_mem_cons.mp hts
    exact isProper_foldl_widen (t := widen t u) (isProper_widen ht hu) hus

theorem isProper_widest {ts : List ShaderType} (hts : ∀ u ∈ ts, u.isProper = true)
    (h : widest ts = some t) : t.isProper = true := by
  cases ts with
  | nil => cases h
  | cons u us =>
    obtain ⟨hu, hus⟩ := forall_mem_cons.mp hts
    obtain rfl := Option.some.inj h
    exact isProper_foldl_widen hu hus

theorem isProper_withScalar (h : t.isProper = true) (s : Scalar) :
    (t.withScalar s).isProper = true := by
  cases t <;> first | rfl | exact h

theorem isProper_sized (h : t.isProper = true) (count : Nat) : (t.sized count).isProper = true := by
  unfold sized
  split
  · exact h
  · exact h

theorem isProper_arithmetic (op : BinOp) {l r : ShaderType} (hl : l.isProper = true)
    (hr : r.isProper = true) : (arithmetic op l r).isProper = true := by
  unfold arithmetic
  grind [isProper_vector, isProper_matrix]

end ShaderType

namespace Env

open ShaderType

variable {name : String}

structure Proper (env : Env) : Prop where
  scopes : ∀ s ∈ env.scopes, ∀ x ∈ s, x.2.isProper = true
  host : ∀ x ∈ env.host, x.2.isProper = true
  functions : ∀ f ∈ env.functions, f.returns.isProper = true
  structs : ∀ d ∈ env.structs, ∀ m ∈ d.2, m.type.isProper = true

theorem mem_of_lookup {α : Type} {x : α} : ∀ {l : List (String × α)},
    l.lookup name = some x → ∃ n, (n, x) ∈ l
  | (n, y) :: l, h => by
    rw [lookup_cons] at h
    cases hn : name == n with
    | true =>
      grind
    | false =>
      rw [hn] at h
      obtain ⟨m, hm⟩ := mem_of_lookup h
      exact ⟨m, mem_cons_of_mem _ hm⟩

namespace Proper

variable {env : Env}

theorem lookup (h : env.Proper) (ht : env.lookup name = some t) : t.isProper = true := by
  rw [Env.lookup, Option.or_eq_some_iff] at ht
  rcases ht with ht | ⟨-, ht⟩
  · obtain ⟨s, hs, hlookup⟩ := exists_of_findSome?_eq_some ht
    obtain ⟨n, hn⟩ := mem_of_lookup hlookup
    exact h.scopes s hs _ hn
  · obtain ⟨n, hn⟩ := mem_of_lookup ht
    exact h.host _ hn

theorem fieldType (h : env.Proper) (ht : env.fieldType name t = some u) : u.isProper = true := by
  unfold Env.fieldType at ht
  split at ht
  · grind [isSwizzle, isProper_ofComponents]
  · obtain ⟨ms, hms, hm⟩ := Option.bind_eq_some_iff.mp ht
    obtain ⟨m, hfind, rfl⟩ := Option.map_eq_some_iff.mp hm
    obtain ⟨n, hn⟩ := mem_of_lookup hms
    exact h.structs _ hn m (mem_of_find?_eq_some hfind)
  · cases ht

theorem elementType (h : t.isProper = true) (hu : Env.elementType t = some u) :
    u.isProper = true := by
  cases t with
  | vector s n =>
    obtain rfl := Option.some.inj hu
    rfl
  | matrix c r =>
    obtain rfl := Option.some.inj hu
    exact isProper_vector.mpr (isProper_matrix.mp h).2
  | array elem length =>
    obtain rfl := Option.some.inj hu
    exact h
  | void | scalar | sampler | struct => cases hu

theorem binaryType {op : BinOp} {l r : Option ShaderType} (hl : ∀ t ∈ l, t.isProper = true)
    (hr : ∀ t ∈ r, t.isProper = true) (h : Env.binaryType op l r = some t) : t.isProper = true := by
  unfold Env.binaryType at h
  split at h
  · obtain rfl := Option.some.inj h
    rfl
  grind [isProper_arithmetic]

theorem builtinType {args : List (Option ShaderType)}
    (hargs : ∀ o ∈ args, ∀ t ∈ o, t.isProper = true) (h : Env.builtinType name args = some t) :
    t.isProper = true := by
  have harg : ∀ {k : Nat}, ∀ t ∈ (args[k]?).join, t.isProper = true := by
    intro k t ht
    cases hk : args[k]? with
    | none =>
      rw [hk] at ht
      cases ht
    | some o =>
      rw [hk] at ht
      exact hargs o (mem_of_getElem? hk) t ht
  have hcompared : ((args[0]?).join.bind components).map (ofComponents .bool) = some t →
      t.isProper = true := by
    intro h
    obtain ⟨n, hn, rfl⟩ := Option.map_eq_some_iff.mp h
    obtain ⟨u, hu, hn⟩ := Option.bind_eq_some_iff.mp hn
    have hle := components_le (harg u hu)
    rw [hn] at hle
    exact isProper_ofComponents _ hle
  have hcast : ∀ s, (args[0]?).join.map (fun t => t.withScalar s) = some t → t.isProper = true := by
    intro s h
    obtain ⟨u, hu, rfl⟩ := Option.map_eq_some_iff.mp h
    exact isProper_withScalar (harg u hu) s
  unfold Env.builtinType at h
  dsimp only at h
  split at h
  case h_30 =>
    split at h
    · rename_i hfirst
      obtain rfl := Option.some.inj h
      exact isProper_matrix.mpr (isProper_matrix.mp (harg _ hfirst)).symm
    · cases h
  case h_31 =>
    rcases Option.or_eq_some_iff.mp h with h | ⟨-, h⟩
    · exact harg t h
    · exact harg t h
  case h_36 =>
    split at h
    · refine isProper_widest (fun u hu => ?_) h
      obtain ⟨o, ho, hu⟩ := mem_filterMap.mp hu
      exact hargs o ho u hu
    · cases h
  all_goals first
    | exact Option.some.inj h ▸ rfl
    | exact harg t h
    | exact hcompared h
    | exact hcast _ h

theorem callType (h : env.Proper) {args : List (Option ShaderType)}
    (hargs : ∀ o ∈ args, ∀ t ∈ o, t.isProper = true) (ht : env.callType name args = some t) :
    t.isProper = true := by
  unfold Env.callType at ht
  split at ht
  · rename_i s ss hs
    obtain rfl := Option.some.inj ht
    have hmem : s ∈ env.candidates name args.length := hs ▸ mem_cons_self
    exact h.functions s (mem_of_mem_filter (mem_of_mem_filter hmem))
  · exact builtinType hargs ht

end Proper

end Env

/-! ## Programs -/

/-- The node makes a value of a type that is not proper, or has to do with a pointer. -/
def Expr.isImproper : Expr → Bool
  | .construct type _ => !type.isProper
  | .deref _ | .addrOf _ => true
  | _ => false

/-- The statement declares a variable of a type that is not proper, or is a loop of the target
language. -/
def Stmt.isImproper : Stmt → Bool
  | .decl ds => ds.any fun d => !d.type.isProper
  | .loop .. => true
  | _ => false

/-- All types that the expression names are proper, and it holds no pointers. -/
abbrev Expr.Proper (e : Expr) : Prop :=
  e.Avoids Expr.isImproper

/-- All types that the statement and the statements inside it name are proper. -/
abbrev Stmt.Proper (s : Stmt) : Prop :=
  s.Avoids Expr.isImproper Stmt.isImproper

/-- The type of the variable and all types in its initial value are proper. -/
def VarDecl.Proper (d : VarDecl) : Prop :=
  d.type.isProper = true ∧ ∀ e ∈ d.init.toList, e.Proper

/-- All types that the item names are proper. -/
def Item.Proper : Item → Prop
  | .struct d => ∀ m ∈ d.members, m.type.isProper = true
  | .globals ds => ∀ d ∈ ds, d.Proper
  | .function f =>
    f.returns.isProper = true ∧ (∀ q ∈ f.params, q.type.isProper = true) ∧ ∀ s ∈ f.body, s.Proper

/-- All types that the program names are proper. -/
def Program.Proper (p : Program) : Prop :=
  ∀ i ∈ p.items, i.Proper

namespace Env.Proper

variable {env : Env}

/-- **Inference gives only proper types.** -/
theorem typeOf (h : env.Proper) {e : Expr} (he : e.Proper) (ht : env.typeOf e = some t) :
    t.isProper = true := by
  induction e using byChildren generalizing t with
  | node e ih =>
    obtain ⟨hnode, hchildren⟩ := avoids_iff.mp he
    have hoperand : ∀ c ∈ e.children, ∀ t ∈ env.typeOf c, t.isProper = true := fun c hc t ht =>
      ih c hc (hchildren c hc) ht
    have htypes : ∀ {es : List Expr}, (∀ c ∈ es, c ∈ e.children) →
        ∀ o ∈ env.typesOf es, ∀ t ∈ o, t.isProper = true := by
      intro es hes o ho
      rw [Env.typesOf_eq_map] at ho
      obtain ⟨c, hc, rfl⟩ := mem_map.mp ho
      exact hoperand c (hes c hc)
    cases e with
    | int text =>
      simp only [Env.typeOf, Env.literalType] at ht
      obtain rfl := Option.some.inj ht
      split
      · split <;> rfl
      · rfl
    | float | bool =>
      simp only [Env.typeOf] at ht
      obtain rfl := Option.some.inj ht
      rfl
    | ident name =>
      rw [Env.typeOf] at ht
      exact h.lookup ht
    | unary op x =>
      rw [Env.typeOf] at ht
      split at ht
      · obtain rfl := Option.some.inj ht
        rfl
      · exact hoperand x (by simp [children]) t ht
    | binary op l r =>
      rw [Env.typeOf] at ht
      exact binaryType (hoperand l (by simp [children])) (hoperand r (by simp [children])) ht
    | assign op l r =>
      rw [Env.typeOf] at ht
      exact hoperand l (by simp [children]) t ht
    | conditional c x y =>
      rw [Env.typeOf, Option.or_eq_some_iff] at ht
      rcases ht with ht | ⟨-, ht⟩
      · exact hoperand x (by simp [children]) t ht
      · exact hoperand y (by simp [children]) t ht
    | call name args =>
      rw [Env.typeOf] at ht
      exact h.callType (htypes fun _ hc => hc) ht
    | construct type args =>
      rw [Env.typeOf] at ht
      obtain rfl := Option.some.inj ht
      exact ShaderType.isProper_sized (by simpa [isImproper] using hnode) _
    | field base name =>
      rw [Env.typeOf] at ht
      obtain ⟨u, -, ht⟩ := Option.bind_eq_some_iff.mp ht
      exact h.fieldType ht
    | index base position =>
      rw [Env.typeOf] at ht
      obtain ⟨u, hu, ht⟩ := Option.bind_eq_some_iff.mp ht
      exact elementType (hoperand base (by simp [children]) u hu) ht
    | comma items =>
      rw [Env.typeOf, Option.join_eq_some_iff] at ht
      exact htypes (fun _ hc => hc) _ (mem_of_getLast? ht) t rfl
    | deref | addrOf => cases hnode

theorem push (h : env.Proper) : env.push.Proper :=
  { h with scopes := forall_mem_cons.mpr ⟨forall_mem_nil _, h.scopes⟩ }

theorem declare (h : env.Proper) (name : String) (ht : t.isProper = true) :
    (env.declare name t).Proper := by
  unfold Env.declare
  split
  · rename_i s ss hscopes
    have hall := h.scopes
    rw [hscopes, forall_mem_cons] at hall
    exact { h with
      scopes := forall_mem_cons.mpr ⟨forall_mem_cons.mpr ⟨ht, hall.1⟩, hall.2⟩ }
  · exact h

theorem declareAll (h : env.Proper) {ds : List VarDecl} (hds : ∀ d ∈ ds, d.type.isProper = true) :
    (env.declareAll ds).Proper :=
  foldlRecOn ds _ h fun _ h d hd => h.declare d.name (hds d hd)

theorem declareParams (h : env.Proper) {ps : List Param} (hps : ∀ q ∈ ps, q.type.isProper = true) :
    (env.declareParams ps).Proper :=
  foldlRecOn ps _ h fun _ h q hq => h.declare q.name (hps q hq)

theorem declareStmt (h : env.Proper) {s : Stmt} (hs : s.Proper) : (env.declareStmt s).Proper := by
  cases s with
  | decl ds =>
    have hown := (Stmt.avoids_iff.mp hs).1
    exact h.declareAll (by simpa [Stmt.isImproper] using hown)
  | _ => exact h

theorem declareStmts (h : env.Proper) {ss : List Stmt} (hss : ∀ s ∈ ss, s.Proper) :
    (env.declareStmts ss).Proper :=
  foldlRecOn ss _ h fun _ h s hs => h.declareStmt (hss s hs)

theorem declareItem (h : env.Proper) {i : Item} (hi : i.Proper) : (env.declareItem i).Proper := by
  cases i with
  | struct d => exact { h with structs := forall_mem_cons.mpr ⟨hi, h.structs⟩ }
  | globals ds => exact h.declareAll fun d hd => (hi d hd).1
  | function f =>
    exact { h with
      functions := forall_mem_append.mpr ⟨h.functions, forall_mem_singleton.mpr hi.1⟩ }

theorem declareItems (h : env.Proper) {is : List Item} (his : ∀ i ∈ is, i.Proper) :
    (is.foldl Env.declareItem env).Proper :=
  foldlRecOn is _ h fun _ h i hi => h.declareItem (his i hi)

end Env.Proper

theorem UniformType.isProper_shaderType (t : UniformType) : t.shaderType.isProper = true := by
  cases t <;> decide

namespace Lowering.Setting

theorem isProper_hostTypes (st : Setting) : ∀ x ∈ st.hostTypes, x.2.isProper = true := by
  have hinput : ∀ kind t, inputType kind = some t → t.isProper = true := by
    intro kind t ht
    unfold inputType at ht
    split at ht
    · obtain rfl := Option.some.inj ht
      rfl
    · split at ht
      · obtain rfl := Option.some.inj ht
        rfl
      · obtain ⟨u, -, rfl⟩ := Option.map_eq_some_iff.mp ht
        exact u.isProper_shaderType
  simp only [hostTypes, forall_mem_append]
  refine ⟨⟨⟨by decide, fun x hx => ?_⟩, fun x hx => ?_⟩, fun x hx => ?_⟩
  · obtain ⟨i, -, hi⟩ := mem_filterMap.mp (mem_reverse.mp hx)
    obtain ⟨t, ht, rfl⟩ := Option.map_eq_some_iff.mp hi
    exact hinput i.kind t ht
  · obtain ⟨f, -, rfl⟩ := mem_map.mp hx
    exact f.2.isProper_shaderType
  · obtain ⟨name, -, rfl⟩ := mem_map.mp hx
    rfl

theorem proper_envFor (st : Setting) {p : Program} (hp : p.Proper) : (st.envFor p).Proper := by
  have hhost : (Env.ofHost st.hostTypes).Proper :=
    ⟨forall_mem_singleton.mpr (forall_mem_nil _), st.isProper_hostTypes,
      forall_mem_nil _, forall_mem_nil _⟩
  have hprogram : (Env.ofProgram p st.hostTypes).Proper := hhost.declareItems hp
  refine { hprogram with structs := forall_mem_cons.mpr ⟨fun m hm => ?_, hprogram.structs⟩ }
  obtain ⟨f, -, rfl⟩ := mem_map.mp hm
  exact f.type.isProper_shaderType

end Lowering.Setting

namespace Stmt

mutual

theorem Proper.places : ∀ {s : Stmt} {env : Env}, env.Proper → s.Proper →
    ∀ q ∈ s.places env, q.1.Proper
  | .block body, env, h, hs => by
    have hbody := (avoids_iff.mp hs).2.2
    exact forall_mem_cons.mpr ⟨h, Proper.placesAll h.push hbody⟩
  | .ifElse cond t f, env, h, hs => by
    obtain ⟨ht, hf⟩ := forall_mem_cons.mp (avoids_iff.mp hs).2.2
    exact forall_mem_cons.mpr
      ⟨h, forall_mem_append.mpr ⟨Proper.places h ht, Proper.placesOpt h hf⟩⟩
  | .forLoop start cond step body, env, h, hs => by
    obtain ⟨hstart, hbody⟩ := forall_mem_append.mp (avoids_iff.mp hs).2.2
    exact forall_mem_cons.mpr ⟨h, forall_mem_append.mpr
      ⟨Proper.placesOpt h.push hstart,
        Proper.places (h.push.declareStmts hstart) (forall_mem_singleton.mp hbody)⟩⟩
  | .whileLoop cond body, env, h, hs | .doWhile body cond, env, h, hs => by
    have hbody := forall_mem_singleton.mp (avoids_iff.mp hs).2.2
    exact forall_mem_cons.mpr ⟨h, Proper.places h hbody⟩
  | .loop body continuing breakIf, env, h, hs => by
    obtain ⟨hbody, hcont⟩ := forall_mem_append.mp (avoids_iff.mp hs).2.2
    exact forall_mem_cons.mpr ⟨h, forall_mem_append.mpr
      ⟨Proper.placesAll h.push hbody, Proper.placesAll (h.push.declareStmts hbody) hcont⟩⟩
  | .switch selector cases, env, h, hs =>
    forall_mem_cons.mpr ⟨h, Proper.placesCases h (avoids_iff.mp hs).2.2⟩
  | .decl _, env, h, _ | .expr _, env, h, _ | .ret _, env, h, _ | .breakOut, env, h, _
  | .continueOn, env, h, _ | .discard, env, h, _ | .empty, env, h, _ =>
    forall_mem_singleton.mpr h

theorem Proper.placesAll : ∀ {ss : List Stmt} {env : Env}, env.Proper → (∀ s ∈ ss, s.Proper) →
    ∀ q ∈ placesAll env ss, q.1.Proper
  | [], _, _, _ => forall_mem_nil _
  | s :: ss, env, h, hss => by
    obtain ⟨hs, hss⟩ := forall_mem_cons.mp hss
    exact forall_mem_append.mpr ⟨Proper.places h hs, Proper.placesAll (h.declareStmt hs) hss⟩

theorem Proper.placesOpt : ∀ {o : Option Stmt} {env : Env}, env.Proper →
    (∀ s ∈ o.toList, s.Proper) → ∀ q ∈ placesOpt env o, q.1.Proper
  | none, _, _, _ => forall_mem_nil _
  | some _, _, h, ho => Proper.places h (forall_mem_singleton.mp ho)

theorem Proper.placesCases : ∀ {cs : List Case} {env : Env}, env.Proper →
    (∀ s ∈ cs.flatMap Case.body, s.Proper) → ∀ q ∈ placesCases env cs, q.1.Proper
  | [], _, _, _ => forall_mem_nil _
  | .mk labels body :: cs, env, h, hcs => by
    rw [flatMap_cons, forall_mem_append] at hcs
    exact forall_mem_append.mpr
      ⟨Proper.placesAll h.push hcs.1, Proper.placesCases h hcs.2⟩

end

/-- Where only proper types are named, the expressions of a statement name only proper types, and
only such types are declared around them. -/
theorem Proper.sites {s : Stmt} {env : Env} (h : env.Proper) (hs : s.Proper) (result : ShaderType) :
    ∀ q ∈ s.sites result env, q.env.Proper ∧ (q.role ≠ .label → q.expr.Proper) := by
  obtain ⟨-, hoperands, hchildren⟩ := avoids_iff.mp hs
  intro q hq
  cases s with
  | decl ds =>
    obtain ⟨d, hd, hq⟩ := mem_flatMap.mp hq
    obtain ⟨e, he, rfl⟩ := mem_map.mp hq
    exact ⟨h, fun _ => hoperands e (mem_filterMap.mpr ⟨d, hd, Option.mem_toList.mp he⟩)⟩
  | expr e | ifElse e | whileLoop e | doWhile _ e =>
    obtain rfl := mem_singleton.mp hq
    exact ⟨h, fun _ => hoperands e (mem_singleton_self e)⟩
  | forLoop start cond step body =>
    obtain ⟨e, he, rfl⟩ := mem_map.mp hq
    obtain ⟨hstart, -⟩ := forall_mem_append.mp hchildren
    exact ⟨h.push.declareStmts hstart, fun _ => hoperands e he⟩
  | loop body continuing breakIf =>
    obtain ⟨e, he, rfl⟩ := mem_map.mp hq
    obtain ⟨hbody, hcont⟩ := forall_mem_append.mp hchildren
    exact ⟨(h.push.declareStmts hbody).declareStmts hcont, fun _ => hoperands e he⟩
  | switch selector cases =>
    rcases mem_cons.mp hq with rfl | hq
    · exact ⟨h, fun _ => hoperands selector (mem_singleton_self _)⟩
    grind
  | ret value =>
    obtain ⟨e, he, rfl⟩ := mem_map.mp hq
    exact ⟨h, fun _ => hoperands e he⟩
  | block | breakOut | continueOn | discard | empty => cases hq

end Stmt

/-- **Every expression of a program with proper types stands where only proper types are declared.** -/
theorem Program.Proper.sites {p : Program} (hp : p.Proper) {env : Env} (h : env.Proper) :
    ∀ q ∈ p.sites env, q.env.Proper ∧ (q.role ≠ .label → q.expr.Proper) := by
  intro q hq
  obtain ⟨i, hi, hq⟩ := mem_flatMap.mp hq
  have hitem := hp i hi
  cases i with
  | struct => cases hq
  | globals ds =>
    obtain ⟨d, hd, hq⟩ := mem_flatMap.mp hq
    obtain ⟨e, he, rfl⟩ := mem_map.mp hq
    exact ⟨h, fun _ => (hitem d hd).2 e he⟩
  | function f =>
    obtain ⟨place, hplace, hq⟩ := mem_flatMap.mp hq
    obtain ⟨-, hparams, hbody⟩ := hitem
    have henv := Stmt.Proper.placesAll (h.push.declareParams hparams).push hbody place hplace
    obtain ⟨s, hs, hsub⟩ := Stmt.exists_mem_substmts hplace
    have hstmt : place.2.Proper := fun t ht =>
      hbody s hs t (Stmt.substmts_trans hsub ht)
    exact Stmt.Proper.sites henv hstmt f.returns q hq

end ShaderEffect
