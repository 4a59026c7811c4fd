import ShaderEffect.Lowering.EntryPoint
import ShaderEffect.Lowering.GlobalInit
import ShaderEffect.Proofs.Walk

/-!
# Initial values that wait for the entry point

A global keeps an initial value that is constant, given the named constants before it; all other
initial values are assigned at the start of the entry point. `Deferral` follows the globals of a
program in order and says which of them are moved.
-/

namespace ShaderEffect

open List Walker

def Item.decls : Item → List VarDecl
  | .globals ds => ds
  | _ => []

def Program.globals (p : Program) : List VarDecl :=
  p.items.flatMap Item.decls

namespace Lowering

/-- The assignment that an initial value becomes. -/
def initialisation (d : VarDecl) : Option Stmt :=
  d.init.map fun e => .expr (.assign none (.ident d.name) e)

/-! ## Globals in their order -/

variable {functions consts : List String} {d : VarDecl} {ds ks moved : List VarDecl}

/-- The named constants after a global that stays. -/
def constsAfter (consts : List String) (d : VarDecl) : List String :=
  if d.storage == .const && d.init.isSome then d.name :: consts else consts

/-- Which globals are moved, given the named constants before them: their list, what is left of it,
and those whose initial values are assigned later. -/
inductive Deferral (functions : List String) :
    List String → List VarDecl → List VarDecl → List VarDecl → Prop
  | nil {consts : List String} : Deferral functions consts [] [] []
  | stays {consts : List String} {d : VarDecl} {ds ks moved : List VarDecl}
      (constant : ∀ e ∈ d.init, isConstant consts functions e = true)
      (rest : Deferral functions (constsAfter consts d) ds ks moved) :
      Deferral functions consts (d :: ds) (d :: ks) moved
  | moves {consts : List String} {d : VarDecl} {ds ks moved : List VarDecl}
      (init : d.init.isSome = true) (rest : Deferral functions consts ds ks moved) :
      Deferral functions consts (d :: ds) (withoutInit d :: ks) (d :: moved)

theorem deferInit_cases (functions consts : List String) (d : VarDecl) (s : State) :
    ((∀ e ∈ d.init, isConstant consts functions e = true) ∧
        deferInit functions consts d s = ((d, constsAfter consts d), s)) ∨
      d.init.isSome = true ∧ (deferInit functions consts d s).1 = (withoutInit d, consts) ∧
        (deferInit functions consts d s).2.deferred = s.deferred ++ (initialisation d).toList := by
  unfold deferInit
  cases hinit : d.init with
  | none =>
    have hconsts : constsAfter consts d = consts := by simp [constsAfter, hinit]
    rw [hconsts]
    exact .inl ⟨fun _ => by simp, rfl⟩
  | some e =>
    have hconsts : constsAfter consts d = if d.storage == .const then d.name :: consts else consts := by
      simp [constsAfter, hinit]
    have hassign : (initialisation d).toList = [.expr (.assign none (.ident d.name) e)] := by
      simp [initialisation, hinit]
    rw [hconsts, hassign]
    by_cases hconst : isConstant consts functions e = true
    · refine .inl ⟨fun _ he => Option.some.inj he ▸ hconst, ?_⟩
      simp only [hconst, if_true]
      rfl
    · refine .inr ⟨rfl, ?_⟩
      by_cases hs : (d.storage == .const) = true <;> simp only [hconst, hs] <;> exact ⟨rfl, rfl⟩

theorem deferInits_cons (functions consts : List String) (d : VarDecl) (ds : List VarDecl)
    (a : State) :
    deferInits functions consts (d :: ds) a =
      let x := deferInit functions consts d a
      let y := deferInits functions x.1.2 ds x.2
      ((x.1.1 :: y.1.1, y.1.2), y.2) := rfl

theorem deferral_deferInits (functions : List String) (ds : List VarDecl) (consts : List String)
    (s : State) : ∃ moved, Deferral functions consts ds (deferInits functions consts ds s).1.1 moved ∧
      (deferInits functions consts ds s).2.deferred =
        s.deferred ++ moved.filterMap initialisation := by
  induction ds generalizing consts s with
  | nil => exact ⟨[], .nil, (append_nil _).symm⟩
  | cons d ds ih =>
    obtain ⟨moved, hrest, hdeferred⟩ := ih (deferInit functions consts d s).1.2
      (deferInit functions consts d s).2
    rw [deferInits_cons]
    dsimp only
    rcases deferInit_cases functions consts d s with ⟨hconst, heq⟩ | ⟨hinit, hfst, hsnd⟩
    · rw [heq] at hrest hdeferred ⊢
      exact ⟨moved, .stays hconst hrest, hdeferred⟩
    · rw [hsnd, hfst, append_assoc] at hdeferred
      rw [hfst] at hrest ⊢
      refine ⟨d :: moved, .moves hinit hrest, hdeferred.trans (congrArg _ ?_)⟩
      cases h : initialisation d <;> simp [h]

theorem deferInits_append (functions : List String) (ds es : List VarDecl) (consts : List String)
    (s : State) :
    deferInits functions consts (ds ++ es) s =
      let x := deferInits functions consts ds s
      let y := deferInits functions x.1.2 es x.2
      ((x.1.1 ++ y.1.1, y.1.2), y.2) := by
  induction ds generalizing consts s with
  | nil => rfl
  | cons d ds ih =>
    grind [deferInits_cons]

theorem deferItems_eq (functions : List String) (is : List Item) (consts : List String) (s : State) :
    (deferItems functions consts is s).1.flatMap Item.decls =
        (deferInits functions consts (is.flatMap Item.decls) s).1.1 ∧
      (deferItems functions consts is s).2 =
        (deferInits functions consts (is.flatMap Item.decls) s).2 := by
  induction is generalizing consts s with
  | nil => exact ⟨rfl, rfl⟩
  | cons i is ih =>
    cases i with
    | struct | function => exact ih consts s
    | globals ds =>
      obtain ⟨hdecls, hstate⟩ := ih (deferInits functions consts ds s).1.2
        (deferInits functions consts ds s).2
      rw [flatMap_cons, Item.decls, deferInits_append]
      exact ⟨congrArg (_ ++ ·) hdecls, hstate⟩

theorem functions_deferItems (functions : List String) : ∀ (is : List Item)
    (consts : List String) (a : State),
    (deferItems functions consts is a).1.filterMap Item.function? = is.filterMap Item.function?
  | [], _, _ => rfl
  | .globals _ :: is, _, _ => functions_deferItems functions is _ _
  | .struct _ :: is, _, _ => functions_deferItems functions is _ _
  | .function f :: is, consts, a => congrArg (f :: ·) (functions_deferItems functions is consts a)

namespace Deferral

theorem sublist (h : Deferral functions consts ds ks moved) : moved.Sublist ds := by
  induction h with
  | nil => exact .slnil
  | stays _ _ ih => exact ih.cons _
  | moves _ _ ih => exact ih.cons_cons _

theorem mem_kept (h : Deferral functions consts ds ks moved) : ∀ k ∈ ks, k ∈ ds ∨ k.init = none := by
  induction h with
  | nil => exact forall_mem_nil _
  | stays _ _ ih =>
    grind
  | moves _ _ ih =>
    exact forall_mem_cons.mpr ⟨.inr rfl, fun k hk => (ih k hk).imp_left (mem_cons_of_mem _)⟩

end Deferral

/-! ## The entry point -/

theorem mapFirst_cases (test : Function → Bool) (g : Function → Function) (is : List Item) :
    (mapFirst test g is = is ∧ ∀ f, .function f ∈ is → test f = false) ∨
      ∃ before f after, is = before ++ .function f :: after ∧ test f = true ∧
        (∀ f, .function f ∈ before → test f = false) ∧
        mapFirst test g is = before ++ .function (g f) :: after := by
  induction is with
  | nil => exact .inl ⟨rfl, by simp⟩
  | cons i is ih =>
    by_cases hfirst : ∃ f, i = .function f ∧ test f = true
    · obtain ⟨f, rfl, hf⟩ := hfirst
      exact .inr ⟨[], f, is, rfl, hf, by simp, if_pos hf⟩
    · have hi : ∀ f, .function f = i → test f = false := by
        rintro f rfl
        simpa using hfirst
      have hmap : mapFirst test g (i :: is) = i :: mapFirst test g is := by
        cases i with
        | struct | globals => rfl
        | function f => exact if_neg (by simp [hi f rfl])
      grind

theorem mem_functions {is : List Item} {f : Function} :
    f ∈ is.filterMap Item.function? ↔ .function f ∈ is := by
  rw [mem_filterMap]
  constructor
  · rintro ⟨i, hi, hf⟩
    cases i with
    | struct | globals => cases hf
    | function =>
      cases hf
      exact hi
  · exact fun h => ⟨_, h, rfl⟩

section Entry

variable {p : Program}

/-- The program has a function marked as entry point. -/
abbrev HasEntry (p : Program) : Prop :=
  p.functions.any Function.isEntry = true

theorem makeEntryPoint_of_main (st : Setting) (s : State)
    (hentry : ¬ p.functions.any Function.isEntry = true) (hmain : p.functions.any isMain = true) :
    (makeEntryPoint st p s).1 =
      { items := mapFirst isMain (asEntry (prologue ++ s.deferred)) p.items } := by
  unfold makeEntryPoint
  rw [if_neg hentry]
  simp only [run_bind]
  rw [if_pos hmain]
  rfl

theorem makeEntryPoint_without_main (st : Setting) (s : State)
    (hentry : ¬ p.functions.any Function.isEntry = true) (hmain : ¬ p.functions.any isMain = true) :
    (makeEntryPoint st p s).1 = { items := p.items ++ [.function {
      name := Wgsl.entryPoint
      returns := .vec 4
      params := []
      body := prologue ++ s.deferred ++ (entryWithoutMain p { s with deferred := [] }).1
      isEntry := true }] } := by
  unfold makeEntryPoint
  rw [if_neg hentry]
  simp only [run_bind]
  rw [if_neg hmain]
  rfl

theorem makeEntryPoint_of_hasEntry (st : Setting) (s : State) (h : HasEntry p) :
    makeEntryPoint st p s = (p, s) := by
  unfold makeEntryPoint
  rw [if_pos h]
  rfl

end Entry

end Lowering

end ShaderEffect
