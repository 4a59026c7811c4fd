import ShaderEffect.Proofs.Evaluation

/-!
# Assignments to lanes

An assignment to several lanes of a vector becomes an assignment to the whole vector. Lanes that follow
each other are replaced as a run, between the lanes before and behind them, and scattered lanes one by
one. On any machine, **the statements leave the value in the lanes, in the order of the letters, the old
components in all other lanes, and everything else as it was but for a temporary**
(`ends_lowerLanes`).
-/

namespace ShaderEffect

open Lowering List

/-! ## Letters -/

theorem laneIndex_laneLetter {l : Nat} (h : l < 4) : laneIndex (laneLetter l) = l := by
  grind [laneIndex, laneLetter]

theorem laneLetter_mem (l : Nat) : laneLetter l ∈ ['x', 'y', 'z', 'w'] := by
  unfold laneLetter
  split <;> decide

theorem lanes_usual {lanes : List Nat} (hne : lanes ≠ []) (hcount : lanes.length ≤ 4)
    (h : ∀ l ∈ lanes, l < 4) :
    (Part.field (String.ofList (lanes.map laneLetter))).lanes = some lanes := by
  have hindex : (lanes.map laneLetter).map laneIndex = lanes := by
    rw [map_map]
    exact (map_congr_left fun l hl => laneIndex_laneLetter (h l hl)).trans (map_id _)
  have hswizzle : isSwizzle (String.ofList (lanes.map laneLetter)) = true := by
    have hletters : (lanes.map laneLetter).all ['x', 'y', 'z', 'w'].contains = true := by
      grind [all_map, laneLetter_mem]
    have hset : (laneSets.any fun set => (lanes.map laneLetter).all set.contains) = true :=
      any_eq_true.mpr ⟨_, mem_cons_self, hletters⟩
    simp only [isSwizzle, String.toList_ofList, hset]
    simp [hne, hcount]
  rw [Part.lanes, if_pos hswizzle, String.toList_ofList, hindex]

section Lanes

variable {κ : Type}

theorem pick_range' (xs : List κ) {start count : Nat} (h : start + count ≤ xs.length) :
    pick xs (List.range' start count) = some ((xs.drop start).take count) := by
  refine pick_eq_some_iff.mpr (ext_getElem? fun k => ?_)
  grind

theorem two_le_of_areTargets {width : Nat} {lanes : List Nat} (h : areTargets width lanes = true)
    (hmany : 2 ≤ lanes.length) : 2 ≤ width := by
  obtain ⟨hlt, hnodup⟩ := areTargets_iff.mp h
  cases lanes with
  | nil => cases hmany
  | cons l ls =>
    cases ls with
    | nil => exact absurd hmany (by simp)
    | cons l' ls =>
      grind [mem_cons_self]

theorem map_overwrite {ι : Type} (f : κ → ι) (xs : List κ) (lanes : List Nat) (vs : List κ) :
    (overwrite xs lanes vs).map f = overwrite (xs.map f) lanes (vs.map f) := by
  refine ext_getElem? fun i => ?_
  rw [getElem?_map, getElem?_overwrite, getElem?_overwrite, getElem?_map]
  cases xs[i]? with
  | none => rfl
  | some x =>
    cases lanes.idxOf? i with
    | none => rfl
    | some k =>
      grind

theorem overwrite_range' (xs vs : List κ) {start : Nat} (h : start + vs.length ≤ xs.length) :
    overwrite xs (List.range' start vs.length) vs =
      xs.take start ++ vs ++ xs.drop (start + vs.length) := by
  have htargets : areTargets xs.length (range' start vs.length) = true := by
    grind [areTargets_iff]
  have hlength : vs.length = (range' start vs.length).length := length_range'.symm
  have htake : (xs.take start).length = start := by rw [length_take]; omega
  rw [append_assoc]
  refine ext_getElem? fun i => ?_
  grind [getElem?_overwrite_lane, getElem?_overwrite_other, Nat.lt_or_ge]

end Lanes

/-! ## Whole vectors -/

namespace Datum

variable {κ : Type} {d : Datum κ}

theorem components_ofComponents (cs : List κ) : (ofComponents cs).components = some cs := by
  unfold ofComponents
  split <;> rfl

theorem exists_vector_of_part {xs : List κ} {name : String} (hname : isSwizzle name = true)
    (hmany : 2 ≤ name.toList.length) (h : (vector xs).part (.field name) = some d) :
    ∃ us, d = .vector us := by
  rw [part, Part.lanes, if_pos hname, Option.bind_some, Option.map_eq_some_iff] at h
  obtain ⟨us, hus, rfl⟩ := h
  have hlength := length_of_pick hus
  rw [length_map] at hlength
  refine ⟨us, ?_⟩
  unfold ofComponents
  grind

/-- The components that a value puts into lanes: its own, or a single one in all of them. -/
def spread (count : Nat) : Datum κ → Option (List κ)
  | .scalar c => some (List.replicate count c)
  | .vector cs => if cs.length = count then some cs else none
  | _ => none

theorem eq_vector_of_spread {count : Nat} {vs : List κ} (h : d.spread count = some vs)
    (hd : d.isScalar = false) : d = .vector vs := by
  cases d with
  | vector cs =>
    rw [spread] at h
    split at h
    · cases h
      rfl
    · cases h
  | scalar => cases hd
  | whole | pointer => cases h

theorem length_spread {count : Nat} {vs : List κ} (h : d.spread count = some vs) :
    vs.length = count := by
  cases d with
  | scalar c =>
    cases h
    exact length_replicate
  | vector cs =>
    grind [spread]
  | whole | pointer => cases h

theorem gather_eq {width : Nat} (hwidth : 2 ≤ width) {ds : List (Datum κ)} {css : List (List κ)}
    (h : ds.mapM components = some css) (hlength : css.flatten.length = width) :
    gather width ds = some css.flatten := by
  unfold gather
  split
  · cases h
    have hone : 1 = width := hlength
    omega
  · rw [h, Option.bind_some, if_pos hlength]

end Datum

namespace Machine

variable {κ : Type} {M : Machine κ} {sc : Bindings} {m m₁ : Memory κ} {d : Datum κ} {name : String}
  {isScalar : Bool} {value rhs : Expr} {width count start : Nat} {op : Option BinOp}
  {lanes : List Nat} {env : Env}

/-- Operands that only read, and the components of their values. -/
inductive Gives (M : Machine κ) (sc : Bindings) (m : Memory κ) : List Expr → List κ → Prop
  | nil : Gives M sc m [] []
  | cons {e : Expr} {d : Datum κ} {es : List Expr} {cs cs' : List κ} :
      M.eval sc e m = some (d, m) → d.components = some cs → Gives M sc m es cs' →
      Gives M sc m (e :: es) (cs ++ cs')

namespace Gives

variable {cs : List κ} {es : List Expr}

theorem single {e : Expr} (he : M.eval sc e m = some (d, m)) (hd : d.components = some cs) :
    Gives M sc m [e] cs := by
  simpa using Gives.cons he hd .nil

theorem append {es' : List Expr} {cs' : List κ} (h : Gives M sc m es cs)
    (h' : Gives M sc m es' cs') : Gives M sc m (es ++ es') (cs ++ cs') := by
  induction h with
  | nil => exact h'
  | cons he hd _ ih =>
    rw [cons_append, append_assoc]
    exact .cons he hd ih

theorem of_scalars (h : List.Forall₂ (fun e c => M.eval sc e m = some (.scalar c, m)) es cs) :
    Gives M sc m es cs := by
  induction h with
  | nil => exact .nil
  | cons he _ ih => exact .cons he rfl ih

theorem evalAll (h : Gives M sc m es cs) :
    ∃ ds css, M.evalAll sc es m = some (ds, m) ∧ ds.mapM Datum.components = some css ∧
      css.flatten = cs := by
  induction h with
  | nil => exact ⟨[], [], by rw [Machine.evalAll], rfl, rfl⟩
  | cons he hd _ ih =>
    obtain ⟨ds, css, hds, hcss, rfl⟩ := ih
    refine ⟨_, _ :: css, evalAll_cons_iff.mpr ⟨_, m, ds, he, hds, rfl⟩, ?_, rfl⟩
    rw [mapM_cons, hd, hcss]
    rfl

end Gives

theorem eval_vector {k : Scalar} (hwidth : 2 ≤ width) {es : List Expr} {cs : List κ}
    (h : Gives M sc m es cs) (hcs : cs.length = width) :
    M.eval sc (.construct (.vector k width) es) m = some (.vector (cs.map (M.cast k)), m) := by
  obtain ⟨ds, css, hds, hcss, rfl⟩ := h.evalAll
  grind [eval_construct_iff, construct, Datum.gather_eq]

theorem eval_lanesFrom {base : Expr} {xs : List κ}
    (hbase : M.eval sc base m = some (.vector xs, m)) (hwidth : xs.length ≤ 4) (hcount : 0 < count)
    (h : start + count ≤ xs.length) :
    M.eval sc (lanesFrom base start count) m =
      some (.ofComponents ((xs.drop start).take count), m) := by
  have hlanes : (Part.field (String.ofList ((range' start count).map laneLetter))).lanes =
      some (range' start count) := by
    grind [lanes_usual]
  refine eval_field_iff.mpr ⟨.vector xs, hbase, ?_⟩
  grind [Datum.part, pick_range']

theorem eval_lane {e : Expr} {vs : List κ} (he : M.eval sc e m = some (.vector vs, m)) {k : Nat}
    (hk : k < 4) {c : κ} (hc : vs[k]? = some c) :
    M.eval sc (.field e (laneLetter k).toString) m = some (.scalar c, m) := by
  have hname : (laneLetter k).toString = String.ofList ([k].map laneLetter) :=
    String.toList_inj.mp (by simp)
  have hlanes : (Part.field (laneLetter k).toString).lanes = some [k] := by
    grind [lanes_usual]
  have hpick : pick vs [k] = some [c] := pick_eq_some_iff.mpr (by simp [hc])
  refine eval_field_iff.mpr ⟨.vector vs, he, ?_⟩
  rw [Datum.part, hlanes, Option.bind_some, hpick]
  rfl

section

variable {base : Expr} {xs : List κ} (hbase : M.eval sc base m = some (.vector xs, m))
include hbase

/-- **A run of lanes is replaced**, between the lanes before and behind it. -/
theorem eval_replaceRun {k : Scalar} {vs : List κ} (hwide : 2 ≤ xs.length) (hwidth : xs.length ≤ 4)
    (hvalue : M.eval sc value m = some (d, m)) (hd : d.components = some vs)
    (h : start + vs.length ≤ xs.length) :
    M.eval sc (replaceRun base k xs.length start vs.length value) m =
      some (.vector ((overwrite xs (List.range' start vs.length) vs).map (M.cast k)), m) := by
  rw [overwrite_range' xs vs h]
  refine eval_vector hwide (Gives.append (Gives.append ?_ (.single hvalue hd)) ?_) ?_
  · split
    · rename_i hstart
      have hhead := eval_lanesFrom hbase hwidth hstart (show 0 + start ≤ xs.length by omega)
      rw [drop_zero] at hhead
      exact .single hhead (Datum.components_ofComponents _)
    · rename_i hstart
      obtain rfl : start = 0 := by omega
      exact .nil
  · split
    · rename_i htail
      have hrest := eval_lanesFrom hbase hwidth (Nat.sub_pos_of_lt htail)
        (Nat.le_of_eq (Nat.add_sub_of_le (Nat.le_of_lt htail)))
      rw [take_of_length_le (Nat.le_of_eq length_drop)] at hrest
      exact .single hrest (Datum.components_ofComponents _)
    · rename_i htail
      rw [drop_of_length_le (by omega)]
      exact .nil
  · simp only [length_append, length_take, length_drop]
    omega

/-- **Scattered lanes are replaced** one by one. -/
theorem eval_replaceScattered {k : Scalar} {vs : List κ} (hwide : 2 ≤ xs.length)
    (hwidth : xs.length ≤ 4) (hcount : lanes.length ≤ 4)
    (hlanes : areTargets xs.length lanes = true) (hvalue : M.eval sc value m = some (d, m))
    (hscalar : isScalar = d.isScalar) (hd : d.spread lanes.length = some vs) :
    M.eval sc (replaceScattered base k xs.length lanes isScalar value) m =
      some (.vector ((overwrite xs lanes vs).map (M.cast k)), m) := by
  refine eval_vector hwide (.of_scalars (forall₂_iff_get.mpr ⟨?_, fun i hi hi' => ?_⟩)) ?_
  · simp
  · have hlt : i < xs.length := by simpa using hi
    have hy : (overwrite xs lanes vs)[i]? = some ((overwrite xs lanes vs).get ⟨i, hi'⟩) :=
      getElem?_eq_getElem hi'
    generalize (overwrite xs lanes vs).get ⟨i, hi'⟩ = y at hy
    simp only [get_eq_getElem, getElem_map, getElem_range]
    cases hk : lanes.idxOf? i with
    | none =>
      rw [getElem?_overwrite_other _ _ (idxOf?_eq_none_iff.mp hk)] at hy
      have hone := eval_lanesFrom hbase hwidth Nat.one_pos (Nat.succ_le_of_lt hlt)
      rw [take_one, head?_drop, hy] at hone
      exact hone
    | some k =>
      obtain ⟨hklt, hkeq, -⟩ := List.idxOf?_eq_some_iff.mp hk
      rw [getElem?_overwrite_lane hlanes (Datum.length_spread hd)
        (List.getElem?_eq_some_iff.mpr ⟨hklt, hkeq⟩)] at hy
      cases d with
      | scalar c =>
        cases hd
        obtain rfl : c = y := by
          grind
        rw [hscalar]
        exact hvalue
      | vector cs =>
        rw [Datum.spread] at hd
        split at hd
        · cases hd
          rw [hscalar]
          exact eval_lane hvalue (Nat.lt_of_lt_of_le hklt hcount) hy
        · cases hd
      | whole | pointer => cases hd
  · simp

end

/-! ## Assignments to the whole vector -/

variable {dialect : Dialect} {base : Expr} {k : Scalar} {place : Address} {xs vs : List κ}

/-- The expression leads to a place that holds a vector with components of a type and can be assigned
to. -/
structure HoldsVector (M : Machine κ) (sc : Bindings) (m : Memory κ) (base : Expr) (k : Scalar)
    (place : Address) (xs : List κ) : Prop where
  pure : base.isPureTarget = true
  leads : M.target sc base m = some (place, m)
  holds : m.read place = some (.vector xs)
  typed : ∀ x ∈ xs, M.cast k x = x
  writable : (m.write place (.vector xs)).isSome = true

namespace HoldsVector

variable (h : HoldsVector M sc m base k place xs)
include h

theorem eval {sc' : Bindings} (hsame : SameNames base sc sc') (new : Memory κ) :
    M.eval sc' base (m ++ new) = some (.vector xs, m ++ new) :=
  (eval_pure (.inl h.pure) (eval_of_target h.pure h.leads h.holds)).2 sc' new hsame

theorem map_cast_overwrite (lanes : List Nat) (vs : List κ) :
    (overwrite xs lanes vs).map (M.cast k) = overwrite xs lanes (vs.map (M.cast k)) := by
  rw [map_overwrite, map_congr_left h.typed, map_id']

theorem ends_assign {sc' : Bindings} {new : Memory κ} (hsame : SameNames base sc sc') {e : Expr}
    {ys : List κ} (he : M.eval sc' e (m ++ new) = some (.vector ys, m ++ new))
    (hwrite : m.write place (.vector ys) = some m₁) :
    M.Ends dialect [.expr (.assign none base e)] (sc', m ++ new) (sc', m₁ ++ new) :=
  ends_expr (eval_assign_iff.mpr ⟨place, _, _, _, (target_pure h.pure h.leads).2 sc' new hsame, he, rfl,
    Memory.write_append hwrite new⟩)

end HoldsVector

theorem map_cast_cast (cs : List κ) : (cs.map (M.cast k)).map (M.cast k) = cs.map (M.cast k) := by
  rw [map_map]
  exact map_congr_left fun c _ => M.cast_cast k c

theorem eval_middle (hvalue : M.eval sc value m = some (d, m)) (hd : d.spread count = some vs)
    (hscalar : isScalar = d.isScalar) :
    ∃ ws, M.eval sc (if isScalar then .construct (.vector k count) [value] else value) m =
        some (.vector ws, m) ∧ ws.map (M.cast k) = vs.map (M.cast k) := by
  cases d with
  | scalar c =>
    cases hd
    refine ⟨(replicate count c).map (M.cast k), ?_, map_cast_cast _⟩
    rw [hscalar]
    refine eval_construct_iff.mpr ⟨[.scalar c], ?_, rfl⟩
    exact evalAll_cons_iff.mpr ⟨_, m, [], hvalue, by rw [evalAll], rfl⟩
  | vector cs =>
    rw [Datum.spread] at hd
    split at hd
    · cases hd
      rw [hscalar]
      exact ⟨vs, hvalue, rfl⟩
    · cases hd
  | whole | pointer => cases hd

theorem spread_heldAs (hd : d.spread count = some vs) (hscalar : isScalar = d.isScalar) :
    (M.heldAs (if isScalar then .scalar k else .vector k count) d).spread count =
        some (vs.map (M.cast k)) ∧
      (M.heldAs (if isScalar then .scalar k else .vector k count) d).isScalar = d.isScalar := by
  cases d with
  | scalar c =>
    cases hd
    rw [hscalar]
    exact ⟨by simp [Datum.isScalar, heldAs, Datum.spread], rfl⟩
  | vector cs =>
    grind [Datum.spread, Datum.isScalar, heldAs]
  | whole | pointer => cases hd

section

variable (h : HoldsVector M sc m base k place xs)
include h

theorem ends_run (hwidth : xs.length ≤ 4) (hmany : 2 ≤ count)
    (hlanes : areTargets xs.length (List.range' start count) = true)
    (hvalue : M.eval sc value m = some (d, m)) (hd : d.spread count = some vs)
    (hscalar : isScalar = d.isScalar)
    (hwrite : m.write place (.vector (overwrite xs (List.range' start count) (vs.map (M.cast k))))
      = some m₁) :
    M.Ends dialect [.expr (.assign none base (replaceRun base k xs.length start count
      (if isScalar then .construct (.vector k count) [value] else value)))] (sc, m) (sc, m₁) := by
  have hsame : SameNames base sc sc := fun _ _ => rfl
  have hbase : M.eval sc base m = some (.vector xs, m) := by simpa using h.eval hsame []
  obtain ⟨ws, hws, hcast⟩ := eval_middle hvalue hd hscalar
  have hcount : ws.length = count := by
    rw [← Datum.length_spread hd, ← length_map (M.cast k), hcast, length_map]
  subst hcount
  have hlast : start + ws.length ≤ xs.length := by
    have hmem : start + (ws.length - 1) ∈ range' start ws.length :=
      mem_range'_1.mpr ⟨Nat.le_add_right .., by omega⟩
    have hlt := (areTargets_iff.mp hlanes).1 _ hmem
    omega
  have hvector := eval_replaceRun (k := k) hbase (two_le_of_areTargets hlanes (by simpa using hmany))
    hwidth hws rfl hlast
  rw [h.map_cast_overwrite, hcast] at hvector
  rw [← append_nil m] at hvector ⊢
  rw [← append_nil m₁]
  exact h.ends_assign hsame hvector hwrite

theorem ends_scattered (hwidth : xs.length ≤ 4) (hmany : 2 ≤ lanes.length)
    (hcount : lanes.length ≤ 4) (hlanes : areTargets xs.length lanes = true) {sc' : Bindings}
    (hsame : SameNames base sc sc') {new : Memory κ}
    (hvalue : M.eval sc' value (m ++ new) = some (d, m ++ new))
    (hd : d.spread lanes.length = some vs) (hscalar : isScalar = d.isScalar)
    (hwrite : m.write place (.vector (overwrite xs lanes (vs.map (M.cast k)))) = some m₁) :
    M.Ends dialect [.expr (.assign none base (replaceScattered base k xs.length lanes isScalar value))]
      (sc', m ++ new) (sc', m₁ ++ new) := by
  have hvector := eval_replaceScattered (k := k) (h.eval hsame new)
    (two_le_of_areTargets hlanes hmany) hwidth hcount hlanes hvalue hscalar hd
  rw [h.map_cast_overwrite] at hvector
  exact h.ends_assign hsame hvector hwrite

theorem ends_held (hwidth : xs.length ≤ 4) (hmany : 2 ≤ lanes.length) (hcount : lanes.length ≤ 4)
    (hlanes : areTargets xs.length lanes = true) (hvalue : M.eval sc value m = some (d, m))
    (hd : d.spread lanes.length = some vs) (hscalar : isScalar = d.isScalar) {type : ShaderType}
    (htype : type = if isScalar then .scalar k else .vector k lanes.length)
    (hfresh : .ident name ∉ base.subexprs)
    (hwrite : m.write place (.vector (overwrite xs lanes (vs.map (M.cast k)))) = some m₁) :
    ∃ sc' new, M.Ends dialect
        [.decl [{ storage := .const, type := type, name := name, init := some value }],
          .expr (.assign none base (replaceScattered base k xs.length lanes isScalar (.ident name)))]
        (sc, m) (sc', m₁ ++ new) ∧ (∀ x, x ≠ name → sc' x = sc x) ∧ new.length ≤ 1 := by
  obtain ⟨hspread, hkind⟩ := spread_heldAs (M := M) (k := k) hd hscalar
  rw [← htype] at hspread hkind
  have hdecl : M.declare { storage := .const, type := type, name := name, init := some value } sc m =
      some (Function.update sc name (some m.length), m ++ [M.heldAs type d]) := by
    rw [declare, Option.elim_some, hvalue]
    rfl
  have hother : ∀ x, x ≠ name → Function.update sc name (some m.length) x = sc x :=
    fun x hx => Function.update_of_ne hx ..
  have hsame : SameNames base sc (Function.update sc name (some m.length)) :=
    fun x hx => hother x fun heq => hfresh (heq ▸ hx)
  have hread : M.eval (Function.update sc name (some m.length)) (.ident name)
      (m ++ [M.heldAs type d]) = some (M.heldAs type d, m ++ [M.heldAs type d]) :=
    eval_ident_iff.mpr ⟨rfl, m.length, Function.update_self .., getElem?_concat_length⟩
  rw [← map_cast_cast] at hwrite
  exact ⟨_, [M.heldAs type d], (ends_decl hdecl).append (ends_scattered h hwidth hmany hcount hlanes
    hsame hread hspread (hscalar.trans hkind.symm) hwrite), hother, Nat.le_refl 1⟩

end

def heldName (a : State) : String :=
  tempName .swz a.temps.length

theorem ends_assignLanes (h : HoldsVector M sc m base k place xs) (hwidth : xs.length ≤ 4)
    (env : Env) (hmany : 2 ≤ name.toList.length) (hcount : name.toList.length ≤ 4)
    (hlanes : areTargets xs.length (name.toList.map laneIndex) = true)
    (hvalue : M.eval sc value m = some (d, m))
    (hscalar : (env.typeOf value).any ShaderType.isScalar = d.isScalar)
    (hd : d.spread name.toList.length = some vs) (a : State)
    (hfresh : .ident (heldName a) ∉ base.subexprs)
    (hwrite : m.write place (.vector (overwrite xs (name.toList.map laneIndex) (vs.map (M.cast
      k)))) = some m₁) :
    ∃ sc' new, M.Ends dialect (assignLanes env base name k xs.length value a).1 (sc, m)
        (sc', m₁ ++ new) ∧ (∀ x, x ≠ heldName a → sc' x = sc x) ∧ new.length ≤ 1 := by
  rw [← length_map laneIndex] at hmany hcount hd
  unfold assignLanes
  generalize name.toList.map laneIndex = lanes at *
  dsimp only
  split
  · -- a run of lanes
    rename_i hrun
    have hrun : lanes = range' (lanes.headD 0) lanes.length := beq_iff_eq.mp hrun
    rw [hrun] at hlanes hwrite
    refine ⟨sc, [], ?_, fun _ _ => rfl, Nat.zero_le 1⟩
    rw [append_nil]
    exact ends_run h hwidth hmany hlanes hvalue hd hscalar hwrite
  · split
    · -- scattered lanes, and a value that may be read more than once
      refine ⟨sc, [], ?_, fun _ _ => rfl, Nat.zero_le 1⟩
      rw [← append_nil m] at hvalue ⊢
      exact ends_scattered h hwidth hmany hcount hlanes (fun _ _ => rfl) hvalue hd hscalar hwrite
    · -- scattered lanes, and a value that is computed first
      exact ends_held h hwidth hmany hcount hlanes hvalue hd hscalar rfl hfresh hwrite

/-! ## Lane assignments -/

def isCompound (op : BinOp) : Bool :=
  op.isArithmetic || op.isBitwise || op.isShift

theorem isCompound_of_mem : ∀ op, some op ∈ BinOp.assignments.map Prod.snd → isCompound op = true := by
  intro op
  cases op <;> decide

theorem decides_of_isCompound {op : BinOp} (h : isCompound op = true) (d : Datum κ) :
    M.decides op d = false := by
  cases op <;> first | rfl | cases h

theorem isScalar_typeOf_compound {op : BinOp} (htype : env.typeOf base = some (.vector k width))
    (hname : isSwizzle name = true) (hmany : 2 ≤ name.toList.length) (hop : isCompound op = true)
    (rhs : Expr) :
    (env.typeOf (.binary op (.field base name) rhs)).any ShaderType.isScalar = false := by
  have hfield : env.typeOf (.field base name) = some (.vector k name.toList.length) := by
    grind [Env.typeOf, Env.fieldType, ShaderType.ofComponents]
  have hlogical : (op.isComparison || op.isLogical) = false := by
    cases op <;> first | rfl | cases hop
  rw [Env.typeOf, hfield, Env.binaryType.eq_def, hlogical, if_neg Bool.false_ne_true]
  split
  · rfl
  · cases env.typeOf rhs with
    | none => rfl
    | some t =>
      cases t with
      | matrix columns rows =>
        cases h : op == .mul <;> simp [ShaderType.arithmetic, h, ShaderType.isScalar]
      | _ => rfl

/-- The value that the assignment writes, as one expression. -/
def combinedValue (op : Option BinOp) (base : Expr) (name : String) (rhs : Expr) : Expr :=
  op.elim rhs fun op => .binary op (.field base name) rhs

theorem eval_combinedValue (h : HoldsVector M sc m base k place xs)
    (hop : op ∈ BinOp.assignments.map Prod.snd) {v value : Datum κ}
    (hrhs : M.eval sc rhs m = some (v, m))
    (hvalue : M.combine op (m.read (place.push (.field name))) v = some value) :
    M.eval sc (combinedValue op base name rhs) m = some (value, m) := by
  cases op with
  | none =>
    cases hvalue
    exact hrhs
  | some op =>
    rw [Memory.read_push, h.holds, Option.bind_some, combine, Option.bind_eq_some_iff] at hvalue
    obtain ⟨old, hold, hvalue⟩ := hvalue
    have hbase : M.eval sc base m = some (.vector xs, m) := eval_of_target h.pure h.leads h.holds
    exact eval_binary_iff.mpr ⟨old, m, eval_field_iff.mpr ⟨_, hbase, hold⟩,
      .inr ⟨decides_of_isCompound (isCompound_of_mem op hop) old, v, hrhs, hvalue⟩⟩

theorem isScalar_combinedValue (h : HoldsVector M sc m base k place xs)
    (htype : env.typeOf base = some (.vector k width)) (hop : op ∈ BinOp.assignments.map Prod.snd)
    (hname : isSwizzle name = true) (hmany : 2 ≤ name.toList.length) {v value : Datum κ}
    (hscalar : (env.typeOf rhs).any ShaderType.isScalar = v.isScalar)
    (hvalue : M.combine op (m.read (place.push (.field name))) v = some value) :
    (env.typeOf (combinedValue op base name rhs)).any ShaderType.isScalar = value.isScalar := by
  cases op with
  | none =>
    cases hvalue
    exact hscalar
  | some op =>
    have hcompound := isCompound_of_mem op hop
    rw [Memory.read_push, h.holds, Option.bind_some, combine, Option.bind_eq_some_iff] at hvalue
    obtain ⟨old, hold, hvalue⟩ := hvalue
    obtain ⟨us, rfl⟩ := Datum.exists_vector_of_part hname hmany hold
    rw [M.binary_vector op us v value hcompound hvalue]
    exact isScalar_typeOf_compound htype hname hmany hcompound rhs

theorem lowerLanes_eq (htype : env.typeOf base = some (.vector k width))
    (hname : isSwizzle name = true) (hmany : 2 ≤ name.toList.length)
    (hlanes : areTargets width (name.toList.map laneIndex) = true)
    (hpure : base.isPureTarget = true) (op : Option BinOp) (rhs : Expr) (a : State) :
    (lowerLanes env op base name rhs a).1 =
      some (assignLanes env base name k width (combinedValue op base name rhs) a).1 := by
  have hfew : ¬ name.toList.length < 2 := by omega
  unfold lowerLanes
  simp only [hfew, hname, htype, hlanes, hpure]
  cases op <;> rfl

theorem ends_source (h : HoldsVector M sc m base k place xs) (hname : isSwizzle name = true)
    (hmany : 2 ≤ name.toList.length)
    (hlanes : areTargets xs.length (name.toList.map laneIndex) = true) {v : Datum κ}
    (hrhs : M.eval sc rhs m = some (v, m))
    (hvalue : M.combine op (m.read (place.push (.field name))) v = some (.vector vs))
    (hvs : vs.length = name.toList.length)
    (hwrite : m.write place (.vector (overwrite xs (name.toList.map laneIndex) vs)) = some m₁) :
    M.Ends dialect [.expr (.assign op (.field base name) rhs)] (sc, m) (sc, m₁) := by
  have hreplace : (Datum.vector xs).replace (.field name) (.vector vs) =
      some (.vector (overwrite xs (name.toList.map laneIndex) vs)) := by
    refine Datum.replace_vector_iff.mpr ⟨_, vs, if_pos hname, hlanes, ?_, rfl⟩
    rw [Datum.split, length_map]
    exact if_pos ⟨hvs, by omega⟩
  refine ends_expr (eval_assign_iff.mpr ⟨_, m, v, m, target_field_iff.mpr ⟨place, h.leads, rfl⟩, hrhs,
    hvalue, ?_⟩)
  rw [Memory.write_push h.holds hreplace, hwrite]

/-- **Assignments to lanes keep their meaning.** For a plain or a compound assignment to two to four
different lanes of a vector, with a right-hand side that only reads, the statements end at one place:
there each lane holds its component of the value, or the value if that is a scalar; every other lane
holds what it held, and to write the old vector back would leave the memory as it was. Nothing else
changes but for one new variable with the name of the temporary. The assignment itself leads to the
same memory if its value is a vector with components of the right type. -/
theorem ends_lowerLanes (M : Machine κ) (dialect : Dialect) (env : Env) {op : Option BinOp}
    (hop : op ∈ BinOp.assignments.map Prod.snd) {base rhs : Expr} {name : String} {k : Scalar}
    {width : Nat} (htype : env.typeOf base = some (.vector k width)) (hwidth : width ≤ 4)
    (hname : isSwizzle name = true) (hmany : 2 ≤ name.toList.length)
    (hlanes : areTargets width (name.toList.map laneIndex) = true) {sc : Bindings} {m : Memory κ}
    {place : Address} {xs vs : List κ} {v value : Datum κ}
    (hbase : HoldsVector M sc m base k place xs) (hxs : xs.length = width)
    (hrhs : M.eval sc rhs m = some (v, m))
    (hscalar : (env.typeOf rhs).any ShaderType.isScalar = v.isScalar)
    (hvalue : M.combine op (m.read (place.push (.field name))) v = some value)
    (hvs : value.spread name.toList.length = some vs) (a : State)
    (hfresh : .ident (heldName a) ∉ base.subexprs) :
    ∃ out sc' m₁ new ys, (lowerLanes env op base name rhs a).1 = some out ∧
      M.Ends dialect out (sc, m) (sc', m₁ ++ new) ∧
      m₁.read place = some (.vector ys) ∧ ys.length = width ∧
      (∀ i l : Nat, (name.toList.map laneIndex)[i]? = some l → ys[l]? = vs[i]?.map (M.cast k)) ∧
      (∀ l : Nat, l ∉ name.toList.map laneIndex → ys[l]? = xs[l]?) ∧
      m₁.write place (.vector xs) = some m ∧
      (∀ x, x ≠ heldName a → sc' x = sc x) ∧ new.length ≤ 1 ∧
      (value.isScalar = false → (∀ c ∈ vs, M.cast k c = c) →
        M.Ends dialect [.expr (.assign op (.field base name) rhs)] (sc, m) (sc, m₁)) := by
  subst hxs
  have hcount : name.toList.length ≤ 4 := by
    simp only [isSwizzle, Bool.and_eq_true, decide_eq_true_eq] at hname
    exact hname.1.2
  have hlength : vs.length = (name.toList.map laneIndex).length := by
    rw [Datum.length_spread hvs, length_map]
  -- the old vector can be written, so the new one can
  obtain ⟨m₁, hwrite⟩ := Memory.exists_write_of_alike
    (Datum.alike_vector (length_overwrite xs (name.toList.map laneIndex) (vs.map (M.cast k))).symm)
    hbase.writable
  obtain ⟨sc', new, hends, hother, hnew⟩ : ∃ sc' new, M.Ends dialect (assignLanes env base name k
      xs.length (combinedValue op base name rhs) a).1 (sc, m) (sc', m₁ ++ new) ∧ (∀ x, x ≠ heldName a → sc' x = sc x) ∧ new.length ≤ 1 := by
    refine ends_assignLanes hbase hwidth env hmany hcount hlanes ?_ ?_ hvs a hfresh hwrite
    · exact eval_combinedValue hbase hop hrhs hvalue
    · exact isScalar_combinedValue hbase htype hop hname hmany hscalar hvalue
  refine ⟨_, sc', m₁, new, _, lowerLanes_eq htype hname hmany hlanes hbase.pure op rhs a, hends,
    Memory.read_write hwrite, length_overwrite .., ?_, ?_, Memory.write_back hwrite hbase.holds,
    hother, hnew, fun hvector htyped => ?_⟩
  · intro i l hl
    rw [getElem?_overwrite_lane hlanes (by rw [length_map, hlength]) hl, getElem?_map]
  · exact fun l hl => getElem?_overwrite_other _ _ hl
  · obtain rfl := Datum.eq_vector_of_spread hvs hvector
    rw [map_congr_left htyped, map_id'] at hwrite
    exact ends_source hbase hname hmany hlanes hrhs hvalue (Datum.length_spread hvs) hwrite

/-- A variable `s` of a structure with a vector as its member `v`. -/
def memberEnv : Env where
  scopes := [[("s", .struct "S")]]
  host := []
  functions := []
  structs := [("S", [{ name := "v", type := .vector .int 3 }])]

def vectorMember (cs : List Int) : Datum Int :=
  .whole fun p => if p = .field "v" then some (.vector cs) else none

/-- With `s.v` at `(1, 5, 7)`, the statements for `s.v.zx += s.v.xy * 2` bring it to `(11, 5, 9)`. -/
theorem ends_lowerLanes_crossed :
    let base : Expr := .field (.ident "s") "v"
    let rhs : Expr := .binary .mul (.field base "xy") (.int "2")
    let sc : Bindings := fun x => if x = "s" then some 0 else none
    let place : Address := ⟨0, [.field "v"]⟩
    ∃ out sc' m₁ new ys, (lowerLanes memberEnv (some .add) base "zx" rhs {}).1 = some out ∧
      integers.Ends .target out (sc, [vectorMember [1, 5, 7]]) (sc', m₁ ++ new) ∧
      m₁.read place = some (.vector ys) ∧ ys.length = 3 ∧
      ys[2]? = some 9 ∧ ys[0]? = some 11 ∧ ys[1]? = some 5 ∧
      m₁.write place (.vector [1, 5, 7]) = some [vectorMember [1, 5, 7]] := by
  intro base rhs sc place
  have htype : memberEnv.typeOf base = some (.vector .int 3) := by decide
  have hbase : HoldsVector integers sc [vectorMember [1, 5, 7]] base .int place [1, 5, 7] :=
    ⟨rfl, rfl, rfl, by decide, rfl⟩
  have hrhs : integers.eval sc rhs [vectorMember [1, 5, 7]] =
      some (.vector [2, 10], [vectorMember [1, 5, 7]]) := rfl
  have hvalue : integers.combine (some .add) (Memory.read [vectorMember [1, 5, 7]]
      (place.push (.field "zx"))) (.vector [2, 10]) = some (.vector [9, 11]) := rfl
  have hfresh : Expr.ident (heldName {}) ∉ base.subexprs := by
    have hnames : base.subexprs = [base, .ident "s"] := by
      rw [Expr.subexprs_eq_cons, Expr.children, flatMap_singleton, Expr.subexprs_eq_cons]
      rfl
    have hname : heldName {} ≠ "s" := by decide
    rw [hnames]
    simpa [base] using hname
  obtain ⟨out, sc', m₁, new, ys, hout, hends, hread, hlength, hlane, hother, hback, -⟩ :=
    ends_lowerLanes integers .target memberEnv (by decide) htype (by decide) (by decide) (by decide)
      (by decide) hbase rfl hrhs (by decide) hvalue rfl {} hfresh
  exact ⟨out, sc', m₁, new, ys, hout, hends, hread, hlength, hlane 0 2 rfl, hlane 1 0 rfl,
    hother 1 (by decide), hback⟩

end Machine

end ShaderEffect
