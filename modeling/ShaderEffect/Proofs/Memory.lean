import Mathlib.Data.List.Nodup
import Mathlib.Logic.Function.Basic
import ShaderEffect.Lowering.Lane

/-!
# Memory

What variables hold, and what it means to write to a part of one. A `Datum` is a scalar, a vector, a
value made of parts, or a pointer; an `Address` is a variable with a path of elements, members and
lanes. Components of vectors may be of any type `κ`.

A path leads to a part that can be read (`Datum.get`) and replaced (`Datum.put`), and so does an address
in a memory (`Memory.read`, `Memory.write`). **What has been written is read back** (`read_write`), and
**writing back what was there leaves everything as it was** (`write_back`), so a write changes nothing
else.
-/

namespace ShaderEffect

open Lowering List

/-! ## Lanes -/

section Lanes

variable {κ : Type} {lanes : List Nat} (cs : List κ)

def pick (cs : List κ) (lanes : List Nat) : Option (List κ) :=
  lanes.mapM (cs[·]?)

/-- The components with those in the given lanes replaced. -/
def overwrite (cs : List κ) (lanes : List Nat) (vs : List κ) : List κ :=
  cs.mapIdx fun i c => ((lanes.idxOf? i).bind (vs[·]?)).getD c

@[simp] theorem length_overwrite (lanes : List Nat) (vs : List κ) :
    (overwrite cs lanes vs).length = cs.length :=
  length_mapIdx

theorem getElem?_overwrite (lanes : List Nat) (vs : List κ) (i : Nat) :
    (overwrite cs lanes vs)[i]? = cs[i]?.map fun c => ((lanes.idxOf? i).bind (vs[·]?)).getD c :=
  getElem?_mapIdx

theorem pick_eq_some_iff {cs vs : List κ} :
    pick cs lanes = some vs ↔ lanes.map (cs[·]?) = vs.map some := by
  induction lanes generalizing vs with
  | nil => cases vs <;> simp [pick]
  | cons l ls ih =>
    rw [pick, mapM_cons]
    simp only [Option.bind_eq_bind, Option.bind_eq_some_iff, Option.pure_def, Option.some.injEq]
    constructor
    · rintro ⟨c, hc, us, hus, rfl⟩
      rw [map_cons, hc, ih.mp hus, map_cons]
    · intro h
      cases vs with
      | nil => cases h
      | cons v vs =>
        obtain ⟨hc, hls⟩ := cons.inj h
        exact ⟨v, hc, vs, ih.mpr hls, rfl⟩

theorem getElem?_of_pick {cs vs : List κ} (h : pick cs lanes = some vs) {k l : Nat}
    (hk : lanes[k]? = some l) : cs[l]? = vs[k]? := by
  rw [pick_eq_some_iff] at h
  have hmap := congrArg (·[k]?) h
  simp only [getElem?_map, hk, Option.map_some] at hmap
  cases hv : vs[k]? with
  | none => simp [hv] at hmap
  | some v => simpa [hv] using hmap

theorem length_of_pick {cs vs : List κ} (h : pick cs lanes = some vs) :
    vs.length = lanes.length := by
  rw [pick_eq_some_iff] at h
  simpa using (congrArg length h).symm

theorem exists_pick {cs : List κ} (h : ∀ l ∈ lanes, l < cs.length) :
    ∃ us, pick cs lanes = some us := by
  simp only [pick_eq_some_iff]
  induction lanes with
  | nil => exact ⟨[], rfl⟩
  | cons l ls ih =>
    rw [forall_mem_cons] at h
    obtain ⟨us, hus⟩ := ih h.2
    refine ⟨cs[l] :: us, ?_⟩
    rw [map_cons, map_cons, List.getElem?_eq_getElem h.1, hus]

theorem areTargets_iff {width : Nat} :
    areTargets width lanes = true ↔ (∀ l ∈ lanes, l < width) ∧ lanes.Nodup := by
  simp [areTargets]

theorem idxOf?_of_nodup (h : lanes.Nodup) {k l : Nat} (hk : lanes[k]? = some l) :
    lanes.idxOf? l = some k := by
  obtain ⟨hlt, hl⟩ := List.getElem?_eq_some_iff.mp hk
  refine List.idxOf?_eq_some_iff.mpr ⟨hlt, hl, fun j hj heq => ?_⟩
  exact absurd (h.getElem_inj_iff.mp (heq.trans hl.symm)) (Nat.ne_of_lt hj)

theorem getElem?_overwrite_lane {cs vs : List κ} (h : areTargets cs.length lanes = true)
    (hvs : vs.length = lanes.length) {k l : Nat} (hk : lanes[k]? = some l) :
    (overwrite cs lanes vs)[l]? = vs[k]? := by
  rw [areTargets_iff] at h
  obtain ⟨hlt, hnodup⟩ := h
  have hl : l < cs.length := hlt l (List.mem_of_getElem? hk)
  have hv : k < vs.length := hvs ▸ (List.getElem?_eq_some_iff.mp hk).1
  rw [getElem?_overwrite, idxOf?_of_nodup hnodup hk, List.getElem?_eq_getElem hl, Option.bind_some,
    List.getElem?_eq_getElem hv]
  rfl

theorem getElem?_overwrite_other (vs : List κ) {l : Nat} (h : l ∉ lanes) :
    (overwrite cs lanes vs)[l]? = cs[l]? := by
  rw [getElem?_overwrite, idxOf?_eq_none_iff.mpr h]
  exact Option.map_id_apply

theorem pick_overwrite {cs vs : List κ} (h : areTargets cs.length lanes = true)
    (hvs : vs.length = lanes.length) : pick (overwrite cs lanes vs) lanes = some vs := by
  rw [pick_eq_some_iff]
  refine ext_getElem? fun k => ?_
  grind [getElem?_overwrite_lane]

theorem overwrite_back {cs us : List κ} (h : pick cs lanes = some us) (vs : List κ) :
    overwrite (overwrite cs lanes vs) lanes us = cs := by
  refine ext_getElem? fun i => ?_
  rw [getElem?_overwrite, getElem?_overwrite]
  cases hi : lanes.idxOf? i with
  | none =>
    cases cs[i]? <;> rfl
  | some k =>
    obtain ⟨hlt, hl, -⟩ := List.idxOf?_eq_some_iff.mp hi
    rw [Option.bind_some, ← getElem?_of_pick h (List.getElem?_eq_some_iff.mpr ⟨hlt, hl⟩)]
    cases cs[i]? <;> rfl

end Lanes

/-! ## Data -/

/-- A part of what a variable holds: an element, or a member or a choice of lanes. -/
inductive Part where
  | item (index : Nat)
  | field (name : String)
  deriving DecidableEq

/-- The lanes of a vector that a part stands for. -/
def Part.lanes : Part → Option (List Nat)
  | .item i => some [i]
  | .field name => if isSwizzle name then some (name.toList.map laneIndex) else none

/-- A variable, and the way to a part of it. -/
structure Address where
  root : Nat
  path : List Part

def Address.push (a : Address) (p : Part) : Address :=
  ⟨a.root, a.path ++ [p]⟩

/-- What a variable can hold. Arrays, matrices and structures are made of parts. -/
inductive Datum (κ : Type) where
  | scalar (c : κ)
  | vector (cs : List κ)
  | whole (parts : Part → Option (Datum κ))
  | pointer (target : Address)

namespace Datum

variable {κ : Type} {p : Part} {ps : List Part} {d e : Datum κ}

/-- A scalar for one component, a vector for more. -/
def ofComponents : List κ → Datum κ
  | [c] => .scalar c
  | cs => .vector cs

def split (count : Nat) : Datum κ → Option (List κ)
  | .scalar c => if count = 1 then some [c] else none
  | .vector cs => if cs.length = count ∧ count ≠ 1 then some cs else none
  | _ => none

def part : Datum κ → Part → Option (Datum κ)
  | .vector cs, p => p.lanes.bind fun lanes => (pick cs lanes).map ofComponents
  | .whole parts, p => parts p
  | _, _ => none

/-- The datum with a part replaced. No lane may be written twice. -/
def replace : Datum κ → Part → Datum κ → Option (Datum κ)
  | .vector cs, p, d => p.lanes.bind fun lanes =>
    if areTargets cs.length lanes then
      (d.split lanes.length).map fun vs => .vector (overwrite cs lanes vs)
    else none
  | .whole parts, p, d =>
    if (parts p).isSome then some (.whole (Function.update parts p (some d))) else none
  | _, _, _ => none

def get (d : Datum κ) : List Part → Option (Datum κ)
  | [] => some d
  | p :: ps => (d.part p).bind fun e => e.get ps

/-- The datum with what is at the end of a path replaced. -/
def put (d : Datum κ) : List Part → Datum κ → Option (Datum κ)
  | [], v => some v
  | p :: ps, v => (d.part p).bind fun e => (e.put ps v).bind (d.replace p)

attribute [local simp] split part replace get put

theorem split_eq_some_iff {count : Nat} {vs : List κ} :
    d.split count = some vs ↔ vs.length = count ∧ d = ofComponents vs := by
  constructor
  · intro h
    cases d with
    | scalar c =>
      rw [split] at h
      split at h
      · cases h
        exact ⟨‹count = 1›.symm, rfl⟩
      · cases h
    | vector cs =>
      rw [split] at h
      split at h
      · rename_i hcount
        cases h
        refine ⟨hcount.1, ?_⟩
        unfold ofComponents
        split
        · exact absurd hcount.1.symm hcount.2
        · rfl
      · cases h
    | whole | pointer => cases h
  · rintro ⟨rfl, rfl⟩
    unfold ofComponents
    split
    · rfl
    · rename_i hne
      refine if_pos ⟨rfl, fun hone => ?_⟩
      obtain ⟨c, hc⟩ := length_eq_one_iff.mp hone
      exact hne c hc

theorem replace_vector_iff {cs : List κ} :
    (vector cs).replace p d = some e ↔ ∃ lanes vs, p.lanes = some lanes ∧
      areTargets cs.length lanes = true ∧ d.split lanes.length = some vs ∧
      e = .vector (overwrite cs lanes vs) := by
  rw [replace, Option.bind_eq_some_iff]
  constructor
  · rintro ⟨lanes, hp, h⟩
    split at h
    · rename_i htargets
      obtain ⟨vs, hvs, rfl⟩ := Option.map_eq_some_iff.mp h
      exact ⟨lanes, vs, hp, htargets, hvs, rfl⟩
    · cases h
  · rintro ⟨lanes, vs, hp, htargets, hvs, rfl⟩
    exact ⟨lanes, hp, by rw [if_pos htargets, hvs, Option.map_some]⟩

theorem replace_whole_iff {parts : Part → Option (Datum κ)} :
    (whole parts).replace p d = some e ↔
      (parts p).isSome = true ∧ e = .whole (Function.update parts p (some d)) := by
  rw [replace]
  cases (parts p).isSome <;> simp [eq_comm]

section

variable {d' v : Datum κ} (h : d.replace p v = some d')
include h

theorem part_replace : d'.part p = some v := by
  cases d with
  | vector cs =>
    rw [replace_vector_iff] at h
    obtain ⟨lanes, vs, hp, htargets, hsplit, rfl⟩ := h
    rw [split_eq_some_iff] at hsplit
    obtain ⟨hlength, rfl⟩ := hsplit
    rw [part, hp, Option.bind_some, pick_overwrite htargets hlength, Option.map_some]
  | whole parts =>
    rw [replace_whole_iff] at h
    obtain ⟨-, rfl⟩ := h
    exact Function.update_self ..
  | scalar | pointer => cases h

theorem exists_part_of_replace : ∃ u, d.part p = some u := by
  cases d with
  | vector cs =>
    rw [replace_vector_iff] at h
    obtain ⟨lanes, vs, hp, htargets, -, -⟩ := h
    obtain ⟨us, hus⟩ := exists_pick (areTargets_iff.mp htargets).1
    exact ⟨ofComponents us, by rw [part, hp, Option.bind_some, hus, Option.map_some]⟩
  | whole parts =>
    rw [replace_whole_iff] at h
    exact Option.isSome_iff_exists.mp h.1
  | scalar | pointer => cases h

theorem replace_back {u : Datum κ} (hu : d.part p = some u) : d'.replace p u = some d := by
  cases d with
  | vector cs =>
    rw [replace_vector_iff] at h
    obtain ⟨lanes, vs, hp, htargets, -, rfl⟩ := h
    rw [part, hp, Option.bind_some, Option.map_eq_some_iff] at hu
    obtain ⟨us, hus, rfl⟩ := hu
    rw [replace_vector_iff]
    refine ⟨lanes, us, hp, ?_, ?_, ?_⟩
    · rw [length_overwrite, htargets]
    · rw [split_eq_some_iff]
      exact ⟨length_of_pick hus, rfl⟩
    · rw [overwrite_back hus]
  | whole parts =>
    rw [replace_whole_iff] at h
    obtain ⟨-, rfl⟩ := h
    have hparts : parts p = some u := hu
    rw [replace_whole_iff, Function.update_self, Function.update_idem, ← hparts,
      Function.update_eq_self]
    exact ⟨rfl, rfl⟩
  | scalar | pointer => cases h

end

theorem get_append (d : Datum κ) (ps qs : List Part) :
    d.get (ps ++ qs) = (d.get ps).bind fun e => e.get qs := by
  induction ps generalizing d with
  | nil => rfl
  | cons p ps ih =>
    rw [cons_append, get, get]
    cases d.part p with
    | none => rfl
    | some e => exact ih e

theorem put_concat {e' v : Datum κ} (he : d.get ps = some e) (he' : e.replace p v = some e') :
    d.put (ps ++ [p]) v = d.put ps e' := by
  induction ps generalizing d with
  | nil =>
    cases he
    obtain ⟨u, hu⟩ := exists_part_of_replace he'
    have hput : e.put [p] v = e.replace p v := by simp only [put, hu, Option.bind_some]
    rw [nil_append, hput, he', put]
  | cons q ps ih =>
    rw [get, Option.bind_eq_some_iff] at he
    obtain ⟨x, hx, hx'⟩ := he
    rw [cons_append, put, put, hx, Option.bind_some, Option.bind_some, ih hx']

theorem get_put {d' v : Datum κ} (h : d.put ps v = some d') : d'.get ps = some v := by
  induction ps generalizing d d' with
  | nil =>
    cases h
    rfl
  | cons p ps ih =>
    simp only [put, Option.bind_eq_some_iff] at h
    obtain ⟨e, -, e', he', hd'⟩ := h
    rw [get, part_replace hd', Option.bind_some, ih he']

theorem put_back {d' u v : Datum κ} (h : d.put ps v = some d') (hu : d.get ps = some u) :
    d'.put ps u = some d := by
  induction ps generalizing d d' with
  | nil =>
    cases h
    exact hu.symm
  | cons p ps ih =>
    simp only [put, Option.bind_eq_some_iff] at h
    obtain ⟨e, he, e', he', hd'⟩ := h
    rw [get, he, Option.bind_some] at hu
    rw [put, part_replace hd', Option.bind_some, ih he' hu, Option.bind_some,
      replace_back hd' he]

/-! ### What can be written -/

/-- Two data that can take the same places in a vector. -/
def Alike (d e : Datum κ) : Prop :=
  ∀ count, (d.split count).isSome = (e.split count).isSome

theorem alike_vector {cs es : List κ} (h : cs.length = es.length) :
    Alike (vector cs) (vector es) := by
  intro count
  rw [split, split, h]
  split <;> rfl

theorem exists_replace_of_alike {v w : Datum κ} (h : Alike v w) (hv : d.replace p v = some e) :
    ∃ e', d.replace p w = some e' ∧ Alike e e' := by
  cases d with
  | vector cs =>
    obtain ⟨lanes, vs, hp, htargets, hsplit, rfl⟩ := replace_vector_iff.mp hv
    have hsome : (w.split lanes.length).isSome = true := by rw [← h, hsplit]; rfl
    obtain ⟨ws, hws⟩ := Option.isSome_iff_exists.mp hsome
    refine ⟨_, replace_vector_iff.mpr ⟨lanes, ws, hp, htargets, hws, rfl⟩, alike_vector ?_⟩
    rw [length_overwrite, length_overwrite]
  | whole parts =>
    obtain ⟨hsome, rfl⟩ := replace_whole_iff.mp hv
    exact ⟨_, replace_whole_iff.mpr ⟨hsome, rfl⟩, fun _ => rfl⟩
  | scalar | pointer => cases hv

theorem exists_put_of_alike {v w : Datum κ} (h : Alike v w) (hv : d.put ps v = some e) :
    ∃ e', d.put ps w = some e' ∧ Alike e e' := by
  induction ps generalizing d e with
  | nil =>
    cases hv
    exact ⟨w, rfl, h⟩
  | cons p ps ih =>
    simp only [put, Option.bind_eq_some_iff] at hv
    obtain ⟨x, hx, y, hy, he⟩ := hv
    obtain ⟨y', hy', halike⟩ := ih hy
    obtain ⟨e', he', halike'⟩ := exists_replace_of_alike halike he
    exact ⟨e', by rw [put, hx, Option.bind_some, hy', Option.bind_some, he'], halike'⟩

end Datum

/-! ## Memory -/

abbrev Memory (κ : Type) := List (Datum κ)

namespace Memory

variable {κ : Type} {m m' : Memory κ} {a : Address} {v : Datum κ}

def read (m : Memory κ) (a : Address) : Option (Datum κ) :=
  m[a.root]?.bind fun d => d.get a.path

/-- The memory with what is at an address replaced. -/
def write (m : Memory κ) (a : Address) (v : Datum κ) : Option (Memory κ) :=
  m[a.root]?.bind fun d => (d.put a.path v).map fun e => m.set a.root e

theorem write_eq_some_iff : m.write a v = some m' ↔
    ∃ d e, m[a.root]? = some d ∧ d.put a.path v = some e ∧ m' = m.set a.root e := by
  simp only [write, Option.bind_eq_some_iff, Option.map_eq_some_iff]
  constructor
  · rintro ⟨d, hd, e, he, rfl⟩
    exact ⟨d, e, hd, he, rfl⟩
  · rintro ⟨d, e, hd, he, rfl⟩
    exact ⟨d, hd, e, he, rfl⟩

theorem read_push (m : Memory κ) (a : Address) (p : Part) :
    m.read (a.push p) = (m.read a).bind fun d => d.part p := by
  unfold read Address.push
  cases m[a.root]? with
  | none => rfl
  | some d =>
    rw [Option.bind_some, Option.bind_some, Datum.get_append]
    simp only [Datum.get, Option.bind_fun_some]

theorem write_push {d d' : Datum κ} {p : Part} (hd : m.read a = some d)
    (hd' : d.replace p v = some d') : m.write (a.push p) v = m.write a d' := by
  rw [read, Option.bind_eq_some_iff] at hd
  obtain ⟨e, he, hd⟩ := hd
  rw [write, write, Address.push, he, Option.bind_some, Option.bind_some, Datum.put_concat hd hd']

theorem read_write (h : m.write a v = some m') : m'.read a = some v := by
  obtain ⟨d, e, hd, he, rfl⟩ := write_eq_some_iff.mp h
  have hlt : a.root < m.length := (List.getElem?_eq_some_iff.mp hd).1
  rw [read, List.getElem?_set_self hlt, Option.bind_some, Datum.get_put he]

theorem write_back {u : Datum κ} (h : m.write a v = some m') (hu : m.read a = some u) :
    m'.write a u = some m := by
  obtain ⟨d, e, hd, he, rfl⟩ := write_eq_some_iff.mp h
  obtain ⟨hlt, rfl⟩ := List.getElem?_eq_some_iff.mp hd
  rw [read, hd, Option.bind_some] at hu
  refine write_eq_some_iff.mpr ⟨e, _, List.getElem?_set_self hlt, Datum.put_back he hu, ?_⟩
  rw [List.set_set, List.set_getElem_self]

theorem exists_write_of_alike {w : Datum κ} (h : v.Alike w) (hv : (m.write a v).isSome = true) :
    ∃ m', m.write a w = some m' := by
  obtain ⟨_, hm⟩ := Option.isSome_iff_exists.mp hv
  obtain ⟨d, e, hd, he, -⟩ := write_eq_some_iff.mp hm
  obtain ⟨e', he', -⟩ := Datum.exists_put_of_alike h he
  exact ⟨_, write_eq_some_iff.mpr ⟨d, e', hd, he', rfl⟩⟩

theorem read_append (h : m.read a = some v) (new : Memory κ) : (m ++ new).read a = some v := by
  simp only [read, Option.bind_eq_some_iff] at h ⊢
  obtain ⟨d, hd, hv⟩ := h
  exact ⟨d, by rw [List.getElem?_append_left (List.getElem?_eq_some_iff.mp hd).1, hd], hv⟩

theorem write_append (h : m.write a v = some m') (new : Memory κ) :
    (m ++ new).write a v = some (m' ++ new) := by
  obtain ⟨d, e, hd, he, rfl⟩ := write_eq_some_iff.mp h
  have hlt : a.root < m.length := (List.getElem?_eq_some_iff.mp hd).1
  refine write_eq_some_iff.mpr ⟨d, e, ?_, he, ?_⟩
  · rw [List.getElem?_append_left hlt, hd]
  · rw [List.set_append_left _ _ hlt]

end Memory

end ShaderEffect
