import Mathlib.Data.List.Forall2
import Mathlib.Data.List.Induction
import Mathlib.Data.List.Nodup
import Mathlib.Order.Bounds.Basic
import ShaderEffect.Layout.Analyze

/-!
# The layout of the uniform buffer

The target language places the members of a structure one after the other, each at the least
multiple of its alignment that is free. `Layout.IsNatural` says that a layout of inputs is this one:
the host's fields at their fixed offsets, then a field for each input that is `accepted`, and a size
that is the least multiple of 16 behind them. **`analyze` gives the natural layout of any inputs**
(`analyze_isNatural`), so the structure needs no explicit offsets.

The layout is made input by input. `Draft.adds_addInput` says all that one input can do to a draft,
and `Draft.Lays` gives the fields of every draft: those of the inputs that are accepted, `laid` one
after the other, and the host's `speed` claimed or not.
-/

namespace ShaderEffect

open List

variable (inputs : List Input) {fs : List UniformField}

def UniformField.finish (f : UniformField) : Nat :=
  f.offset + f.size

namespace Layout

variable {is : List Input} {p : Input → Bool} {i : Input}

/-! ## Natural layouts -/

/-- The first byte after fields: where the last of them ends. -/
def finishOf (fs : List UniformField) : Nat :=
  (fs.getLast?.map UniformField.finish).getD 0

@[simp] theorem finishOf_append_singleton (fs : List UniformField) (f : UniformField) :
    finishOf (fs ++ [f]) = f.finish := by
  simp [finishOf]

/-- Of the fields that end at `cursor`, this one is next: it stands at the least multiple of its
alignment that is free, and is marked if that leaves a gap. -/
structure PlacedAfter (cursor : Nat) (f : UniformField) : Prop where
  offset : IsLeast {n | f.type.align ∣ n ∧ cursor ≤ n} f.offset
  size : f.size = f.type.size
  padded : f.padded = true ↔ cursor < f.offset

/-- The input is laid out as a field of its own: it is no image, and the host has no field of its
name. -/
def hasField (i : Input) : Bool :=
  !i.kind.isTexture && !isBuiltin i.name

/-- The inputs that satisfy `p`, in order. An input hides all later ones of its name, whether it
satisfies `p` itself or not. -/
def firsts (p : Input → Bool) : List Input → List Input
  | [] => []
  | i :: is => (if p i then [i] else []) ++ (firsts p is).filter fun j => j.name != i.name

def accepted (inputs : List Input) : List Input :=
  firsts hasField inputs

def images (inputs : List Input) : List Input :=
  firsts (fun i => i.kind.isTexture) inputs

/-- The fields of the host with their offsets. -/
def hostOffsets : List (String × UniformType × Nat) :=
  [("TIME", .f32, 0), ("TIMEDELTA", .f32, 4), ("RENDERSIZE", .vec2, 8), ("PASSINDEX", .i32, 16),
    ("FRAMEINDEX", .i32, 20), ("opacity", .f32, 24), ("speed", .f32, 28), ("DATE", .vec4, 32)]

/-- The name, the offset and the type of a field. -/
def hostView (f : UniformField) : String × UniformType × Nat :=
  (f.name, f.type, f.offset)

/-- The name, the origin and the type of a field. -/
def inputView (f : UniformField) : String × FieldSource × Option UniformType :=
  (f.name, f.source, some f.type)

def viewOf (i : Input) : String × FieldSource × Option UniformType :=
  (i.name, .input i.kind, UniformType.ofInput i.kind)

structure IsNatural (inputs : List Input) (l : Layout) : Prop where
  host : (l.fields.take 8).map hostView = hostOffsets
  inputs : (l.fields.drop 8).map inputView = (accepted inputs).map viewOf
  placed : ∀ k f, l.fields[k]? = some f → PlacedAfter (finishOf (l.fields.take k)) f
  disjoint : l.fields.Pairwise fun f g => f.finish ≤ g.offset
  names : (l.fields.map UniformField.name).Nodup
  size : IsLeast {n | 16 ∣ n ∧ finishOf l.fields ≤ n} l.size

/-! ## Multiples -/

/-- **`roundUp` gives the least multiple that is not below a value.** -/
theorem isLeast_roundUp (value : Nat) {align : Nat} (h : 0 < align) :
    IsLeast {n | align ∣ n ∧ value ≤ n} (roundUp value align) := by
  unfold roundUp
  constructor
  · refine ⟨Nat.dvd_mul_left _ _, ?_⟩
    have hmod := Nat.div_add_mod (value + align - 1) align
    have hlt := Nat.mod_lt (value + align - 1) h
    rw [Nat.mul_comm]
    omega
  · rintro _ ⟨⟨k, rfl⟩, hle⟩
    rw [Nat.mul_comm align k]
    refine Nat.mul_le_mul_right align ?_
    rw [← Nat.lt_succ_iff, Nat.div_lt_iff_lt_mul h, Nat.succ_mul, Nat.mul_comm k]
    omega

theorem align_pos (t : UniformType) : 0 < t.align := by
  cases t <;> decide

theorem placedAfter_placeField (cursor : Nat) (name member : String) (source : FieldSource)
    (type : UniformType) : PlacedAfter cursor (placeField cursor name member source type) := by
  have hleast := isLeast_roundUp cursor (align_pos type)
  refine ⟨hleast, rfl, ?_⟩
  show (roundUp cursor type.align != cursor) = true ↔ cursor < roundUp cursor type.align
  have hle : cursor ≤ roundUp cursor type.align := hleast.1.2
  rw [bne_iff_ne]
  omega

/-! ## The inputs that count -/

theorem firsts_append (p : Input → Bool) (is : List Input) (i : Input) :
    firsts p (is ++ [i]) =
      firsts p is ++ if p i && !(is.map Input.name).contains i.name then [i] else [] := by
  induction is with
  | nil => simp [firsts]
  | cons j is ih =>
    grind [firsts]

theorem firsts_append_of_mem (h : i.name ∈ is.map Input.name) :
    firsts p (is ++ [i]) = firsts p is := by
  grind [firsts_append]

theorem firsts_append_of_not (h : p i = false) : firsts p (is ++ [i]) = firsts p is := by
  grind [firsts_append]

theorem firsts_append_of_new (h : i.name ∉ is.map Input.name) (hp : p i = true) :
    firsts p (is ++ [i]) = firsts p is ++ [i] := by
  grind [firsts_append]

theorem of_mem_firsts (h : i ∈ firsts p is) : p i = true := by
  induction is with
  | nil => exact absurd h not_mem_nil
  | cons j is ih =>
    grind [firsts]

theorem nodup_firsts (p : Input → Bool) (is : List Input) :
    ((firsts p is).map Input.name).Nodup := by
  induction is with
  | nil => exact nodup_nil
  | cons i is ih =>
    grind [firsts]

theorem exists_type_of_not_isTexture (h : i.kind.isTexture = false) :
    ∃ type, UniformType.ofInput i.kind = some type := by
  cases hi : i.kind <;> rw [hi] at h <;> first | exact ⟨_, rfl⟩ | cases h

theorem of_mem_accepted (h : i ∈ accepted is) :
    i.kind.isTexture = false ∧ isBuiltin i.name = false := by
  have hfield : hasField i = true := of_mem_firsts h
  grind [hasField]

theorem not_isBuiltin_of_mem_accepted (h : i ∈ accepted is) : isBuiltin i.name = false :=
  (of_mem_accepted h).2

/-! ## Packed fields -/

/-- The field as it is once the host's `speed` carries an input. -/
def claimed (f : UniformField) : UniformField :=
  if f.name == "speed" then { f with source := .input .float } else f

section Claimed

variable (f : UniformField)

@[simp] theorem claimed_type : (claimed f).type = f.type := by
  unfold claimed
  split <;> rfl

@[simp] theorem claimed_offset : (claimed f).offset = f.offset := by
  unfold claimed
  split <;> rfl

@[simp] theorem claimed_size : (claimed f).size = f.size := by
  unfold claimed
  split <;> rfl

@[simp] theorem claimed_padded : (claimed f).padded = f.padded := by
  unfold claimed
  split <;> rfl

@[simp] theorem claimed_finish : (claimed f).finish = f.finish := by
  simp [UniformField.finish]

theorem claimed_of_ne (h : f.name ≠ "speed") : claimed f = f := by
  rw [claimed, if_neg (by simpa using h)]

end Claimed

@[simp] theorem finishOf_map_claimed (fs : List UniformField) :
    finishOf (fs.map claimed) = finishOf fs := by
  rw [finishOf, finishOf, getLast?_map, Option.map_map]
  congr 2
  funext f
  exact claimed_finish f

/-- The fields stand one after the other, each at its place, and end at `cursor`. -/
structure Packed (fs : List UniformField) (cursor : Nat) : Prop where
  placed : ∀ k f, fs[k]? = some f → PlacedAfter (finishOf (fs.take k)) f
  disjoint : fs.Pairwise fun f g => f.finish ≤ g.offset
  before : ∀ f ∈ fs, f.finish ≤ cursor
  cursor : cursor = finishOf fs

theorem packed_nil : Packed [] 0 where
  placed := fun _ _ hf => nomatch hf
  disjoint := List.Pairwise.nil
  before := fun _ hf => absurd hf not_mem_nil
  cursor := rfl

theorem Packed.append {cursor : Nat} (h : Packed fs cursor)
    {f : UniformField} (hf : PlacedAfter cursor f) : Packed (fs ++ [f]) f.finish := by
  have hle : cursor ≤ f.offset := hf.offset.1.2
  refine ⟨fun k g hg => ?_, ?_, fun g hg => ?_, (finishOf_append_singleton fs f).symm⟩
  · rcases Nat.lt_or_ge k fs.length with hk | hk
    · rw [getElem?_append_left hk] at hg
      rw [take_append_of_le_length (Nat.le_of_lt hk)]
      exact h.placed k g hg
    · rw [getElem?_append_right hk, getElem?_singleton] at hg
      split at hg
      · obtain rfl := Option.some.inj hg
        have hlast : k = fs.length := by omega
        rw [hlast, take_left, ← h.cursor]
        exact hf
      · cases hg
  · rw [pairwise_append]
    refine ⟨h.disjoint, pairwise_singleton _ _, fun g hg g' hg' => ?_⟩
    rw [mem_singleton.mp hg']
    exact (h.before g hg).trans hle
  · rw [mem_append, mem_singleton] at hg
    rcases hg with hg | rfl
    · exact ((h.before g hg).trans hle).trans (Nat.le_add_right _ _)
    · exact Nat.le_refl _

theorem Packed.claim {cursor : Nat} (h : Packed fs cursor) :
    Packed (fs.map claimed) cursor := by
  refine ⟨fun k f hf => ?_, ?_, fun f hf => ?_, ?_⟩
  · rw [getElem?_map, Option.map_eq_some_iff] at hf
    obtain ⟨g, hg, rfl⟩ := hf
    rw [← map_take, finishOf_map_claimed]
    obtain ⟨hoffset, hsize, hpadded⟩ := h.placed k g hg
    exact ⟨by simpa using hoffset, by simpa using hsize, by simpa using hpadded⟩
  · rw [pairwise_map]
    refine h.disjoint.imp fun hle => ?_
    simpa using hle
  · obtain ⟨g, hg, rfl⟩ := mem_map.mp hf
    rw [claimed_finish]
    exact h.before g hg
  · rw [finishOf_map_claimed]
    exact h.cursor

/-! ## The fields of inputs -/

/-- The input claims the host's `speed`. -/
def isSpeed (i : Input) : Bool :=
  i.name == "speed" && i.kind == .float

/-- An input claims the host's `speed`. -/
def speedClaimed (inputs : List Input) : Bool :=
  ((firsts isSpeed inputs).map Input.name).contains "speed"

/-- The fields once they are claimed or not. -/
def claimedIf (claim : Bool) (fs : List UniformField) : List UniformField :=
  if claim then fs.map claimed else fs

/-- The fields of the host and of inputs, none of which is claimed. -/
def laid (renamePrefix : String) (is : List Input) : Draft :=
  is.foldl (fun d i => d.addField i.name (Draft.memberName renamePrefix i.name) (.input i.kind)
    ((UniformType.ofInput i.kind).getD .f32)) Draft.initial

/-- The field of an input, wherever it is placed. -/
def IsFieldOf (renamePrefix : String) (i : Input) (f : UniformField) : Prop :=
  ∃ cursor, f = placeField cursor i.name (Draft.memberName renamePrefix i.name) (.input i.kind)
    ((UniformType.ofInput i.kind).getD .f32)

variable {renamePrefix : String}

theorem speedClaimed_append_of_mem (h : i.name ∈ is.map Input.name) :
    speedClaimed (is ++ [i]) = speedClaimed is := by
  rw [speedClaimed, firsts_append_of_mem h, speedClaimed]

theorem speedClaimed_append_of_new (h : i.name ∉ is.map Input.name) :
    speedClaimed (is ++ [i]) = (speedClaimed is || isSpeed i) := by
  grind [isSpeed, speedClaimed, firsts_append_of_not, firsts_append_of_new]

theorem claimedIf_claimedIf (a b : Bool) (fs : List UniformField) :
    claimedIf a (claimedIf b fs) = claimedIf (b || a) fs := by
  have htwice : claimed ∘ claimed = claimed := by
    grind [claimed]
  cases a <;> cases b <;> simp [claimedIf, htwice]

theorem claimedIf_append (claim : Bool) {fs gs : List UniformField}
    (h : ∀ f ∈ gs, f.name ≠ "speed") : claimedIf claim (fs ++ gs) = claimedIf claim fs ++ gs := by
  unfold claimedIf
  split
  · rw [map_append, map_congr_left fun f hf => claimed_of_ne f (h f hf), map_id']
  · rfl

theorem laid_append (renamePrefix : String) (is : List Input) (i : Input) :
    laid renamePrefix (is ++ [i]) =
      (laid renamePrefix is).addField i.name (Draft.memberName renamePrefix i.name) (.input i.kind)
        ((UniformType.ofInput i.kind).getD .f32) := by
  rw [laid, foldl_append]
  rfl

theorem exists_laid_fields (renamePrefix : String) (is : List Input) :
    ∃ fs, (laid renamePrefix is).fields = Draft.initial.fields ++ fs ∧
      List.Forall₂ (IsFieldOf renamePrefix) is fs := by
  induction is using reverseRecOn with
  | nil => exact ⟨[], (append_nil _).symm, .nil⟩
  | append_singleton is i ih =>
    obtain ⟨fs, hfs, hof⟩ := ih
    rw [laid_append]
    exact ⟨fs ++ [_], by rw [← append_assoc, ← hfs]; rfl, rel_append hof (.cons ⟨_, rfl⟩ .nil)⟩

theorem map_eq_of_isFieldOf {β : Type} {view : UniformField → β} {shown : Input → β} (h : List.Forall₂ (IsFieldOf renamePrefix) is fs)
    (hview : ∀ i ∈ is, ∀ f, IsFieldOf renamePrefix i f → view f = shown i) :
    fs.map view = is.map shown := by
  induction h with
  | nil => rfl
  | cons hf _ ih =>
    grind

theorem map_name_of_isFieldOf
    (h : List.Forall₂ (IsFieldOf renamePrefix) is fs) :
    fs.map UniformField.name = is.map Input.name := by
  refine map_eq_of_isFieldOf h fun i _ f hf => ?_
  obtain ⟨cursor, rfl⟩ := hf
  rfl

theorem packed_laid (renamePrefix : String) (is : List Input) :
    Packed (laid renamePrefix is).fields (laid renamePrefix is).cursor := by
  have hadd : ∀ (d : Draft) name member source type, Packed d.fields d.cursor →
      Packed (d.addField name member source type).fields
        (d.addField name member source type).cursor :=
    fun d name member source type h => h.append (placedAfter_placeField d.cursor ..)
  refine foldlRecOn (motive := fun d => Packed d.fields d.cursor) is _ ?_ fun d hd i _ =>
    hadd d _ _ _ _ hd
  exact foldlRecOn (motive := fun d => Packed d.fields d.cursor) (b := {}) builtinFields _
    packed_nil fun d hd f _ => hadd d _ _ _ _ hd

/-! ## Drafts -/

namespace Draft

variable (d : Draft) (i : Input) {done : List Input}

@[simp] theorem reportKind_fields : (d.reportKind i).fields = d.fields := by
  unfold reportKind
  split <;> rfl

@[simp] theorem reportKind_cursor : (d.reportKind i).cursor = d.cursor := by
  unfold reportKind
  split <;> rfl

@[simp] theorem reportKind_seen : (d.reportKind i).seen = d.seen := by
  unfold reportKind
  split <;> rfl

@[simp] theorem reportKind_textures : (d.reportKind i).textures = d.textures := by
  unfold reportKind
  split <;> rfl

/-- All that a new input can do to the fields and the images of a draft: it adds an image, it meets
a name of the host and at most claims the field `speed`, or it adds a field. -/
inductive Adds (renamePrefix : String) (d : Draft) (i : Input) (d' : Draft) : Prop
  | image (kind : i.kind.isTexture = true) (fields : d'.fields = d.fields)
      (cursor : d'.cursor = d.cursor)
      (textures : d'.textures = (d.addTexture i.name i.kind).textures)
  | host (kind : i.kind.isTexture = false) (name : isBuiltin i.name = true)
      (fields : d'.fields = claimedIf (isSpeed i) d.fields)
      (cursor : d'.cursor = d.cursor) (textures : d'.textures = d.textures)
  | field (kind : i.kind.isTexture = false) (name : isBuiltin i.name = false) {type : UniformType}
      (typed : UniformType.ofInput i.kind = some type)
      (fields : d'.fields = d.fields ++
        [placeField d.cursor i.name (memberName renamePrefix i.name) (.input i.kind) type])
      (cursor : d'.cursor =
        (placeField d.cursor i.name (memberName renamePrefix i.name) (.input i.kind) type).finish)
      (textures : d'.textures = d.textures)

theorem addInput_of_mem {d : Draft} {i : Input} (h : i.name ∈ d.seen) :
    addInput renamePrefix d i = d.notice (.duplicateInput i.name) := by
  rw [addInput, if_pos (contains_iff_mem.mpr h)]

theorem seen_addInput {d : Draft} {i : Input} (h : i.name ∉ d.seen) :
    (addInput renamePrefix d i).seen = i.name :: d.seen := by
  rw [addInput, if_neg (by rwa [contains_iff_mem])]
  dsimp only
  split
  · rfl
  · split
    · split <;> rfl
    · split
      · exact reportKind_seen _ i
      · rfl

/-- **What a new input does to a draft.** -/
theorem adds_addInput {d : Draft} {i : Input} (h : i.name ∉ d.seen) :
    Adds renamePrefix d i (addInput renamePrefix d i) := by
  rw [addInput, if_neg (by rwa [contains_iff_mem])]
  dsimp only
  by_cases hkind : i.kind.isTexture = true
  · rw [if_pos hkind]
    exact .image hkind rfl rfl rfl
  · rw [if_neg hkind]
    rw [Bool.not_eq_true] at hkind
    by_cases hname : isBuiltin i.name = true
    · rw [if_pos hname]
      refine .host hkind hname ?_ ?_ ?_
      · rw [claimedIf, isSpeed]
        split <;> rfl
      · split <;> rfl
      · split <;> rfl
    · rw [if_neg hname]
      rw [Bool.not_eq_true] at hname
      obtain ⟨type, htype⟩ := exists_type_of_not_isTexture hkind
      rw [htype]
      refine .field hkind hname htype ?_ ?_ ?_
      · simp [addField]
      · simp [addField, UniformField.finish]
      · simp [addField]

/-- What holds of a draft once the inputs `done` have been added. -/
structure Lays (renamePrefix : String) (done : List Input) (d : Draft) : Prop where
  seen : ∀ n, n ∈ d.seen ↔ n ∈ done.map Input.name
  cursor : d.cursor = (laid renamePrefix (accepted done)).cursor
  fields : d.fields = claimedIf (speedClaimed done) (laid renamePrefix (accepted done)).fields
  images : d.textures.map TextureBinding.name = (images done).map Input.name

section

variable {d : Draft} {i : Input} (h : Lays renamePrefix done d)
include h

theorem Lays.addInput_of_mem (hname : i.name ∈ d.seen) :
    Lays renamePrefix (done ++ [i]) (addInput renamePrefix d i) := by
  have hmem : i.name ∈ done.map Input.name := (h.seen _).mp hname
  rw [Draft.addInput_of_mem hname]
  refine ⟨fun n => ?_, ?_, ?_, ?_⟩
  · rw [map_append, mem_append, ← h.seen]
    refine (or_iff_left_of_imp fun hn => ?_).symm
    rwa [mem_singleton.mp hn]
  · rw [accepted, firsts_append_of_mem hmem]
    exact h.cursor
  · rw [accepted, firsts_append_of_mem hmem, speedClaimed_append_of_mem hmem]
    exact h.fields
  · rw [Layout.images, firsts_append_of_mem hmem]
    exact h.images

theorem Lays.addInput (i : Input) :
    Lays renamePrefix (done ++ [i]) (addInput renamePrefix d i) := by
  by_cases hname : i.name ∈ d.seen
  · exact h.addInput_of_mem hname
  · have hnew : i.name ∉ done.map Input.name := fun hmem => hname ((h.seen _).mpr hmem)
    have hseen : ∀ n, n ∈ (Draft.addInput renamePrefix d i).seen ↔
        n ∈ (done ++ [i]).map Input.name := by
      intro n
      rw [seen_addInput hname, mem_cons, h.seen, map_append, mem_append, or_comm]
      simp
    have hclaimed := speedClaimed_append_of_new hnew
    cases @adds_addInput renamePrefix d i hname with
    | image hkind hfields hcursor htextures =>
      have haccepted : accepted (done ++ [i]) = accepted done :=
        firsts_append_of_not (by simp [hasField, hkind])
      have hspeed : isSpeed i = false := by
        rw [isSpeed, Bool.and_eq_false_iff, beq_eq_false_iff_ne, beq_eq_false_iff_ne]
        refine .inr fun hfloat => ?_
        rw [hfloat] at hkind
        cases hkind
      refine ⟨hseen, by rw [hcursor, haccepted, h.cursor], ?_, ?_⟩
      · rw [hfields, haccepted, hclaimed, hspeed, Bool.or_false, h.fields]
      · rw [htextures, Layout.images, firsts_append_of_new hnew hkind, map_append, ← Layout.images,
          ← h.images]
        exact map_append
    | host hkind hbuiltin hfields hcursor htextures =>
      have haccepted : accepted (done ++ [i]) = accepted done :=
        firsts_append_of_not (by simp [hasField, hbuiltin])
      refine ⟨hseen, by rw [hcursor, haccepted, h.cursor], ?_, ?_⟩
      · rw [hfields, haccepted, hclaimed, h.fields, claimedIf_claimedIf]
      · rw [htextures, Layout.images, firsts_append_of_not hkind]
        exact h.images
    | field hkind hbuiltin htype hfields hcursor htextures =>
      have haccepted : accepted (done ++ [i]) = accepted done ++ [i] :=
        firsts_append_of_new hnew (by simp [hasField, hkind, hbuiltin])
      have hspeed : i.name ≠ "speed" := by
        intro hspeed
        rw [hspeed] at hbuiltin
        exact absurd hbuiltin (by decide)
      refine ⟨hseen, ?_, ?_, ?_⟩
      · rw [hcursor, haccepted, laid_append, htype, h.cursor]
        rfl
      · rw [hfields, haccepted, hclaimed, isSpeed, beq_eq_false_iff_ne.mpr hspeed, Bool.false_and,
          Bool.or_false, laid_append, htype, h.fields, h.cursor]
        exact (claimedIf_append _ (forall_mem_singleton.mpr hspeed)).symm
      · rw [htextures, Layout.images, firsts_append_of_not hkind]
        exact h.images

end

/-- **Every draft that is made from inputs lays them out.** -/
theorem lays_foldl (renamePrefix : String) (inputs : List Input) :
    Lays renamePrefix inputs (inputs.foldl (Draft.addInput renamePrefix) initial) := by
  induction inputs using reverseRecOn with
  | nil => exact ⟨fun _ => Iff.rfl, rfl, rfl, rfl⟩
  | append_singleton inputs i ih =>
    rw [foldl_append, foldl_cons, foldl_nil]
    exact ih.addInput i

end Draft

theorem textures_analyze (renamePrefix : String) :
    (analyze inputs renamePrefix).1.textures.map TextureBinding.name =
      (images inputs).map Input.name :=
  (Draft.lays_foldl renamePrefix inputs).images

/-- **The fields are those of the host and of the accepted inputs**, and the first input with the
name `speed` decides who gives the host's field of that name. -/
theorem fields_analyze (renamePrefix : String) :
    (analyze inputs renamePrefix).1.fields =
      claimedIf (speedClaimed inputs) (laid renamePrefix (accepted inputs)).fields :=
  (Draft.lays_foldl renamePrefix inputs).fields

theorem exists_fields_analyze (renamePrefix : String) :
    ∃ fs, (analyze inputs renamePrefix).1.fields =
        claimedIf (speedClaimed inputs) Draft.initial.fields ++ fs ∧
      List.Forall₂ (IsFieldOf renamePrefix) (accepted inputs) fs := by
  obtain ⟨fs, hfs, hof⟩ := exists_laid_fields renamePrefix (accepted inputs)
  rw [fields_analyze, hfs]
  refine ⟨fs, claimedIf_append _ fun f hf hspeed => ?_, hof⟩
  have hname : f.name ∈ (accepted inputs).map Input.name :=
    map_name_of_isFieldOf hof ▸ mem_map_of_mem hf
  obtain ⟨i, hi, heq⟩ := mem_map.mp hname
  have hbuiltin := not_isBuiltin_of_mem_accepted hi
  rw [heq, hspeed] at hbuiltin
  cases hbuiltin

theorem nodup_names_analyze (renamePrefix : String) :
    ((analyze inputs renamePrefix).1.fields.map UniformField.name).Nodup := by
  obtain ⟨fs, hfs, hof⟩ := exists_fields_analyze inputs renamePrefix
  have hhost : ∀ claim, (claimedIf claim Draft.initial.fields).map UniformField.name =
      builtinFields.map Prod.fst := by decide
  rw [hfs, map_append, hhost, map_name_of_isFieldOf hof, nodup_append]
  refine ⟨by decide, nodup_firsts hasField inputs, fun a ha b hb hab => ?_⟩
  grind [not_isBuiltin_of_mem_accepted, isBuiltin]

/-- **The layout of any inputs is their natural layout.** -/
theorem analyze_isNatural (inputs : List Input) (renamePrefix : String) :
    IsNatural inputs (analyze inputs renamePrefix).1 := by
  obtain ⟨fs, hfs, hof⟩ := exists_fields_analyze inputs renamePrefix
  have hlength : ∀ claim, (claimedIf claim Draft.initial.fields).length = 8 := by decide
  have hhost : ∀ claim, (claimedIf claim Draft.initial.fields).map hostView = hostOffsets := by
    decide
  have hpacked : Packed (analyze inputs renamePrefix).1.fields
      (inputs.foldl (Draft.addInput renamePrefix) Draft.initial).cursor := by
    rw [fields_analyze, (Draft.lays_foldl renamePrefix inputs).cursor, claimedIf]
    split
    · exact (packed_laid renamePrefix _).claim
    · exact packed_laid renamePrefix _
  refine ⟨?_, ?_, hpacked.placed, hpacked.disjoint, nodup_names_analyze inputs renamePrefix, ?_⟩
  · rw [hfs, take_left' (hlength _), hhost]
  · rw [hfs, drop_left' (hlength _)]
    refine map_eq_of_isFieldOf hof fun i hi f hf => ?_
    obtain ⟨cursor, rfl⟩ := hf
    obtain ⟨type, htype⟩ := exists_type_of_not_isTexture (of_mem_accepted hi).1
    rw [inputView, viewOf, htype]
    rfl
  · show IsLeast _ (roundUp _ 16)
    rw [hpacked.cursor]
    exact isLeast_roundUp _ (by decide)

end Layout

end ShaderEffect
