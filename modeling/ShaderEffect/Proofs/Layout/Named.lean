import ShaderEffect.Proofs.Layout.Uniform

/-!
# What a layout holds under a name

Several inputs may have one name, and then the first of them decides: it gets a field or an image, it
claims the host's `speed`, or a field of the host wins over it and it is dropped. `named` lists the
inputs of one name, and `without` takes the first of them away. **Without an input that was dropped,
the layout has the same fields and the same images of all other names** (`fields_without`,
`texture?_analyze`), unless the next input of that name claims the host's `speed`.
-/

namespace ShaderEffect.Layout

open List

variable {name : String} (inputs : List Input) (renamePrefix : String)

/-! ## Inputs of one name -/

/-- The inputs with the given name, in order. -/
def named (inputs : List Input) (name : String) : List Input :=
  inputs.filter fun i => i.name == name

/-- The inputs without the first of the given name. -/
def without (inputs : List Input) (name : String) : List Input :=
  inputs.eraseP fun i => i.name == name

section Lists

variable {i : Input} {is : List Input} {name other : String}

@[simp] theorem named_cons_of_eq (h : i.name = name) :
    named (i :: is) name = i :: named is name := by
  simp [named, h]

@[simp] theorem named_cons_of_ne (h : i.name ≠ name) : named (i :: is) name = named is name := by
  simp [named, h]

@[simp] theorem without_cons_of_eq (h : i.name = name) : without (i :: is) name = is := by
  simp [without, h]

@[simp] theorem without_cons_of_ne (h : i.name ≠ name) :
    without (i :: is) name = i :: without is name := by
  simp [without, h]

theorem name_of_mem_named (h : i ∈ named is name) : i.name = name := by
  simpa using of_mem_filter h

theorem named_append (is js : List Input) (name : String) :
    named (is ++ js) name = named is name ++ named js name :=
  filter_append ..

theorem named_eq_nil_iff : named is name = [] ↔ name ∉ is.map Input.name := by
  simp [named, filter_eq_nil_iff]

end Lists

theorem named_without (name : String) :
    named (without inputs name) name = (named inputs name).tail := by
  induction inputs with
  | nil => rfl
  | cons i is ih => by_cases h : i.name = name <;> simp [h, ih]

theorem named_without_of_ne {other : String} (hne : other ≠ name) (inputs : List Input) :
    named (without inputs name) other = named inputs other := by
  induction inputs with
  | nil => rfl
  | cons i is ih =>
    by_cases h : i.name = name
    · grind [without_cons_of_eq, named_cons_of_ne]
    · rw [without_cons_of_ne h]
      by_cases hother : i.name = other
      · rw [named_cons_of_eq hother, named_cons_of_eq hother, ih]
      · rw [named_cons_of_ne hother, named_cons_of_ne hother, ih]

/-- Of the inputs that satisfy `p` and are not hidden, one has a name if the first of that name
satisfies `p`. -/
theorem mem_map_firsts_iff {p : Input → Bool} {inputs : List Input} :
    name ∈ (firsts p inputs).map Input.name ↔ ∃ i ∈ (named inputs name).head?, p i = true := by
  induction inputs with
  | nil => simp [firsts, named]
  | cons i is ih =>
    grind [firsts, named]

theorem firsts_without {p : Input → Bool} (hp : ∀ i : Input, i.name = name → p i = false)
    (inputs : List Input) : firsts p (without inputs name) = firsts p inputs := by
  induction inputs with
  | nil => rfl
  | cons i is ih =>
    by_cases h : i.name = name
    · grind [firsts, filter_eq_self, of_mem_firsts, without_cons_of_eq]
    · rw [without_cons_of_ne h, firsts, firsts, ih]

/-! ## Images -/

theorem texture?_analyze (name : String) :
    ((analyze inputs renamePrefix).1.texture? name).isSome =
      (named inputs name).head?.any fun i => i.kind.isTexture := by
  have hmem : name ∈ (analyze inputs renamePrefix).1.textures.map TextureBinding.name ↔
      ∃ i ∈ (named inputs name).head?, i.kind.isTexture = true := by
    rw [textures_analyze, images, mem_map_firsts_iff]
  rw [Bool.eq_iff_iff, texture?, find?_isSome, Option.any_eq_true]
  simpa using hmem

/-! ## Fields -/

/-- The first input with the name of the host's `speed` is a float, and claims it. -/
def claims (inputs : List Input) : Bool :=
  (named inputs "speed").head?.any fun i => i.kind == .float

theorem speedClaimed_eq : speedClaimed inputs = claims inputs := by
  rw [Bool.eq_iff_iff, speedClaimed, contains_iff_mem, mem_map_firsts_iff, claims,
    Option.any_eq_true]
  refine exists_congr fun i => and_congr_right fun hi => ?_
  grind [name_of_mem_named, isSpeed]

/-- An input with a name of the host can be taken away, unless that changes who claims the host's
`speed`. -/
theorem fields_without {inputs : List Input} (hbuiltin : isBuiltin name = true)
    (hclaims : claims (without inputs name) = claims inputs) (renamePrefix : String) :
    (analyze (without inputs name) renamePrefix).1.fields =
      (analyze inputs renamePrefix).1.fields := by
  grind [accepted, firsts_without, hasField, fields_analyze, speedClaimed_eq]

def hostNames : List String :=
  builtinFields.map Prod.fst

theorem mem_hostNames_iff : name ∈ hostNames ↔ isBuiltin name = true := by
  simp [hostNames, isBuiltin]

/-- The field of the host with the given name. -/
def hostField? (claim : Bool) (name : String) : Option UniformField :=
  (claimedIf claim Draft.initial.fields).find? fun f => f.name == name

theorem isSome_hostField? (claim : Bool) :
    ∀ name ∈ hostNames, (hostField? claim name).isSome = true := by
  cases claim <;> decide

theorem field?_analyze (hname : name ∈ hostNames) (inputs : List Input) (renamePrefix : String) :
    (analyze inputs renamePrefix).1.field? name = hostField? (claims inputs) name := by
  obtain ⟨fs, hfs, -⟩ := exists_fields_analyze inputs renamePrefix
  rw [field?, hfs, speedClaimed_eq, find?_append, ← hostField?]
  exact Option.or_of_isSome (isSome_hostField? _ name hname)

/-! ## Inputs that are dropped -/

/-- The input is dropped for a field of the host, if no other input of its name stands before it. -/
def Collides (i : Input) : Prop :=
  i.kind.isTexture = false ∧ isBuiltin i.name = true ∧ ¬ (i.name = "speed" ∧ i.kind = .float)

theorem Collides.mem_hostNames {i : Input} (h : Collides i) : i.name ∈ hostNames :=
  mem_hostNames_iff.mpr h.2.1

namespace Draft

theorem mem_notices_addInput {renamePrefix : String} {d : Draft} {i : Input}
    (h : .builtinCollision name ∈ (addInput renamePrefix d i).notices) :
    .builtinCollision name ∈ d.notices ∨ i.name ∉ d.seen ∧ i.name = name ∧ Collides i := by
  by_cases hname : i.name ∈ d.seen
  · rw [addInput_of_mem hname] at h
    rcases mem_append.mp h with hd | hnew
    · exact .inl hd
    · cases mem_singleton.mp hnew
  · rw [addInput, if_neg (by rwa [contains_iff_mem])] at h
    dsimp only at h
    split at h
    · exact .inl h
    · rename_i hkind
      split at h
      · rename_i hbuiltin
        split at h
        · exact .inl h
        · rename_i hspeed
          rcases mem_append.mp h with hd | hnew
          · exact .inl hd
          · cases mem_singleton.mp hnew
            exact .inr ⟨hname, rfl, by simpa using hkind, hbuiltin, by simpa using hspeed⟩
      · split at h
        · unfold reportKind at h
          split at h
          · rcases mem_append.mp h with hd | hnew
            · exact .inl hd
            · cases mem_singleton.mp hnew
          · exact .inl h
        · exact .inl h

theorem collides_foldl {renamePrefix : String}
    (h : .builtinCollision name ∈ (inputs.foldl (addInput renamePrefix) initial).notices) :
    ∃ dropped rest, named inputs name = dropped :: rest ∧ Collides dropped := by
  induction inputs using reverseRecOn with
  | nil => cases h
  | append_singleton inputs i ih =>
    rw [foldl_append, foldl_cons, foldl_nil] at h
    rcases mem_notices_addInput h with hbefore | ⟨hseen, rfl, hcollides⟩
    · grind [named_append]
    · have hnew : named inputs i.name = [] := by
        rw [named_eq_nil_iff, ← (lays_foldl renamePrefix inputs).seen]
        exact hseen
      exact ⟨i, [], by simp [named_append, hnew, show named [] i.name = [] from rfl], hcollides⟩

end Draft

/-- **Where a collision is reported, the first input of that name collides.** -/
theorem collides_of_mem {inputs : List Input} {renamePrefix : String}
    (h : .builtinCollision name ∈ (analyze inputs renamePrefix).2) :
    ∃ dropped rest, named inputs name = dropped :: rest ∧ Collides dropped :=
  Draft.collides_foldl inputs h

end ShaderEffect.Layout
