import Mathlib.Data.List.Forall2
import ShaderEffect.Layout.Bind
import ShaderEffect.Proofs.Layout.Uniform
import ShaderEffect.Wgsl.Module

/-!
# The names of bindings

A pass is bound under the first of its names that a body refers to, an image under its own name.
Nothing keeps two passes from sharing a name, or a pass from having the name of an image, and then
both can be bound under that name. **The variables of the bindings are declared once, whatever a
body refers to, exactly when no name belongs to two of the images and passes**
(`nodup_bindingVars_iff_disjoint`).
-/

namespace ShaderEffect

open List

namespace Wgsl

theorem textureVar_injective : Function.Injective textureVar := by
  intro m n h
  grind [textureVar, String.toList_append, append_cancel_left_eq, String.toList_injective]

theorem samplerVar_injective : Function.Injective samplerVar := by
  intro m n h
  grind [samplerVar, String.toList_append, append_cancel_left_eq, String.toList_injective]

theorem textureVar_ne_samplerVar (m n : String) : textureVar m ≠ samplerVar n := by
  intro h
  have hlist := congrArg (fun s : String => s.toList.take 8) h
  simp [textureVar, samplerVar] at hlist

/-- The line declares the variable as a binding in the group of the images. -/
def DeclaresBinding (var line : String) : Prop :=
  ∃ (number : Nat) (type : String),
    line = "@group(1) @binding(" ++ toString number ++ ") var " ++ var ++ ": " ++ type ++ ";"

end Wgsl

namespace Layout

/-- The names of the bindings, in the order of their declarations. -/
def bindingNames (l : Layout) : List String :=
  l.textures.map TextureBinding.name ++ l.passes.map PassBinding.name

/-- The variables of the bindings, in the order of their declarations. -/
def bindingVars (l : Layout) : List String :=
  l.bindingNames.flatMap fun n => [Wgsl.textureVar n, Wgsl.samplerVar n]

theorem forall₂_declaresBinding (l : Layout) :
    List.Forall₂ Wgsl.DeclaresBinding l.bindingVars (Wgsl.allBindingLines l) := by
  have hlines : ∀ n texture sampler, List.Forall₂ Wgsl.DeclaresBinding
      [Wgsl.textureVar n, Wgsl.samplerVar n] (Wgsl.bindingLines n texture sampler) := by
    intro n texture sampler
    refine .cons ⟨texture, "texture_2d<f32>", ?_⟩ (.cons ⟨sampler, "sampler", ?_⟩ .nil)
    · simp [String.append_assoc]
    · simp [String.append_assoc]
  have hpieces : ∀ {β : Type} (bs : List β) (name : β → String) (texture sampler : β → Nat),
      List.Forall₂ Wgsl.DeclaresBinding
        ((bs.map name).flatMap fun n => [Wgsl.textureVar n, Wgsl.samplerVar n])
        (bs.flatMap fun b => Wgsl.bindingLines (name b) (texture b) (sampler b)) := by
    intro β bs name texture sampler
    induction bs with
    | nil => exact .nil
    | cons b bs ih => exact rel_append (hlines (name b) (texture b) (sampler b)) ih
  unfold bindingVars bindingNames Wgsl.allBindingLines
  rw [flatMap_append]
  exact rel_append (hpieces _ _ _ _) (hpieces _ _ _ _)

theorem nodup_bindingVars_iff (l : Layout) : l.bindingVars.Nodup ↔ l.bindingNames.Nodup := by
  unfold bindingVars
  rw [nodup_flatMap]
  constructor
  · rintro ⟨-, hdisjoint⟩
    refine hdisjoint.imp fun {m n} h hmn => ?_
    subst hmn
    exact h mem_cons_self mem_cons_self
  · intro hnodup
    refine ⟨fun n _ => ?_, hnodup.imp fun {m n} hmn var hm hn => ?_⟩
    · simp [Wgsl.textureVar_ne_samplerVar]
    grind [Wgsl.textureVar_injective, Wgsl.textureVar_ne_samplerVar, Wgsl.samplerVar_injective]

/-! ## The passes that are bound -/

/-- The names of each pass from position `index` on. -/
def passNames (index : Nat) : List RenderPass → List (List String)
  | [] => []
  | p :: ps => p.names index :: passNames (index + 1) ps

/-- The name among `names` under which something is bound: the first that is referred to. -/
def bound? (referenced names : List String) : Option String :=
  names.find? referenced.contains

theorem mem_of_bound? {referenced names : List String} {n : String}
    (h : bound? referenced names = some n) : n ∈ names ∧ n ∈ referenced :=
  ⟨mem_of_find?_eq_some h, contains_iff_mem.mp (find?_some h)⟩

theorem bound?_singleton {names : List String} {n : String} (h : n ∈ names) :
    bound? [n] names = some n := by
  cases hfind : bound? [n] names with
  | none =>
    have hnot := find?_eq_none.mp hfind n h
    simp at hnot
  | some m => rw [mem_singleton.mp (mem_of_bound? hfind).2]

theorem names_bindFrom (referenced : List String) (slot index : Nat) (ps : List RenderPass) :
    (bindFrom referenced slot index ps).map PassBinding.name =
      (passNames index ps).filterMap (bound? referenced) := by
  induction ps generalizing slot index with
  | nil => rfl
  | cons p ps ih =>
    rw [bindFrom, passNames, filterMap_cons, bound?]
    split
    · rename_i name hname
      rw [hname, map_cons, ih]
      rfl
    · rename_i hname
      rw [hname, ih]

theorem bindingNames_bindPasses_analyze (inputs : List Input) (renamePrefix : String)
    (passes : List RenderPass) (referenced : List String) :
    ((analyze inputs renamePrefix).1.bindPasses passes referenced).bindingNames =
      (images inputs).map Input.name ++ (passNames 0 passes).filterMap (bound? referenced) := by
  unfold bindingNames
  exact congrArg₂ (· ++ ·) (textures_analyze inputs renamePrefix) (names_bindFrom _ _ _ _)

/-! ## Shared names -/

/-- For each image and for each pass, the names that it can be bound under. -/
def bindable (inputs : List Input) (passes : List RenderPass) : List (List String) :=
  (images inputs).map (fun i => [i.name]) ++ passNames 0 passes

theorem nodup_filterMap_bound? {names : List (List String)} (h : names.Pairwise List.Disjoint)
    (referenced : List String) : (names.filterMap (bound? referenced)).Nodup := by
  refine List.Pairwise.filterMap _ (fun a b hab m hm n hn hmn => ?_) h
  subst hmn
  exact hab (mem_of_bound? hm).1 (mem_of_bound? hn).1

theorem pairwise_disjoint_of_nodup {names : List (List String)}
    (h : ∀ n, (names.filterMap (bound? [n])).Nodup) : names.Pairwise List.Disjoint := by
  induction names with
  | nil => exact .nil
  | cons a names ih =>
    refine pairwise_cons.mpr ⟨fun b hb n ha hn => ?_, ih fun n => ?_⟩
    · have hnodup := h n
      grind [bound?_singleton]
    grind

/-- **The variables of the bindings are pairwise distinct, whatever a body refers to, exactly when
no name belongs to two of the images and passes.** -/
theorem nodup_bindingVars_iff_disjoint (inputs : List Input) (renamePrefix : String)
    (passes : List RenderPass) :
    (∀ referenced,
        ((analyze inputs renamePrefix).1.bindPasses passes referenced).bindingVars.Nodup) ↔
      (bindable inputs passes).Pairwise List.Disjoint := by
  have himages : ((images inputs).map fun i => [i.name]).Pairwise List.Disjoint := by
    rw [pairwise_map]
    refine (pairwise_map.mp (nodup_firsts _ inputs)).imp fun hne n hi hj => ?_
    exact hne ((mem_singleton.mp hi).symm.trans (mem_singleton.mp hj))
  have hsplit : ∀ referenced,
      ((analyze inputs renamePrefix).1.bindPasses passes referenced).bindingVars.Nodup ↔
        ((passNames 0 passes).filterMap (bound? referenced)).Nodup ∧
          ∀ i ∈ images inputs, i.name ∉ (passNames 0 passes).filterMap (bound? referenced) := by
    intro referenced
    rw [nodup_bindingVars_iff, bindingNames_bindPasses_analyze, nodup_append']
    constructor
    · rintro ⟨-, hpasses, hdisjoint⟩
      exact ⟨hpasses, fun i hi => hdisjoint (mem_map_of_mem hi)⟩
    · rintro ⟨hpasses, hnot⟩
      refine ⟨nodup_firsts _ inputs, hpasses, fun n hn => ?_⟩
      obtain ⟨i, hi, rfl⟩ := mem_map.mp hn
      exact hnot i hi
  rw [bindable, pairwise_append]
  constructor
  · intro h
    refine ⟨himages, pairwise_disjoint_of_nodup fun n => ((hsplit [n]).mp (h [n])).1, ?_⟩
    intro a ha b hb n hna hnb
    obtain ⟨i, hi, rfl⟩ := mem_map.mp ha
    rw [mem_singleton] at hna
    subst hna
    -- the pass is bound under the name of the image if nothing else is referred to
    exact ((hsplit [i.name]).mp (h [i.name])).2 i hi
      (mem_filterMap.mpr ⟨b, hb, bound?_singleton hnb⟩)
  · rintro ⟨-, hpasses, hcross⟩ referenced
    refine (hsplit referenced).mpr ⟨nodup_filterMap_bound? hpasses referenced, fun i hi hmem => ?_⟩
    obtain ⟨b, hb, hbound⟩ := mem_filterMap.mp hmem
    exact hcross _ (mem_map_of_mem hi) b hb mem_cons_self (mem_of_bound? hbound).1

end Layout

end ShaderEffect
