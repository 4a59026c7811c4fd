import Mathlib
import ShaderEffect.Options
import ShaderEffect.Proofs.Layout.Uniform
import ShaderEffect.Proofs.Wgsl.Reserved

/-!
# The members of the uniform structure

A field of the host is a member under its own name. An input is one too, unless its name is reserved:
then the prefix for renamed words stands before it. Nothing keeps another input from having that very
name. **The members are pairwise distinct exactly when no input is named like the prefix and the
reserved name of another one** (`nodup_members_iff`), whatever the prefix is.
-/

namespace ShaderEffect.Layout

open List

variable {i : Input} {renamePrefix : String}

/-- The members of the uniform structure, in the order of their declarations. -/
def members (l : Layout) : List String :=
  l.fields.map UniformField.member

/-- The member of an input that gets a field. -/
def memberOf (renamePrefix : String) (i : Input) : String :=
  Draft.memberName renamePrefix i.name

theorem memberOf_of_isReserved (h : Wgsl.isReserved i.name = true) :
    memberOf renamePrefix i = renamePrefix ++ i.name := by
  rw [memberOf, Draft.memberName, if_pos h]

theorem memberOf_of_not_isReserved (h : Wgsl.isReserved i.name = false) :
    memberOf renamePrefix i = i.name := by
  rw [memberOf, Draft.memberName, if_neg (by simp [h])]

theorem members_analyze (inputs : List Input) (renamePrefix : String) :
    (analyze inputs renamePrefix).1.members =
      builtinFields.map Prod.fst ++ (accepted inputs).map (memberOf renamePrefix) := by
  have hhost : ∀ claim, (claimedIf claim Draft.initial.fields).map UniformField.member =
      builtinFields.map Prod.fst := by decide
  obtain ⟨fs, hfs, hof⟩ := exists_fields_analyze inputs renamePrefix
  rw [members, hfs, map_append, hhost]
  refine congrArg _ (map_eq_of_isFieldOf hof fun i _ f hf => ?_)
  obtain ⟨cursor, rfl⟩ := hf
  rfl

/-! ## Shared members -/

theorem isReserved_of_append_eq_builtin {text name : String}
    (h : text ++ name ∈ builtinFields.map Prod.fst) : Wgsl.isReserved name = false := by
  by_contra hne
  rcases Wgsl.isReserved_cases (Bool.eq_true_of_not_eq_false hne) with hprefix | hword
  · have hunderscore : ∀ b ∈ builtinFields.map Prod.fst, '_' ∉ b.toList := by decide_cbv
    obtain ⟨rest, hrest⟩ := isPrefixOf_iff_prefix.mp hprefix
    refine hunderscore _ h ?_
    rw [String.toList_append, ← hrest]
    simp
  · have hends : ∀ w ∈ Wgsl.words, ∀ b ∈ builtinFields.map Prod.fst,
        (Wgsl.bytes w).isSuffixOf (Wgsl.bytes b) = false := by
      decide +kernel
    have hsuffix : Wgsl.bytes name <:+ Wgsl.bytes (text ++ name) :=
      ⟨Wgsl.bytes text, (Wgsl.bytes_append text name).symm⟩
    have hnot := hends name hword _ h
    rw [isSuffixOf_iff_suffix.mpr hsuffix] at hnot
    cases hnot

theorem memberOf_not_mem_builtin {inputs : List Input} (h : i ∈ accepted inputs)
    (renamePrefix : String) : memberOf renamePrefix i ∉ builtinFields.map Prod.fst := by
  intro hmem
  cases hreserved : Wgsl.isReserved i.name with
  | true =>
    rw [memberOf_of_isReserved hreserved] at hmem
    rw [isReserved_of_append_eq_builtin hmem] at hreserved
    cases hreserved
  | false =>
    rw [memberOf_of_not_isReserved hreserved] at hmem
    have hbuiltin := not_isBuiltin_of_mem_accepted h
    rw [isBuiltin, any_eq_false] at hbuiltin
    obtain ⟨f, hf, hname⟩ := mem_map.mp hmem
    exact hbuiltin f hf (by simp [hname])

/-- The reserved name of `i` becomes the name that `j` has. -/
def Clashes (renamePrefix : String) (i j : Input) : Prop :=
  Wgsl.isReserved i.name = true ∧ Wgsl.isReserved j.name = false ∧ j.name = renamePrefix ++ i.name

theorem memberOf_eq_iff {j : Input} (hne : i.name ≠ j.name) :
    memberOf renamePrefix i = memberOf renamePrefix j ↔
      Clashes renamePrefix i j ∨ Clashes renamePrefix j i := by
  unfold Clashes
  cases hi : Wgsl.isReserved i.name <;> cases hj : Wgsl.isReserved j.name
  · rw [memberOf_of_not_isReserved hi, memberOf_of_not_isReserved hj]
    simp [hne]
  · rw [memberOf_of_not_isReserved hi, memberOf_of_isReserved hj]
    simp
  · rw [memberOf_of_isReserved hi, memberOf_of_not_isReserved hj]
    simp [eq_comm]
  · -- behind one prefix two names stay apart
    have happart : renamePrefix ++ i.name ≠ renamePrefix ++ j.name := by
      intro heq
      have hlist := congrArg String.toList heq
      rw [String.toList_append, String.toList_append, append_cancel_left_eq] at hlist
      exact hne (String.toList_injective hlist)
    rw [memberOf_of_isReserved hi, memberOf_of_isReserved hj]
    simp [happart]

theorem Clashes.name_ne {j : Input} (h : Clashes renamePrefix i j) : i.name ≠ j.name := by
  intro heq
  obtain ⟨hi, hj, -⟩ := h
  rw [heq, hj] at hi
  cases hi

/-- **The members of the uniform structure are pairwise distinct exactly when no two of the inputs
with a field clash.** -/
theorem nodup_members_iff (inputs : List Input) (renamePrefix : String) :
    (analyze inputs renamePrefix).1.members.Nodup ↔
      ∀ i ∈ accepted inputs, ∀ j ∈ accepted inputs, ¬ Clashes renamePrefix i j := by
  have hnames : (accepted inputs).Pairwise fun i j => i.name ≠ j.name :=
    pairwise_map.mp (nodup_firsts hasField inputs)
  have hhost : (builtinFields.map Prod.fst).Nodup := by decide
  rw [members_analyze, nodup_append']
  constructor
  · rintro ⟨-, hinputs, -⟩ i hi j hj hclash
    -- the two stand at different places of the list, since their names differ
    have hshared : memberOf renamePrefix i = memberOf renamePrefix j :=
      (memberOf_eq_iff hclash.name_ne).mpr (.inl hclash)
    exact hclash.name_ne (congrArg Input.name (inj_on_of_nodup_map hinputs hi hj hshared))
  · intro hfree
    refine ⟨hhost, ?_, fun n hn hmem => ?_⟩
    · refine pairwise_map.mpr (hnames.imp_of_mem fun {i j} hi hj hne hshared => ?_)
      rcases (memberOf_eq_iff hne).mp hshared with hclash | hclash
      · exact hfree i hi j hj hclash
      · exact hfree j hj i hi hclash
    · obtain ⟨i, hi, rfl⟩ := mem_map.mp hmem
      exact memberOf_not_mem_builtin hi renamePrefix hn

/-- Inputs `let` and `isf_let` are both the member `isf_let` under the prefix that is the default. -/
theorem not_nodup_members_let :
    ¬ (analyze [{ name := "let", kind := .float }, { name := "isf_let", kind := .float }]
        ({} : Options).renamePrefix).1.members.Nodup := by
  decide

end ShaderEffect.Layout
