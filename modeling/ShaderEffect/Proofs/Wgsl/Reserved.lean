import ShaderEffect.Wgsl.Reserved
import Mathlib.Tactic.Tauto

/-!
# Reserved names

A name is reserved if it starts with two underscores or is one of the words of the target language
(`isReserved_cases`). What is said of all those words is decided on their bytes, which are at hand where
the letters would have to be decoded.
-/

namespace ShaderEffect.Wgsl

open List

def words : List String :=
  keywords ++ keptWords ++ predeclared

theorem isReserved_cases {name : String} (h : isReserved name = true) :
    ['_', '_'].isPrefixOf name.toList = true ∨ name ∈ words := by
  rw [isReserved, Bool.or_eq_true, Bool.or_eq_true, Bool.or_eq_true] at h
  simp only [contains_iff_mem] at h
  rw [words, mem_append, mem_append]
  tauto

def bytes (s : String) : List UInt8 :=
  s.toByteArray.data.toList

theorem bytes_append (s t : String) : bytes (s ++ t) = bytes s ++ bytes t := by
  rw [bytes, String.toByteArray_append, ByteArray.toList_data_append]
  rfl

theorem prefix_bytes {s t : String} (h : s.toList <+: t.toList) : bytes s <+: bytes t := by
  obtain ⟨rest, hrest⟩ := h
  have ht : t = s ++ String.ofList rest :=
    String.toList_injective (by rw [String.toList_append, String.toList_ofList, hrest])
  exact ⟨bytes (String.ofList rest), by rw [ht, bytes_append]⟩

theorem bytes_subset_of_mem {c : Char} {t : String} (h : c ∈ t.toList) :
    bytes (String.singleton c) ⊆ bytes t := by
  obtain ⟨before, after, hsplit⟩ := append_of_mem h
  have ht : t = String.ofList before ++ (String.singleton c ++ String.ofList after) :=
    String.toList_injective (by simp [hsplit])
  rw [ht, bytes_append, bytes_append]
  exact fun b hb => mem_append_right _ (mem_append_left _ hb)

theorem words_apart {w : String} (hw : w ∈ words) :
    ¬ "isf_".toList <+: w.toList ∧ '<' ∉ w.toList := by
  have hbytes : ∀ w ∈ words,
      (bytes "isf_").isPrefixOf (bytes w) = false ∧ (bytes w).contains 60 = false := by
    decide +kernel
  obtain ⟨hstart, hless⟩ := hbytes w hw
  refine ⟨fun h => ?_, fun h => ?_⟩
  · rw [ isPrefixOf_iff_prefix.mpr (prefix_bytes h)] at hstart
    cases hstart
  · have hmem : (60 : UInt8) ∈ bytes w := bytes_subset_of_mem h (by decide)
    rw [contains_iff_mem.mpr hmem] at hless
    cases hless

end ShaderEffect.Wgsl
