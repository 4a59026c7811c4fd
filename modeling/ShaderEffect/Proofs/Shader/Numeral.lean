import Mathlib
import ShaderEffect.Macro.Condition
import ShaderEffect.Proofs.Shader.Literal

/-!
# Values of integer literals

An integer token has a value in conditions, a spelling in the tree, and a float that is made of that
spelling. **The three agree on the number** (`readings_agree`).
-/

namespace ShaderEffect

open List

namespace Text

variable {c : Char} {cs ds : List Char} {n acc radix : Nat}

theorem readDigits_append : ∀ (xs ys : List Char) (acc : Nat),
    readDigits radix acc (xs ++ ys) = (readDigits radix acc xs).bind (readDigits radix · ys)
  | [], _, _ => rfl
  | x :: xs, ys, acc => by
    rw [cons_append, readDigits, readDigits]
    cases digitIn radix x with
    | none => rfl
    | some d => exact readDigits_append xs ys _

theorem digitIn_digitChar {d : Nat} (h : d < 10) : digitIn 10 d.digitChar = some d :=
  (by decide : ∀ d < 10, digitIn 10 d.digitChar = some d) d h

theorem exists_digitChar (h : c.isDigit = true) : ∃ d < 10, d.digitChar = c := by
  obtain ⟨hlow, hhigh⟩ : 48 ≤ c.toNat ∧ c.toNat ≤ 57 := Char.isDigit_iff_toNat.mp h
  have hchar := (by decide : ∀ d < 10, d.digitChar = Char.ofNat (d + 48)) (c.toNat - 48) (by omega)
  grind [Char.ofNat_toNat]

/-- Reading gives back the number whose digits are read. -/
theorem readDigits_toDigits (n : Nat) : readDigits 10 0 (Nat.toDigits 10 n) = some n := by
  induction n using Nat.strongRecOn with
  | ind n ih =>
    by_cases hn : n < 10
    · rw [Nat.toDigits_of_lt_base hn, readDigits, digitIn_digitChar hn]
      simp [readDigits]
    · rw [Nat.toDigits_of_base_le (by decide) (Nat.le_of_not_lt hn), readDigits_append,
        ih (n / 10) (by omega), Option.bind_some, readDigits,
        digitIn_digitChar (Nat.mod_lt n (by decide))]
      exact congrArg some (Nat.div_add_mod' n 10)

/-- Digits after a number other than zero are the last digits of what is read. -/
theorem toDigits_of_readDigits (hacc : 0 < acc) (hds : ∀ c ∈ ds, c.isDigit = true)
    (h : readDigits 10 acc ds = some n) : Nat.toDigits 10 n = Nat.toDigits 10 acc ++ ds := by
  induction ds generalizing acc with
  | nil =>
    obtain rfl := Option.some.inj h
    exact (append_nil _).symm
  | cons c cs ih =>
    obtain ⟨hc, hcs⟩ := forall_mem_cons.mp hds
    obtain ⟨d, hd, rfl⟩ := exists_digitChar hc
    rw [readDigits, digitIn_digitChar hd] at h
    rw [ih (by omega) hcs h, Nat.toDigits_of_base_le (by decide) (by omega),
      show (acc * 10 + d) / 10 = acc by omega, show (acc * 10 + d) % 10 = d by omega,
      append_assoc, singleton_append]

theorem toDigits_of_readNat (hds : ∀ c ∈ ds, c.isDigit = true)
    (hzero : ds.head? = some '0' → ds = ['0']) (h : readNat 10 ds = some n) :
    Nat.toDigits 10 n = ds := by
  cases ds with
  | nil => cases h
  | cons c cs =>
    obtain ⟨hc, hcs⟩ := forall_mem_cons.mp hds
    obtain ⟨d, hd, rfl⟩ := exists_digitChar hc
    rw [readNat, readDigits, digitIn_digitChar hd] at h
    rcases Nat.eq_zero_or_pos d with rfl | hpos
    · rw [(cons.inj (hzero rfl)).2] at h ⊢
      obtain rfl := Option.some.inj h
      rfl
    · rw [toDigits_of_readDigits (by omega) hcs h, Nat.zero_mul, Nat.zero_add,
        Nat.toDigits_of_lt_base hd, singleton_append]

theorem readNat_toDigits (n : Nat) : readNat 10 (Nat.toDigits 10 n) = some n := by
  rw [← readDigits_toDigits n]
  cases h : Nat.toDigits 10 n with
  | nil => exact absurd h Nat.toDigits_ne_nil
  | cons c cs => rfl

theorem readUnsigned_eq (hcs : ∀ c ∈ cs, isHexDigit c = true) :
    readUnsigned radix cs = readNat radix cs := by
  unfold readUnsigned
  split
  · exact absurd (hcs _ mem_cons_self) (by decide)
  · rfl

theorem readBelow_of_readNat {limit : Nat} (hcs : ∀ c ∈ cs, isHexDigit c = true)
    (h : readNat radix cs = some n) (hn : n < limit) : readBelow limit radix cs = some n := by
  rw [readBelow, readUnsigned_eq hcs, h]
  simpa using hn

theorem readNat_of_readInt64 {v : Int} (hcs : ∀ c ∈ cs, isHexDigit c = true)
    (h : readInt64 radix cs = some v) :
    ∃ n : Nat, readNat radix cs = some n ∧ v = n ∧ n < 2 ^ 63 := by
  obtain ⟨hread, hfits⟩ := Option.filter_eq_some_iff.mp h
  have hplain : readSigned radix cs = (readNat radix cs).map Nat.cast := by
    rw [← readUnsigned_eq hcs]
    unfold readSigned
    split
    · exact absurd (hcs _ mem_cons_self) (by decide)
    · cases readUnsigned radix cs <;> rfl
  grind [Option.map_eq_some_iff, inInt64]

theorem isHexDigit_of_isDigit (h : c.isDigit = true) : isHexDigit c = true := by
  obtain ⟨d, hd, rfl⟩ := exists_digitChar h
  exact (by decide : ∀ d < 10, isHexDigit d.digitChar = true) d hd

end Text

namespace Literal

open ShaderEffect.Text ShaderEffect.Token

variable {mark ds : List Char} {n : Nat}

theorem dropEndWhile_append (h : Whole ds) (hmark : IntMark mark) :
    dropEndWhile isUnsignedMark (ds ++ mark) = ds := by
  have hds : ds.reverse.dropWhile isUnsignedMark = ds.reverse := by
    cases hlast : ds.reverse with
    | nil => rfl
    | cons c cs =>
      grind [mem_cons_self, dropWhile_cons_of_neg, isUnsignedMark_of_mem]
  rw [dropEndWhile, reverse_append, dropWhile_append_of_pos, hds, reverse_reverse]
  rcases hmark with rfl | rfl | rfl <;> simp [isUnsignedMark]

theorem wordValue_toDigits (hn : n < UInt64.size) : wordValue (Nat.toDigits 10 n) = some n := by
  have hdigit : ∀ c ∈ Nat.toDigits 10 n, c.isDigit = true :=
    fun c => Nat.isDigit_of_mem_toDigits (by decide) (by decide)
  unfold wordValue
  grind [isHexDigit_of_isDigit, readBelow_of_readNat, readNat_toDigits, mem_cons_self]

/-- The sign of an unsigned literal, if the text has one. -/
def markOf (text : String) : String :=
  if text.toList.getLast?.any isUnsignedMark then "u" else ""

/-- The number `n` written as a decimal without leading zeros, or as a hexadecimal. -/
def Spells (ds : List Char) (n : Nat) : Prop :=
  ds = Nat.toDigits 10 n ∨
    ∃ x hs, ds = '0' :: x :: hs ∧ isHexMark x = true ∧ readNat 16 hs = some n

theorem eq_of_isHexMark {x : Char} (h : isHexMark x = true) : x = 'x' ∨ x = 'X' := by
  simpa [isHexMark] using h

theorem wordValue_of_spells (hds : Whole ds) (h : Spells ds n) (hn : n < UInt64.size) :
    wordValue ds = some n := by
  rcases h with rfl | ⟨x, hs, rfl, hx, hread⟩
  · exact wordValue_toDigits hn
  · have hhs : ∀ c ∈ hs, isHexDigit c = true := by
      rcases hds with ⟨-, hds⟩ | ⟨_, _, heq, -, hhs⟩
      · exact absurd (hds x (by simp)) (by rcases eq_of_isHexMark hx with rfl | rfl <;> decide)
      · rwa [(cons.inj (cons.inj heq).2).2]
    rcases eq_of_isHexMark hx with rfl | rfl
    all_goals exact readBelow_of_readNat hhs hread hn

theorem floatOfInt_append (hds : Whole ds) (hmark : IntMark mark) (h : Spells ds n)
    (hn : n < UInt64.size) : floatOfInt (String.ofList (ds ++ mark)) = toString n ++ ".0" := by
  rw [floatOfInt, String.toList_ofList, dropEndWhile_append hds hmark,
    wordValue_of_spells hds h hn]

theorem value_of_literalValue {v : Int64} (hds : Whole ds) (hmark : IntMark mark)
    (h : Condition.literalValue (String.ofList (ds ++ mark)) = some v) :
    ∃ n : Nat, v.toInt = n ∧ n < 2 ^ 63 ∧
      (octalValue ds = some n ∨ octalValue ds = none ∧ Spells ds n) := by
  have hdrop : dropEndWhile (fun c => c == 'u' || c == 'U') (ds ++ mark) = ds :=
    dropEndWhile_append hds hmark
  unfold Condition.literalValue at h
  dsimp only at h
  rw [String.toList_ofList, hdrop] at h
  obtain ⟨w, hw, rfl⟩ := Option.map_eq_some_iff.mp h
  have hvalue : ∀ {n : Nat}, w = n → n < 2 ^ 63 → (Int64.ofInt w).toInt = n := by
    rintro n rfl hn
    exact Int64.toInt_ofInt_of_le (by omega) (by omega)
  rcases hds with ⟨-, hdigits⟩ | ⟨x, hs, rfl, hx, hhs⟩
  · have hhex : ∀ c ∈ ds, isHexDigit c = true := fun c hc => isHexDigit_of_isDigit (hdigits c hc)
    split at hw
    · exact absurd (hdigits 'x' (by simp)) (by decide)
    · exact absurd (hdigits 'X' (by simp)) (by decide)
    · obtain ⟨n, hread, hn, hfits⟩ := readNat_of_readInt64 (forall_mem_cons.mp hhex).2 hw
      refine ⟨n, hvalue hn hfits, hfits, .inl ?_⟩
      exact readBelow_of_readNat (forall_mem_cons.mp hhex).2 hread (Nat.lt_trans hfits (by decide))
    · rename_i hzero
      obtain ⟨n, hread, hn, hfits⟩ := readNat_of_readInt64 hhex hw
      have hds : Nat.toDigits 10 n = ds := by
        refine toDigits_of_readNat hdigits (fun hhead => ?_) hread
        obtain ⟨cs, rfl⟩ := head?_eq_some_iff.mp hhead
        cases cs with
        | nil => rfl
        | cons c cs => exact (hzero c cs rfl).elim
      exact ⟨n, hvalue hn hfits, hfits, .inr ⟨hds ▸ octalValue_toDigits n, .inl hds.symm⟩⟩
  · have hsixteen : octalValue ('0' :: x :: hs) = none ∧ readInt64 16 hs = some w := by
      rcases eq_of_isHexMark hx with rfl | rfl <;> exact ⟨rfl, hw⟩
    obtain ⟨n, hread, hn, hfits⟩ := readNat_of_readInt64 hhs hsixteen.2
    exact ⟨n, hvalue hn hfits, hfits, .inr ⟨hsixteen.1, .inr ⟨x, hs, rfl, hx, hread⟩⟩⟩

/-- **All readings of an integer token agree.** If it has a value in conditions, the tree spells
that number, with the mark of the token, and the float made of the spelling is that number too. -/
theorem readings_agree {src : String} {t : Token} {v : Int64} (ht : t ∈ tokenize src)
    (hkind : t.kind = .int) (hv : Condition.literalValue t.text = some v) :
    ∃ (n : Nat) (ds : List Char), v.toInt = n ∧ Spells ds n ∧
      int t.text = String.ofList ds ++ markOf t.text ∧
      floatOfInt (int t.text) = toString n ++ ".0" := by
  obtain ⟨ds, mark, htext, hds, hmark⟩ := (form_of_mem_tokenize ht (.inl hkind)).1 hkind
  have hof : t.text = String.ofList (ds ++ mark) := by rw [← htext, String.ofList_toList]
  rw [hof] at hv
  obtain ⟨n, hn, hfits, hoctal⟩ := value_of_literalValue hds hmark hv
  have hsize : n < UInt64.size := Nat.lt_trans hfits (by decide)
  obtain ⟨es, hes, hspells, hint⟩ : ∃ es, Whole es ∧ Spells es n ∧
      int t.text = String.ofList es ++ if mark != [] then "u" else "" := by
    rw [hof, int_append hds hmark]
    rcases hoctal with hoctal | ⟨hoctal, hspells⟩ <;> rw [hoctal]
    · refine ⟨_, whole_toDigits n, .inl rfl, ?_⟩
      rw [← Nat.toList_repr, String.ofList_toList]
      rfl
    · exact ⟨ds, hds, hspells, rfl⟩
  have hlast : (t.text.toList.getLast?.any isUnsignedMark) = (mark != []) := by
    have hsplit : (splitMark (ds ++ mark)).2 = (mark != []) := by rw [splitMark_append hds hmark]
    rw [htext, ← hsplit, splitMark]
    cases (ds ++ mark).getLast? with
    | none => rfl
    | some c => cases hc : isUnsignedMark c <;> simp [hc]
  refine ⟨n, es, hn, hspells, by rw [hint, markOf, hlast], ?_⟩
  rw [hint]
  by_cases hm : (mark != []) = true
  · rw [if_pos hm]
    exact String.ofList_append ▸ floatOfInt_append hes (.inr (.inl rfl)) hspells hsize
  · rw [if_neg hm]
    exact String.ofList_append ▸ floatOfInt_append hes (.inl rfl) hspells hsize

theorem readings_agree_octal :
    (⟨.int, "017u"⟩ : Token) ∈ tokenize "017u" ∧ Condition.literalValue "017u" = some 15 ∧
      ∃ (n : Nat) (ds : List Char), (15 : Int64).toInt = n ∧ Spells ds n ∧
        int "017u" = String.ofList ds ++ markOf "017u" ∧
        floatOfInt (int "017u") = toString n ++ ".0" := by
  have ht : (⟨.int, "017u"⟩ : Token) ∈ tokenize "017u" := by decide_cbv
  have hv : Condition.literalValue "017u" = some 15 := by cbv
  exact ⟨ht, hv, readings_agree ht rfl hv⟩

end Literal

end ShaderEffect
