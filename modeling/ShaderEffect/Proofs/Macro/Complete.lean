import Mathlib.Data.List.Induction
import ShaderEffect.Token.Basic

/-!
# Complete lists of tokens

In a `Complete` list of tokens all brackets are closed, and the names of macros with parameters, as far
as they are given, stand before brackets of their own. Trivia can be left out of such a list at both
ends, and comments anywhere.
-/

namespace ShaderEffect

open List

/-! ## Brackets and names -/

def Token.isOpening (t : Token) : Bool :=
  t.isPunct "(" || t.isPunct "[" || t.isPunct "\x7b"

def Token.isClosing (t : Token) : Bool :=
  t.isPunct ")" || t.isPunct "]" || t.isPunct "\x7d"

/-- An identifier that is one of the given names. -/
def Token.isNameIn (names : String → Bool) (t : Token) : Bool :=
  t.kind == .ident && names t.text

namespace Token

variable {t : Token}

theorem kind_of_isPunct {text : String} (h : t.isPunct text = true) :
    t.kind = .punct ∧ t.text = text := by
  simpa [isPunct] using h

theorem text_of_isClosing (h : t.isClosing = true) :
    t.kind = .punct ∧ (t.text = ")" ∨ t.text = "]" ∨ t.text = "\x7d") := by
  simp only [isClosing, Bool.or_eq_true] at h
  rcases h with (h | h) | h
  · exact ⟨(kind_of_isPunct h).1, .inl (kind_of_isPunct h).2⟩
  · exact ⟨(kind_of_isPunct h).1, .inr (.inl (kind_of_isPunct h).2)⟩
  · exact ⟨(kind_of_isPunct h).1, .inr (.inr (kind_of_isPunct h).2)⟩

theorem kind_of_isOpening (h : t.isOpening = true) : t.kind = .punct := by
  simp only [isOpening, Bool.or_eq_true] at h
  rcases h with (h | h) | h <;> exact (kind_of_isPunct h).1

theorem kind_of_isClosing (h : t.isClosing = true) : t.kind = .punct :=
  (text_of_isClosing h).1

theorem isOpening_of_isPunct (h : t.isPunct "(" = true) : t.isOpening = true := by
  simp [isOpening, h]

theorem not_isOpening_of_isClosing (h : t.isClosing = true) : t.isOpening = false := by
  rcases (text_of_isClosing h).2 with htext | htext | htext <;> simp [isOpening, isPunct, htext]

theorem isTrivia_kind (h : t.isTrivia = true) : t.kind ≠ .punct ∧ t.kind ≠ .ident := by
  unfold isTrivia at h
  constructor <;> intro hkind <;> rw [hkind] at h <;> cases h

theorem isOpening_of_kind (h : t.kind ≠ .punct) : t.isOpening = false := by
  simp [isOpening, isPunct, h]

theorem isClosing_of_kind (h : t.kind ≠ .punct) : t.isClosing = false := by
  simp [isClosing, isPunct, h]

theorem isNameIn_of_kind {names : String → Bool} (h : t.kind ≠ .ident) :
    t.isNameIn names = false := by
  simp [isNameIn, h]

theorem kind_of_isNameIn {names : String → Bool} (h : t.isNameIn names = true) :
    t.kind = .ident := by
  unfold isNameIn at h
  rw [Bool.and_eq_true, beq_iff_eq] at h
  exact h.1

end Token

/-- What opens brackets: a bracket, or one of the given names with trivia and a round bracket behind
it. The elements of the list show their tokens by `tok`. -/
inductive Opens {α : Type} (tok : α → Token) (names : String → Bool) : List α → Prop
  | bracket {o : α} (opening : (tok o).isOpening = true) : Opens tok names [o]
  | call {t o : α} {gap : List α} (name : (tok t).isNameIn names = true)
      (trivia : ∀ g ∈ gap, (tok g).isTrivia = true) (opening : (tok o).isPunct "(" = true) :
      Opens tok names (t :: (gap ++ [o]))

/-- The brackets of the list are closed, and each of the given names stands before brackets of its
own. -/
inductive Complete {α : Type} (tok : α → Token) (names : String → Bool) : List α → Prop
  | nil : Complete tok names []
  | single {t : α} {ts : List α} (opening : (tok t).isOpening = false)
      (closing : (tok t).isClosing = false) (name : (tok t).isNameIn names = false)
      (rest : Complete tok names ts) : Complete tok names (t :: ts)
  | group {lead inner ts : List α} {c : α} (opening : Opens tok names lead)
      (closing : (tok c).isClosing = true) (inside : Complete tok names inner)
      (rest : Complete tok names ts) : Complete tok names (lead ++ (inner ++ c :: ts))

section General

variable {α : Type} {tok : α → Token} {names : String → Bool}
variable {t : α} {ts : List α}

theorem Complete.append {as bs : List α} (ha : Complete tok names as) (hb : Complete tok names bs) :
    Complete tok names (as ++ bs) := by
  induction ha with
  | nil => exact hb
  | single hopen hclose hname _ ih => exact .single hopen hclose hname ih
  | group hopen hclose hinside _ _ ih =>
    simpa using Complete.group hopen hclose hinside ih

theorem Complete.tail (h : Complete tok names (t :: ts)) (ht : (tok t).isTrivia = true) :
    Complete tok names ts := by
  have hkind := Token.isTrivia_kind ht
  generalize hl : t :: ts = l at h
  cases h with
  | nil => cases hl
  | single _ _ _ hts => exact (cons.inj hl).2 ▸ hts
  | group hopen =>
    cases hopen with
    | bracket hopen => exact absurd (Token.kind_of_isOpening ((cons.inj hl).1 ▸ hopen)) hkind.1
    | call hname => exact absurd (Token.kind_of_isNameIn ((cons.inj hl).1 ▸ hname)) hkind.2

theorem exists_init_of_append {c : α} {as bs : List α} (hne : c ≠ t)
    (h : as ++ c :: bs = ts ++ [t]) : ∃ bs', bs = bs' ++ [t] ∧ ts = as ++ c :: bs' := by
  rcases eq_nil_or_concat bs with rfl | ⟨bs', b, rfl⟩
  · obtain ⟨-, hct⟩ := append_inj' h rfl
    exact absurd (singleton_inj.mp hct) hne
  · rw [concat_eq_append, ← cons_append, ← append_assoc] at h
    obtain ⟨hts, hb⟩ := append_inj' h rfl
    rw [singleton_inj.mp hb]
    exact ⟨bs', concat_eq_append, hts.symm⟩

theorem Complete.init (ht : (tok t).isTrivia = true) (h : Complete tok names (ts ++ [t])) :
    Complete tok names ts := by
  have hne : ∀ {c : α}, (tok c).isClosing = true → c ≠ t := by
    rintro c hc rfl
    exact (Token.isTrivia_kind ht).1 (Token.kind_of_isClosing hc)
  generalize hl : ts ++ [t] = l at h
  induction h generalizing ts with
  | nil => simp at hl
  | single hopen hclose hname _ ih =>
    cases ts with
    | nil => exact .nil
    | cons x ts =>
      obtain ⟨rfl, rfl⟩ := cons.inj hl
      exact .single hopen hclose hname (ih rfl)
  | group hopen hclose hinside _ _ ih =>
    rw [← append_assoc] at hl
    obtain ⟨bs, rfl, rfl⟩ := exists_init_of_append (hne hclose) hl.symm
    rw [append_assoc]
    exact .group hopen hclose hinside (ih rfl)

theorem Opens.filter_comments (h : Opens tok names ts) :
    Opens tok names (ts.filter fun t => (tok t).kind != .comment) := by
  cases h with
  | bracket hopen =>
    rw [filter_cons_of_pos (by simp [Token.kind_of_isOpening hopen])]
    exact .bracket hopen
  | call hname htrivia hopen =>
    rw [filter_cons_of_pos (by simp [Token.kind_of_isNameIn hname]), filter_append,
      filter_cons_of_pos (by simp [(Token.kind_of_isPunct hopen).1])]
    exact .call hname (fun g hg => htrivia g (mem_filter.mp hg).1) hopen

theorem Complete.filter_comments (h : Complete tok names ts) :
    Complete tok names (ts.filter fun t => (tok t).kind != .comment) := by
  induction h with
  | nil => exact .nil
  | single hopen hclose hname _ ih =>
    rw [filter_cons]
    split
    · exact .single hopen hclose hname ih
    · exact ih
  | group hopen hclose _ _ ihinside ihrest =>
    rw [filter_append, filter_append,
      filter_cons_of_pos (by simp [Token.kind_of_isClosing hclose])]
    exact .group hopen.filter_comments hclose ihinside ihrest

end General

end ShaderEffect
