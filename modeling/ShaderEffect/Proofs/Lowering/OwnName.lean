import ShaderEffect.Proofs.Lowering.Capture

/-!
# Names of their own for overloaded functions

The name of its own is the shared name with the tags of the parameter types behind it, and the joint
is an underscore, which names may hold as well. So a name is read as its words between underscores:
joining names appends their words (`words_join`), and a name is known by its words (`words_inj`).
The words that a type gives forget the length of an array, and those of a structure are the words of
its name (`words_tag`).

`nodup_functionNames_separateOverloads_iff` says exactly when the pass gives all functions different
names: no two functions of one name may have parameter types with the same words, and no name of its
own may be spelled like a name that another function has behind the pass.
-/

namespace ShaderEffect.Lowering

open Walker List

variable {n : Nat} {g f : Function} {p : Program}

/-! ## Words -/

/-- The parts of a name between its underscores. -/
def words (name : String) : List (List Char) :=
  name.toList.splitOn '_'

theorem words_join (x y : String) : words (x ++ "_" ++ y) = words x ++ words y := by
  grind [String.toList_append, words, splitOn_append_cons_self]

theorem intercalate_words (name : String) :
    String.intercalate "_" ((words name).map String.ofList) = name := by
  refine String.toList_injective ?_
  rw [String.toList_intercalate, map_map,
    show String.toList ∘ String.ofList = id from funext fun _ => String.toList_ofList, map_id]
  exact intercalate_splitOn '_'

theorem words_inj {x y : String} : words x = words y ↔ x = y := by
  grind [intercalate_words]

theorem words_ne_nil (name : String) : words name ≠ [] :=
  splitOn_ne_nil '_' name.toList

theorem words_of_not_mem {name : String} (h : '_' ∉ name.toList) : words name = [name.toList] :=
  splitOn_eq_singleton h

theorem words_intercalate : ∀ {names : List String}, names ≠ [] →
    words (String.intercalate "_" names) = names.flatMap words
  | [name], _ => by rw [String.intercalate_singleton, flatMap_singleton]
  | x :: y :: names, _ => by
    rw [String.intercalate_cons_cons, words_join, words_intercalate (cons_ne_nil y names)]
    rfl

/-- A name with the words of another and more behind them starts with the other and an
underscore. -/
theorem isPrefix_of_words {x y : String} {ws : List (List Char)} (hws : ws ≠ [])
    (h : words y = words x ++ ws) : (x ++ "_").toList <+: y.toList := by
  have hjoin := intercalate_words y
  rw [h, map_append, String.intercalate_append_of_ne_nil
    (map_eq_nil_iff.not.mpr (words_ne_nil x)) (map_eq_nil_iff.not.mpr hws),
    intercalate_words] at hjoin
  grind [String.toList_append]

/-! ## Words of types -/

/-- The words that a type gives: those of the name of a structure, and for an array those of its
elements behind one more, whatever its length. -/
def typeWords : ShaderType → List (List Char)
  | .array elem _ => "arr".toList :: typeWords elem
  | .struct name => words name
  | t => [t.tag.toList]

theorem isDigit_of_mem_toString {c : Char} (h : c ∈ (toString n).toList) : c.isDigit = true := by
  rw [Nat.toString_eq_repr, Nat.toList_repr] at h
  exact Nat.isDigit_of_mem_toDigits (by decide) (by decide) h

theorem toList_tag_vector (s : Scalar) (n : Nat) : (ShaderType.vector s n).tag.toList =
    'v' :: 'e' :: 'c' :: ((toString n).toList ++ s.letter.toList) := by
  rw [ShaderType.tag, String.toList_append, String.toList_append]
  rfl

theorem toList_tag_matrix (c r : Nat) : (ShaderType.matrix c r).tag.toList =
    'm' :: 'a' :: 't' :: ((toString c).toList ++ 'x' :: ((toString r).toList ++ ['f'])) := by
  rw [ShaderType.tag]
  simp only [String.toList_append, append_assoc]
  rfl

theorem words_tag : ∀ t : ShaderType, words t.tag = typeWords t
  | .array elem _ => by
    have harr : (ShaderType.array elem ‹_›).tag = "arr" ++ "_" ++ elem.tag := rfl
    rw [harr, words_join, words_tag elem]
    rfl
  | .struct _ => rfl
  | .void => by decide
  | .sampler => by decide
  | .scalar s => by cases s <;> decide
  | .vector s n => by
    refine words_of_not_mem ?_
    have hletter : '_' ∉ s.letter.toList := by cases s <;> decide
    rw [toList_tag_vector]
    simp [hletter]
  | .matrix c r => by
    refine words_of_not_mem ?_
    rw [toList_tag_matrix]
    simp

/-- A type without a name of the program and without a length. -/
def isPlain : ShaderType → Bool
  | .scalar _ | .vector .. | .matrix .. | .sampler => true
  | .void | .struct _ | .array .. => false

theorem toString_inj {m : Nat} (h : (toString m).toList = (toString n).toList) : m = n := by
  grind [Nat.toList_repr, Nat.ofDigitChars_toDigits]

theorem letter_inj {s t : Scalar} (h : s.letter.toList = t.letter.toList) : s = t := by
  cases s <;> cases t <;> first | rfl | exact absurd h (by decide)

theorem length_letter (s : Scalar) : s.letter.toList.length = 1 := by
  cases s <;> rfl

theorem vector_eq_of_tag_eq {s s' : Scalar} {n' : Nat}
    (h : (ShaderType.vector s n).tag.toList = (ShaderType.vector s' n').tag.toList) :
    ShaderType.vector s n = .vector s' n' := by
  grind [toList_tag_vector, append_inj', length_letter, toString_inj, letter_inj]

theorem matrix_eq_of_tag_eq {c r c' r' : Nat}
    (h : (ShaderType.matrix c r).tag.toList = (ShaderType.matrix c' r').tag.toList) :
    ShaderType.matrix c r = .matrix c' r' := by
  rw [toList_tag_matrix, toList_tag_matrix, cons_inj_right, cons_inj_right,
    cons_inj_right] at h
  -- the first `x` parts the columns from the rows
  have hcolumns : ∀ n : Nat, 'x' ∉ (toString n).toList := fun n hmem =>
    absurd (isDigit_of_mem_toString hmem) (by decide)
  have hrows : ∀ n : Nat, 'x' ∉ (toString n).toList ++ ['f'] := fun n hmem =>
    (mem_append.mp hmem).elim (hcolumns n) (by decide)
  have hsplit := congrArg (splitOn 'x') h
  grind [splitOn_append_cons_self, splitOn_eq_singleton, toString_inj, append_cancel_right]

/-- The letter that a tag starts with; tags of different kinds start with different ones. -/
def initial : ShaderType → Option Char
  | .scalar .float => some 'f'
  | .scalar .int => some 'i'
  | .scalar .uint => some 'u'
  | .scalar .bool => some 'b'
  | .vector .. => some 'v'
  | .matrix .. => some 'm'
  | .sampler => some 't'
  | t => t.tag.toList.head?

theorem head?_tag (t : ShaderType) : t.tag.toList.head? = initial t := by
  cases t with
  | void | sampler | struct | array => rfl
  | scalar s => cases s <;> rfl
  | vector => rw [toList_tag_vector]; rfl
  | matrix => rw [toList_tag_matrix]; rfl

theorem eq_of_tag_eq {t u : ShaderType} (ht : isPlain t = true) (hu : isPlain u = true)
    (h : t.tag.toList = u.tag.toList) : t = u := by
  have hinitial : initial t = initial u := by rw [← head?_tag, h, head?_tag]
  cases t with
  | void | struct | array => cases ht
  | scalar s =>
    cases u with
    | void | struct | array => cases hu
    | scalar s' => cases s <;> cases s' <;> first | rfl | exact absurd h (by decide)
    | vector | matrix | sampler => cases s <;> simp [initial] at hinitial
  | vector =>
    cases u with
    | void | struct | array => cases hu
    | scalar s' => cases s' <;> simp [initial] at hinitial
    | vector => exact vector_eq_of_tag_eq h
    | matrix | sampler => simp [initial] at hinitial
  | matrix =>
    cases u with
    | void | struct | array => cases hu
    | scalar s' => cases s' <;> simp [initial] at hinitial
    | matrix => exact matrix_eq_of_tag_eq h
    | vector | sampler => simp [initial] at hinitial
  | sampler =>
    cases u with
    | void | struct | array => cases hu
    | scalar s' => cases s' <;> simp [initial] at hinitial
    | vector | matrix => simp [initial] at hinitial
    | sampler => rfl

theorem tag_ne_void {t : ShaderType} (h : isPlain t = true) : t.tag.toList ≠ "void".toList := by
  intro heq
  cases t with
  | void | struct | array => cases h
  | scalar s => cases s <;> exact absurd heq (by decide)
  | vector => exact absurd (toList_tag_vector _ _ ▸ heq) (by simp)
  | matrix => exact absurd (toList_tag_matrix _ _ ▸ heq) (by simp)
  | sampler => exact absurd heq (by decide)

theorem eq_of_tags_eq : ∀ {ts us : List ShaderType}, (∀ t ∈ ts, isPlain t = true) →
    (∀ t ∈ us, isPlain t = true) →
    (ts.map fun t => t.tag.toList) = us.map (fun t => t.tag.toList) → ts = us
  | [], us, _, _, h => (map_eq_nil_iff.mp h.symm).symm
  | t :: ts, [], _, _, h => absurd h (cons_ne_nil _ _)
  | t :: ts, u :: us, ht, hu, h => by
    obtain ⟨htag, htags⟩ := cons.inj h
    obtain ⟨ht, hts⟩ := forall_mem_cons.mp ht
    obtain ⟨hu, hus⟩ := forall_mem_cons.mp hu
    rw [eq_of_tag_eq ht hu htag, eq_of_tags_eq hts hus htags]

theorem flatMap_typeWords : ∀ {ts : List ShaderType}, (∀ t ∈ ts, isPlain t = true) →
    ts.flatMap typeWords = ts.map fun t => t.tag.toList
  | [], _ => rfl
  | t :: ts, h => by
    obtain ⟨ht, hts⟩ := forall_mem_cons.mp h
    rw [flatMap_cons, flatMap_typeWords hts, map_cons]
    cases t with
    | scalar | vector | matrix | sampler => rfl
    | void | struct | array => cases ht

/-! ## Words of functions -/

/-- The words that the parameters of a function give. -/
def paramWords (f : Function) : List (List Char) :=
  if f.params.isEmpty then ["void".toList] else f.paramTypes.flatMap typeWords

theorem words_ownName (f : Function) : words (ownName f) = words f.name ++ paramWords f := by
  rw [ownName, words_join, paramWords]
  congr 1
  by_cases h : f.params.isEmpty = true
  · rw [if_pos h, if_pos h]
    decide
  · rw [if_neg h, if_neg h, words_intercalate, flatMap_map]
    · exact flatMap_congr fun t _ => words_tag t
    · simpa [Function.paramTypes] using h

theorem paramTypes_eq_of_paramWords (hf : ∀ t ∈ f.paramTypes, isPlain t = true)
    (hg : ∀ t ∈ g.paramTypes, isPlain t = true) (h : paramWords f = paramWords g) :
    f.paramTypes = g.paramTypes := by
  have hempty : ∀ x : Function, x.params.isEmpty = x.paramTypes.isEmpty := fun x => by
    rw [Function.paramTypes, isEmpty_map]
  rw [paramWords, paramWords, flatMap_typeWords hf, flatMap_typeWords hg, hempty, hempty] at h
  generalize f.paramTypes = ts at *
  generalize g.paramTypes = us at *
  have hvoid : ∀ {t : ShaderType} {ts : List ShaderType}, (∀ x ∈ t :: ts, isPlain x = true) →
      ["void".toList] ≠ (t :: ts).map fun t => t.tag.toList := fun hts heq =>
    tag_ne_void (hts _ mem_cons_self) (cons.inj heq).1.symm
  cases ts with
  | nil =>
    cases us with
    | nil => rfl
    | cons u us => exact absurd h (hvoid hg)
  | cons t ts =>
    cases us with
    | nil => exact absurd h.symm (hvoid hf)
    | cons u us =>
      exact eq_of_tags_eq hf hg h

/-- The words of the name that a function of the program has behind the pass. -/
def nameWords (p : Program) (f : Function) : List (List Char) :=
  words f.name ++ if isOverloaded p.functionNames f then paramWords f else []

/-- The name that a function of the program has behind the pass. -/
def separateName (p : Program) (f : Function) : String :=
  if isOverloaded p.functionNames f then ownName f else f.name

theorem words_separateName (p : Program) (f : Function) :
    words (separateName p f) = nameWords p f := by
  grind [separateName, nameWords, words_ownName]

theorem functionNames_separateOverloads (st : Setting) (p : Program) (a : State) :
    (separateOverloads st p a).1.functionNames = p.functions.map (separateName p) := by
  unfold separateOverloads
  dsimp only
  by_cases hall : (overloads p).isEmpty = true
  · rw [if_pos hall]
    refine map_congr_left fun f (hf : f ∈ p.functions) => ?_
    have hover : isOverloaded p.functionNames f = false :=
      (isOverloaded_eq_false_iff hf).mpr ((isEmpty_overloads_iff p).mp hall f hf)
    rw [separateName, hover]
    rfl
  · rw [if_neg hall, Program.functionNames, map_functions_walk Function.name (fun _ _ => rfl)
      (fun _ _ _ => rfl) (fun _ _ _ => rfl), ← Program.functionNames, functionNames_nameOverloads]
    rfl

/-! ## Different names -/

/-- What tells two functions of the source language apart. -/
def signature (f : Function) : String × List ShaderType :=
  (f.name, f.paramTypes)

/-- A function that gets no name of its own shares its name with no other, unless the entry point
is there twice. -/
theorem eq_of_not_isOverloaded (hmain : p.functionNames.count "main" ≤ 1) (hf : f ∈ p.functions)
    (hg : g ∈ p.functions) (hname : f.name = g.name)
    (hover : isOverloaded p.functionNames f = false) : f = g := by
  have hcount : p.functionNames.count f.name ≤ 1 := by
    by_cases h : f.name = "main"
    · rwa [h]
    · exact Nat.le_of_eq ((isOverloaded_eq_false_iff hf).mp hover h)
  rw [Program.functionNames, count_eq_countP, countP_map, countP_eq_length_filter]
    at hcount
  generalize hsame : p.functions.filter _ = same at hcount
  have hmem : ∀ x ∈ p.functions, x.name = f.name → x ∈ same := fun x hx hn => by
    rw [← hsame]
    exact mem_filter.mpr ⟨hx, by simpa using hn⟩
  have hfs := hmem f hf rfl
  have hgs := hmem g hg hname.symm
  rcases same with _ | ⟨x, _ | ⟨y, ys⟩⟩
  · exact absurd hfs not_mem_nil
  · rw [mem_singleton.mp hfs, mem_singleton.mp hgs]
  · exact absurd hcount (by simp)

theorem isOverloaded_congr (names : List String) (h : f.name = g.name) :
    isOverloaded names f = isOverloaded names g := by
  rw [isOverloaded, isOverloaded, h]

/-- Two functions of one name have parameter types that the tags do not tell apart. -/
def LookAlike (p : Program) : Prop :=
  ∃ f ∈ p.functions, ∃ g ∈ p.functions,
    f.name = g.name ∧ paramWords f = paramWords g ∧ f.paramTypes ≠ g.paramTypes

/-- The name of its own that a function gets is the one that a function of another name has behind
the pass. -/
def NameTaken (p : Program) : Prop :=
  ∃ f ∈ p.functions, isOverloaded p.functionNames f = true ∧
    ∃ g ∈ p.functions, f.name ≠ g.name ∧ nameWords p f = nameWords p g

theorem separateName_eq_iff :
    separateName p f = separateName p g ↔ nameWords p f = nameWords p g := by
  rw [← words_inj, words_separateName, words_separateName]

theorem separateName_injOn_iff (hsig : (p.functions.map signature).Nodup)
    (hmain : p.functionNames.count "main" ≤ 1) :
    (∀ f ∈ p.functions, ∀ g ∈ p.functions, separateName p f = separateName p g → f = g) ↔
      ¬ LookAlike p ∧ ¬ NameTaken p := by
  have hinj := inj_on_of_nodup_map hsig
  constructor
  · intro h
    constructor
    · rintro ⟨f, hf, g, hg, hname, hwords, htypes⟩
      grind [separateName_eq_iff, nameWords, isOverloaded_congr]
    · rintro ⟨f, hf, -, g, hg, hname, hwords⟩
      exact hname (congrArg Function.name (h f hf g hg (separateName_eq_iff.mpr hwords)))
  · rintro ⟨hlook, htaken⟩ f hf g hg h
    rw [separateName_eq_iff] at h
    by_cases hname : f.name = g.name
    · cases hover : isOverloaded p.functionNames f with
      | false => exact eq_of_not_isOverloaded hmain hf hg hname hover
      | true =>
        rw [nameWords, nameWords, ← isOverloaded_congr _ hname, hover, hname,
          append_cancel_left_eq] at h
        by_contra hne
        refine hlook ⟨f, hf, g, hg, hname, h, fun htypes => hne (hinj hf hg ?_)⟩
        rw [signature, signature, hname, htypes]
    · exfalso
      cases hover : isOverloaded p.functionNames f with
      | true => exact htaken ⟨f, hf, hover, g, hg, hname, h⟩
      | false =>
        cases hover' : isOverloaded p.functionNames g with
        | true => exact htaken ⟨g, hg, hover', f, hf, Ne.symm hname, h.symm⟩
        | false =>
          grind [nameWords, words_inj]

theorem not_lookAlike (hmain : p.functionNames.count "main" ≤ 1)
    (h : ∀ f ∈ p.functions, isOverloaded p.functionNames f = true → ∀ t ∈ f.paramTypes, isPlain t =
      true) : ¬ LookAlike p := by
  rintro ⟨f, hf, g, hg, hname, hwords, htypes⟩
  grind [eq_of_not_isOverloaded, paramTypes_eq_of_paramWords]

/-- No name of its own is taken if no function name goes on behind a shared name and an
underscore. -/
theorem not_nameTaken
    (h : ∀ f ∈ p.functions, isOverloaded p.functionNames f = true → ∀ g ∈ p.functions, ¬ (f.name ++
      "_").toList <+: g.name.toList) : ¬ NameTaken p := by
  rintro ⟨f, hf, hover, g, hg, hname, hwords⟩
  rw [nameWords, if_pos hover, nameWords] at hwords
  rcases append_eq_append_iff.mp hwords with ⟨ws, hws, -⟩ | ⟨ws, hws, hrest⟩
  · have hne : ws ≠ [] := by
      rintro rfl
      rw [append_nil] at hws
      exact hname (words_inj.mp hws.symm)
    exact h f hf hover g hg (isPrefix_of_words hne hws)
  · have hne : ws ≠ [] := by
      rintro rfl
      rw [append_nil] at hws
      exact hname (words_inj.mp hws)
    by_cases hover' : isOverloaded p.functionNames g = true
    · exact h g hg hover' f hf (isPrefix_of_words hne hws)
    · rw [if_neg hover'] at hrest
      exact hne (append_eq_nil_iff.mp hrest.symm).1

/-- **The pass gives all functions different names exactly if no two functions of one name look
alike and no name of its own is taken.** Both hold where all parameters of the functions that share
a name are plain and no name of a function goes on behind a shared name and an underscore. -/
theorem nodup_functionNames_separateOverloads_iff (st : Setting) (p : Program) (a : State)
    (hsig : (p.functions.map signature).Nodup) (hmain : p.functionNames.count "main" ≤ 1) :
    ((separateOverloads st p a).1.functionNames.Nodup ↔ ¬ LookAlike p ∧ ¬ NameTaken p) ∧
    ((∀ f ∈ p.functions, isOverloaded p.functionNames f = true →
        (∀ t ∈ f.paramTypes, isPlain t = true) ∧
        ∀ g ∈ p.functions, ¬ (f.name ++ "_").toList <+: g.name.toList) →
      (separateOverloads st p a).1.functionNames.Nodup) := by
  have hiff : (separateOverloads st p a).1.functionNames.Nodup ↔ ¬ LookAlike p ∧ ¬ NameTaken p := by
    rw [functionNames_separateOverloads, nodup_map_iff_inj_on (List.Nodup.of_map _ hsig)]
    exact separateName_injOn_iff hsig hmain
  refine ⟨hiff, fun h => hiff.mpr ⟨?_, ?_⟩⟩
  · exact not_lookAlike hmain fun f hf hover => (h f hf hover).1
  · exact not_nameTaken fun f hf hover => (h f hf hover).2

/-- A function that only has its name and the types of its parameters. -/
def announced (name : String) (types : List ShaderType) : Item :=
  .function {
    name := name, returns := .void, body := [], isEntry := false
    params := types.map fun t => { name := "x", type := t, passing := .value } }

/-- Four functions of one name with plain parameters. -/
def plainOverloads : Program :=
  { items := [announced "f" [], announced "f" [.float], announced "f" [.vec 2],
      announced "f" [.vec 2, .float], announced "main" []] }

theorem nodup_functionNames_plainOverloads :
    ((plainOverloads.functions.map signature).Nodup ∧
      plainOverloads.functionNames.count "main" ≤ 1) ∧
    (separateOverloads emptySetting plainOverloads {}).1.functionNames.Nodup ∧
    ¬ LookAlike plainOverloads ∧ ¬ NameTaken plainOverloads := by
  have hsig : (plainOverloads.functions.map signature).Nodup := by decide
  have hmain : plainOverloads.functionNames.count "main" ≤ 1 := by decide
  obtain ⟨hiff, hplain⟩ :=
    nodup_functionNames_separateOverloads_iff emptySetting plainOverloads {} hsig hmain
  have hnodup := hplain (by decide)
  exact ⟨⟨hsig, hmain⟩, hnodup, hiff.mp hnodup⟩

/-- Functions that share the names `f`, `g` and `h`: two with arrays of different lengths, two with a
number and a structure called like its tag, and two beside a function called like the name of its
own of one of them. -/
def tagClashes : Program :=
  { items := [
      announced "f" [.array .float (.fixed 2)], announced "f" [.array .float (.fixed 3)],
      .struct { name := "f32", members := [] },
      announced "g" [.float], announced "g" [.struct "f32"],
      announced "h" [.float], announced "h" [.vec 2], announced "h_f32" [.int]] }

/-- Array lengths, structures called like tags and functions called like names of their own each make
two functions share a name behind the pass. -/
theorem functionNames_tagClashes :
    ((tagClashes.functions.map signature).Nodup ∧ tagClashes.functionNames.count "main" ≤ 1) ∧
    (separateOverloads emptySetting tagClashes {}).1.functionNames =
      ["f_arr_f32", "f_arr_f32", "g_f32", "g_f32", "h_f32", "h_vec2f", "h_f32"] ∧
    ¬ (separateOverloads emptySetting tagClashes {}).1.functionNames.Nodup := by
  rw [functionNames_separateOverloads]
  decide

end ShaderEffect.Lowering
