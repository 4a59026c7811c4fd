import ShaderEffect.Command.Run
import Mathlib.Logic.Function.Basic

/-!
# What compiling leaves in files

Files are texts in places, and paths lead to places in any way, so that several may lead to one.
**After a compilation every artifact is there exactly if no two of them fall on one place with
different texts**, and a file that cannot be compiled ends the command before anything of it or of
the files after it is written (`artifacts_kept_iff`).
-/

namespace ShaderEffect

open List Command

/-- How paths lead to places, and which of them cannot be written. -/
structure Volume (κ : Type) where
  locate : Path → κ
  refuses : Path → Option FileError

namespace Volume

section Steps

variable {σ α β : Type} {m m₁ m' : σ} {a : α} {x : ExceptT Failure (StateM σ) α}
  {f : α → ExceptT Failure (StateM σ) β} {step : StateM σ (Except FileError α)} {message : String}

theorem bind_of_ok (h : x m = (.ok a, m₁)) : (x >>= f) m = f a m₁ := by
  change ExceptT.bindCont f (x m).1 (x m).2 = _
  rw [h]
  rfl

theorem bind_of_error {e : Failure} (h : x m = (.error e, m₁)) : (x >>= f) m = (.error e, m₁) := by
  change ExceptT.bindCont f (x m).1 (x m).2 = _
  rw [h]
  rfl

theorem exists_of_bind {b : β} (h : (x >>= f) m = (.ok b, m')) :
    ∃ a m₁, x m = (.ok a, m₁) ∧ f a m₁ = (.ok b, m') := by
  rcases hx : x m with ⟨e | a, m₁⟩
  · rw [bind_of_error hx] at h
    cases h
  · rw [bind_of_ok hx] at h
    exact ⟨a, m₁, rfl, h⟩

theorem attempt_eq {r : Except FileError α} (h : step m = (r, m₁)) :
    attempt message step m = (r.mapError (Failure.ofFile message), m₁) := by
  have hstep : ∀ f : Except FileError α → StateM σ (Except Failure α), (step >>= f) m = f r m₁ := by
    intro f
    change f (step m).1 (step m).2 = _
    rw [h]
  refine (hstep _).trans ?_
  cases r <;> rfl

theorem of_attempt (h : attempt message step m = (.ok a, m₁)) : step m = (.ok a, m₁) := by
  rcases hstep : step m with ⟨e | b, m₂⟩ <;> rw [attempt_eq hstep] at h <;> cases h
  rfl

end Steps

variable {κ : Type} [DecidableEq κ] (v : Volume κ) {m m' m₁ : κ → Option String}

/-- The texts after one is put where a path leads. -/
def put (m : κ → Option String) (w : Path × String) : κ → Option String :=
  Function.update m (v.locate w.1) (some w.2)

def access : FileAccess (StateM (κ → Option String)) where
  read path := fun m => ((m (v.locate path)).elim (.error .notFound) .ok, m)
  write path text := fun m =>
    match v.refuses path with
    | some e => (.error e, m)
    | none => (.ok (), v.put m (path, text))
  makeDirectory path := fun m => ((v.refuses path).elim (.ok ()) .error, m)
  isThere path := fun m => ((m (v.locate path)).isSome, m)
  isDirectory _ := fun m => (false, m)
  names _ := fun m => (.ok [], m)

/-! ## Texts after writing -/

theorem foldl_put_of_ne {k : κ} {ws : List (Path × String)} (h : ∀ w ∈ ws, v.locate w.1 ≠ k) :
    ws.foldl v.put m k = m k := by
  induction ws generalizing m with
  | nil => rfl
  | cons w ws ih =>
    obtain ⟨hw, hws⟩ := forall_mem_cons.mp h
    rw [foldl_cons, ih hws]
    exact Function.update_of_ne hw.symm _ _

/-- What is written is there at the end exactly if no place is given different texts. -/
theorem foldl_put_iff {ws : List (Path × String)} :
    (∀ w ∈ ws, ws.foldl v.put m (v.locate w.1) = some w.2) ↔
      ∀ a ∈ ws, ∀ b ∈ ws, v.locate a.1 = v.locate b.1 → a.2 = b.2 := by
  refine ⟨fun h a ha b hb hplace => ?_, fun h => ?_⟩
  · exact Option.some.inj ((h a ha).symm.trans (hplace ▸ h b hb))
  · induction ws generalizing m with
    | nil => exact forall_mem_nil _
    | cons w ws ih =>
      have hlater := ih (m := v.put m w) fun a ha b hb =>
        h a (mem_cons_of_mem _ ha) b (mem_cons_of_mem _ hb)
      refine forall_mem_cons.mpr ⟨?_, hlater⟩
      rw [foldl_cons]
      by_cases hagain : ∃ a ∈ ws, v.locate a.1 = v.locate w.1
      · obtain ⟨a, ha, hplace⟩ := hagain
        rw [← hplace, hlater a ha, h a (mem_cons_of_mem _ ha) w mem_cons_self hplace]
      · rw [v.foldl_put_of_ne fun a ha hplace => hagain ⟨a, ha, hplace⟩]
        exact Function.update_self ..

/-! ## One file after the other -/

variable (options : Options) (outDir : Option Path) (deny : Bool) {path : Path}
  {pre post : List Path}

/-- The paths to which a compiled effect is written, with the texts. -/
def written (path : Path) (c : Compiled) : List (Path × String) :=
  match path.stem? with
  | some stem => (artifacts stem c).map fun a =>
      ((outputDirectory outDir path).join a.1, a.2)
  | none => []

/-- All that compiled effects are written to. -/
def writtenAll (outs : List (Path × Compiled)) : List (Path × String) :=
  outs.flatMap fun x => written outDir x.1 x.2

theorem texts_of_writeAll {directory : Path} : ∀ {as : List (String × String)} {m},
    writeAll v.access directory as m = (.ok (), m') →
      m' = (as.map fun a => (directory.join a.1, a.2)).foldl v.put m
  | [], m, h => (Prod.mk.inj h).2.symm
  | a :: as, m, h => by
    obtain ⟨_, m₁, hwrite, hrest⟩ := exists_of_bind h
    have hstep := of_attempt hwrite
    dsimp only [access] at hstep
    split at hstep
    · cases hstep
    · rw [texts_of_writeAll hrest, ← (Prod.mk.inj hstep).2]
      rfl

theorem compileFile_cases (path : Path) (m : κ → Option String) :
    (∃ e, compileFile v.access options path m = (.error e, m)) ∨
    ∃ source c, m (v.locate path) = some source ∧ compile options source = .ok c ∧
      compileFile v.access options path m = (.ok c, m) := by
  cases hm : m (v.locate path) with
  | none =>
    have hread : v.access.read path m = (.error .notFound, m) := by simp [access, hm]
    exact .inl ⟨_, bind_of_error (attempt_eq hread)⟩
  | some source =>
    have hread : v.access.read path m = (.ok source, m) := by simp [access, hm]
    unfold compileFile
    rw [bind_of_ok (attempt_eq hread)]
    cases hc : compile options source with
    | error e => exact .inl ⟨_, rfl⟩
    | ok c => exact .inr ⟨source, c, rfl, hc, rfl⟩

theorem written_of_compileToFiles
    (h : compileToFiles v.access options outDir deny path m = (.ok (), m')) :
    ∃ source c, m (v.locate path) = some source ∧ compile options source = .ok c ∧
      path.stem?.isSome = true ∧ m' = (written outDir path c).foldl v.put m := by
  unfold compileToFiles at h
  rcases v.compileFile_cases options path m with ⟨e, hfile⟩ | ⟨source, c, hsource, hc, hfile⟩
  · rw [bind_of_error hfile] at h
    cases h
  refine ⟨source, c, hsource, hc, ?_⟩
  rw [bind_of_ok hfile] at h
  by_cases hdeny : (deny && !c.warnings.isEmpty) = true
  · rw [if_pos hdeny] at h
    cases h
  rw [if_neg hdeny] at h
  unfold written
  cases hstem : path.stem? with
  | none =>
    rw [hstem] at h
    cases h
  | some stem =>
    rw [hstem] at h
    exact ⟨rfl, v.texts_of_writeAll h⟩

theorem compileToFiles_of_refused (h : ∀ c, (compileFile v.access options path m).1 = .ok c →
    deny = true ∧ c.warnings ≠ []) :
    ∃ e, compileToFiles v.access options outDir deny path m = (.error e, m) := by
  unfold compileToFiles
  rcases v.compileFile_cases options path m with ⟨e, hfile⟩ | ⟨_, c, -, -, hfile⟩
  · exact ⟨e, bind_of_error hfile⟩
  · obtain ⟨hdeny, hwarnings⟩ := h c (by rw [hfile])
    rw [bind_of_ok hfile, if_pos (by simp [hdeny, hwarnings])]
    exact ⟨_, rfl⟩

/-! ## All files -/

theorem compileEach_append
    (h : compileEach v.access options outDir deny pre m = (.ok (), m₁)) :
    compileEach v.access options outDir deny (pre ++ post) m =
      compileEach v.access options outDir deny post m₁ := by
  induction pre generalizing m with
  | nil =>
    cases h
    rfl
  | cons path pre ih =>
    obtain ⟨_, m₂, hfirst, hrest⟩ := exists_of_bind h
    exact (bind_of_ok hfirst).trans (ih hrest)

theorem compileAll_append
    (h : compileAll v.access options pre outDir deny m = (.ok (), m₁)) :
    compileAll v.access options (pre ++ post) outDir deny m =
      compileEach v.access options outDir deny post m₁ := by
  unfold compileAll at h ⊢
  cases outDir with
  | none => exact v.compileEach_append options _ deny h
  | some directory =>
    obtain ⟨_, m₂, hmade, hrest⟩ := exists_of_bind h
    exact (bind_of_ok hmade).trans (v.compileEach_append options _ deny hrest)

theorem written_of_compileEach {paths : List Path}
    (h : compileEach v.access options outDir deny paths m = (.ok (), m')) :
    ∃ outs : List (Path × Compiled), outs.map Prod.fst = paths ∧
      m' = (writtenAll outDir outs).foldl v.put m ∧
      ∀ pre x post, outs = pre ++ x :: post → x.1.stem?.isSome = true ∧ ∃ m₁ source,
        compileEach v.access options outDir deny (pre.map Prod.fst) m = (.ok (), m₁) ∧
          m₁ (v.locate x.1) = some source ∧ compile options source = .ok x.2 := by
  induction paths generalizing m with
  | nil =>
    cases h
    refine ⟨[], rfl, rfl, fun pre x post h => ?_⟩
    cases pre <;> cases h
  | cons path paths ih =>
    obtain ⟨_, m₁, hfirst, hrest⟩ := exists_of_bind h
    obtain ⟨source, c, hsource, hc, hstem, rfl⟩ :=
      v.written_of_compileToFiles options outDir deny hfirst
    obtain ⟨outs, rfl, rfl, hturns⟩ := ih hrest
    refine ⟨(path, c) :: outs, rfl, foldl_append.symm, fun pre x post hsplit => ?_⟩
    cases pre with
    | nil =>
      obtain ⟨rfl, rfl⟩ := cons.inj hsplit
      exact ⟨hstem, m, source, rfl, hsource, hc⟩
    | cons y pre =>
      obtain ⟨rfl, rfl⟩ := cons.inj hsplit
      obtain ⟨hx, m₂, source, hpre, hm₂⟩ := hturns pre x post rfl
      exact ⟨hx, m₂, source, (bind_of_ok hfirst).trans hpre, hm₂⟩

/-- **What compiling several files leaves.** After a success each file has been compiled from the
text that it had when its turn came, and all artifacts are there exactly if no two of them fall on
one place with different texts. A file that cannot be read or compiled, or has warnings that are
denied, ends the command, and neither it nor a file after it has written anything. -/
theorem artifacts_kept_iff (paths : List Path) (m : κ → Option String) :
    (∀ m', compileAll v.access options paths outDir deny m = (.ok (), m') →
      ∃ outs : List (Path × Compiled), outs.map Prod.fst = paths ∧
        (∀ pre x post, outs = pre ++ x :: post → x.1.stem?.isSome = true ∧ ∃ m₁ source,
          compileAll v.access options (pre.map Prod.fst) outDir deny m = (.ok (), m₁) ∧
            m₁ (v.locate x.1) = some source ∧ compile options source = .ok x.2) ∧
        ((∀ w ∈ writtenAll outDir outs, m' (v.locate w.1) = some w.2) ↔
          ∀ a ∈ writtenAll outDir outs, ∀ b ∈ writtenAll outDir outs,
            v.locate a.1 = v.locate b.1 → a.2 = b.2)) ∧
    ∀ pre path post m₁, paths = pre ++ path :: post →
      compileAll v.access options pre outDir deny m = (.ok (), m₁) →
      (∀ c, (compileFile v.access options path m₁).1 = .ok c →
        deny = true ∧ c.warnings ≠ []) →
      ∃ e, compileAll v.access options paths outDir deny m = (.error e, m₁) := by
  refine ⟨fun m' h => ?_, ?_⟩
  · obtain ⟨m₀, hstart, heach⟩ : ∃ m₀,
        compileAll v.access options [] outDir deny m = (.ok (), m₀) ∧
        compileEach v.access options outDir deny paths m₀ = (.ok (), m') := by
      unfold compileAll at h ⊢
      cases outDir with
      | none => exact ⟨m, rfl, h⟩
      | some directory =>
        obtain ⟨_, m₀, hmade, hrest⟩ := exists_of_bind h
        exact ⟨m₀, bind_of_ok hmade, hrest⟩
    obtain ⟨outs, houts, rfl, hturns⟩ := v.written_of_compileEach options outDir deny heach
    refine ⟨outs, houts, fun pre x post hsplit => ?_, v.foldl_put_iff⟩
    obtain ⟨hstem, m₁, source, hpre, hsource⟩ := hturns pre x post hsplit
    exact ⟨hstem, m₁, source, (v.compileAll_append options outDir deny hstart).trans hpre, hsource⟩
  · rintro pre path post m₁ rfl hpre hrefused
    obtain ⟨e, he⟩ := v.compileToFiles_of_refused options outDir deny hrefused
    exact ⟨e, (v.compileAll_append options outDir deny hpre).trans (bind_of_error he)⟩

end Volume

end ShaderEffect
