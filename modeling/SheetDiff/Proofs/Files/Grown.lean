import SheetDiff.Files.Work
import SheetDiff.Proofs.Files.Located

/-!
# What making directories leaves as it was

Work on files changes neither the links nor the working directory, and takes the answers of the system
one by one (`Onward`). Making a directory with those above it only adds directories
(`grows_ensurePath`): whether it succeeds or not, every entry stays, and no file appears.
-/

namespace SheetDiff

variable {t t' t'' : FileTree} {p place : Place} {path : Path}

namespace FileTree

/-! ## Growing trees -/

/-- The same links and working directory, and the answers that come behind some of those of before. -/
structure Onward (t t' : FileTree) : Prop where
  links : t'.links = t.links
  workingDirectory : t'.workingDirectory = t.workingDirectory
  answers : ∃ n, t'.system = (t.after n).system

theorem Onward.refl (t : FileTree) : t.Onward t := ⟨rfl, rfl, 0, rfl⟩

theorem Onward.trans (h : t.Onward t') (h' : t'.Onward t'') : t.Onward t'' where
  links := h'.links.trans h.links
  workingDirectory := h'.workingDirectory.trans h.workingDirectory
  answers := by
    obtain ⟨n, hn⟩ := h.answers
    obtain ⟨n', hn'⟩ := h'.answers
    refine ⟨n' + n, ?_⟩
    rw [hn', after, hn, after, after]
    simp only [Nat.add_assoc]

theorem onward_after (t : FileTree) (n : Nat) : t.Onward (t.after n) := ⟨rfl, rfl, n, rfl⟩

theorem onward_put (t : FileTree) (place : Place) (e : Entry) : t.Onward (t.put place e) :=
  ⟨rfl, rfl, 0, rfl⟩

theorem Onward.unlinked (h : t.Onward t') {name : String} (hu : t.Unlinked name) : t'.Unlinked name := by
  intro directory
  rw [link?, h.links]
  exact hu directory

/-- Nothing is gone or changed, and what is new are directories. -/
structure Grown (t t' : FileTree) : Prop extends Onward t t' where
  kept : ∀ place e, t.entry? place = some e → t'.entry? place = some e
  made : ∀ place e, t'.entry? place = some e → t.entry? place = some e ∨ e = .directory

theorem grown_after (t : FileTree) (n : Nat) : t.Grown (t.after n) :=
  ⟨onward_after t n, fun _ _ h => h, fun _ _ h => .inl h⟩

theorem Grown.refl (t : FileTree) : t.Grown t := ⟨.refl t, fun _ _ h => h, fun _ _ h => .inl h⟩

theorem Grown.trans (h : t.Grown t') (h' : t'.Grown t'') : t.Grown t'' where
  toOnward := h.toOnward.trans h'.toOnward
  kept := fun place e he => h'.kept place e (h.kept place e he)
  made := by
    intro place e he
    rcases h'.made place e he with he | he
    · exact h.made place e he
    · exact .inr he

/-- The files are the same after directories were made. -/
theorem Grown.file?_eq (h : t.Grown t') (place : Place) : t'.file? place = t.file? place := by
  unfold file?
  cases he : t'.entry? place with
  | none =>
    cases ht : t.entry? place with
    | none => rfl
    | some e => simp [h.kept place e ht] at he
  | some e =>
    rcases h.made place e he with ht | rfl
    · rw [ht]
    · cases ht : t.entry? place with
      | none => rfl
      | some e =>
        obtain rfl : e = .directory := Option.some.inj ((h.kept place e ht).symm.trans he)
        rfl

/-- Paths lead to the same places after directories were made. -/
theorem Grown.toKept (h : t.Grown t') : t.Kept t' :=
  ⟨fun place => h.kept place .directory, h.links, h.workingDirectory⟩

theorem grown_put (h : t.entry? place = none) : t.Grown (t.put place .directory) where
  toOnward := onward_put t place .directory
  kept := by
    intro r e hr
    have hne : r ≠ place := by
      rintro rfl
      simp [h] at hr
    rwa [entry?_put_of_ne t hne]
  made := by
    intro r e hr
    have hfree : t.entry? place ≠ some .directory := by simp [h]
    by_cases hne : r = place
    · rw [hne, entry?_put_self t (ne_nil_of_entry_ne hfree)] at hr
      exact .inr (Option.some.inj hr).symm
    · rw [entry?_put_of_ne t hne] at hr
      exact .inl hr

end FileTree

namespace FileWork

variable {α β : Type}

/-! ## Running -/

theorem run_bind (x : FileWork α) (f : α → FileWork β) (t : FileTree) : (x >>= f).run t =
    match x.run t with
    | (.ok a, s) => (f a).run s
    | (.error e, s) => (.error e, s) := by
  rw [ExceptT.run_bind]
  simp only [bind, StateT.bind]
  generalize x.run t = found
  obtain ⟨r, s⟩ := found
  cases r <;> rfl

theorem run_get_bind (f : FileTree → FileWork β) (t : FileTree) :
    (get >>= f : FileWork β).run t = (f t).run t := rfl

theorem run_set_bind (s : FileTree) (f : PUnit → FileWork β) (t : FileTree) :
    (set s >>= f : FileWork β).run t = (f ⟨⟩).run s := rfl

theorem run_ofExcept (x : Except IoError α) (t : FileTree) :
    (MonadExcept.ofExcept x : FileWork α).run t = (x, t) := by
  cases x <;> rfl

theorem run_tryCatch (x : FileWork α) (f : IoError → FileWork α) (t : FileTree) :
    (tryCatch x f : FileWork α).run t = match x.run t with
      | (.ok a, s) => (.ok a, s)
      | (.error e, s) => (f e).run s := by
  change (ExceptT.tryCatch x f).run t = _
  simp only [ExceptT.tryCatch, ExceptT.run, ExceptT.mk, bind, StateT.bind]
  cases x t with
  | mk r s => cases r <;> rfl

/-- The system is asked, and answers. -/
theorem run_ask (access : Access) (path : Path) (t : FileTree) : (ask access path).run t =
    (match (t.system 0).refusal? access path with
      | some e => .error e
      | none => .ok (), t.after 1) := by
  rw [ask, run_get_bind, run_set_bind]
  cases (t.system 0).refusal? access path <;> rfl

/-! ## Making directories -/

/-- Work that only makes directories, whether it succeeds or not. -/
def Grows (x : FileWork α) : Prop := ∀ t : FileTree, t.Grown (x.run t).2

theorem grows_pure (a : α) : (pure a : FileWork α).Grows := FileTree.Grown.refl

theorem grows_throw (e : IoError) : (throw e : FileWork α).Grows := FileTree.Grown.refl

theorem grows_ask (access : Access) (path : Path) : (ask access path).Grows := by
  intro t
  rw [run_ask]
  exact FileTree.grown_after t 1

theorem Grows.bind {x : FileWork α} {f : α → FileWork β} (hx : x.Grows) (hf : ∀ a, (f a).Grows) :
    (x >>= f).Grows := by
  intro t
  have hfirst := hx t
  rw [run_bind]
  generalize x.run t = found at hfirst
  obtain ⟨r, s⟩ := found
  cases r with
  | error e => exact hfirst
  | ok a => exact hfirst.trans (hf a s)

theorem Grows.tryCatch {x : FileWork α} {f : IoError → FileWork α} (hx : x.Grows)
    (hf : ∀ e, (f e).Grows) : (tryCatch x f).Grows := by
  intro t
  have hfirst := hx t
  rw [run_tryCatch]
  generalize x.run t = found at hfirst
  obtain ⟨r, s⟩ := found
  cases r with
  | error e => exact hfirst.trans (hf e s)
  | ok a => exact hfirst

theorem grows_makeDirectory (path : Path) : (makeDirectory path).Grows := by
  refine (grows_ask _ _).bind fun _ t => ?_
  rw [run_get_bind, run_bind, run_ofExcept]
  cases t.destination path with
  | error e => exact .refl t
  | ok found =>
    obtain ⟨parent, name⟩ := found
    dsimp only
    split
    · exact .refl t
    · rename_i hno
      rw [not_or] at hno
      exact FileTree.grown_put (by simpa using hno.1)

theorem grows_isDirectory (path : Path) : (isDirectory path).Grows := fun t =>
  FileTree.grown_after t 1

theorem grows_ensureDirectory (path : Path) {above : FileWork Unit} (h : above.Grows) :
    (ensureDirectory path above).Grows := by
  have haccept (e : IoError) : (do
      if ← isDirectory path then pure () else throw e : FileWork Unit).Grows := by
    refine (grows_isDirectory path).bind fun found => ?_
    split
    · exact grows_pure ()
    · exact grows_throw e
  refine (grows_makeDirectory path).tryCatch fun e => ?_
  split
  · exact h.bind fun _ => (grows_makeDirectory path).tryCatch haccept
  · exact haccept _

theorem grows_ensureAll (absolute : Bool) (names : List String) : (ensureAll absolute names).Grows := by
  induction names with
  | nil =>
    rw [ensureAll]
    split
    · exact grows_ensureDirectory _ (grows_throw _)
    · exact grows_pure ()
  | cons name names ih => exact grows_ensureDirectory _ ih

/-- Making a directory with those above it adds nothing else. -/
theorem grows_ensurePath (path : String) : (ensurePath path).Grows := by
  unfold ensurePath
  split
  · exact grows_throw _
  · dsimp only
    split
    · exact grows_ensureAll _ _
    · exact grows_ensureDirectory _ (grows_ensureAll _ _)

end FileWork

end SheetDiff
