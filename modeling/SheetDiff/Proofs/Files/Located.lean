import Mathlib.Data.List.Basic
import SheetDiff.Files.Tree

/-!
# Where paths lead

A path leads to the same place while directories stay directories and neither the links nor the working
directory change (`Kept.locate`). This is so when a file is put where no directory is (`kept_put`), and
when the system has only been asked (`locate_after`). A path leads to a place with its own last name
where no link has that name (`getLast?_of_locate`). Each proof is an induction along the names of a path
inside one on the number of symbolic links that may still be followed.
-/

namespace SheetDiff.FileTree

variable {t t' : FileTree} {p q place : Place} {e : Entry} {name : String} {names : List String}
variable {path : Path}

/-! ## Entries -/

theorem entry?_put_self (t : FileTree) (h : place ≠ []) (e : Entry) :
    FileTree.entry? (t.put place e) place = some e := by
  have hnone : (t.entries.filter (·.1 ≠ place)).lookup place = none := by
    rw [List.lookup_eq_none_iff]
    intro entry hentry
    have hne : entry.1 ≠ place := by simpa using (List.mem_filter.1 hentry).2
    simpa using hne.symm
  rw [FileTree.entry?, if_neg h, put, List.lookup_append, hnone, Option.none_or, List.lookup_cons_self]

theorem entry?_put_of_ne (t : FileTree) (h : q ≠ place) (e : Entry) :
    FileTree.entry? (t.put place e) q = t.entry? q := by
  have hkept (entries : List (Place × Entry)) :
      (entries.filter (·.1 ≠ place)).lookup q = entries.lookup q := by
    induction entries with
    | nil => rfl
    | cons entry entries ih =>
      obtain ⟨r, f⟩ := entry
      by_cases hr : r = place
      · subst hr
        have hqr : (q == r) = false := by simpa using h
        simpa [List.lookup_cons, hqr] using ih
      · rw [List.filter_cons_of_pos (by simpa using hr), List.lookup_cons, List.lookup_cons, ih]
  have hqp : (q == place) = false := by simpa using h
  simp only [FileTree.entry?, put, List.lookup_append, hkept, List.lookup_cons, hqp, List.lookup_nil,
    Option.or_none]

/-- An entry that is put over another one takes its place. -/
theorem put_put (t : FileTree) (place : Place) (e e' : Entry) :
    FileTree.put (t.put place e) place e' = t.put place e' := by
  simp [put, List.filter_filter]

theorem ne_nil_of_entry_ne (h : t.entry? place ≠ some .directory) : place ≠ [] := by
  rintro rfl
  simp [FileTree.entry?] at h

/-- The contents of the file at a place. -/
def file? (t : FileTree) (place : Place) : Option ByteArray :=
  match t.entry? place with
  | some (.file contents) => some contents
  | _ => none

theorem file?_put_self (t : FileTree) (h : place ≠ []) (bytes : ByteArray) :
    file? (t.put place (.file bytes)) place = some bytes := by
  rw [file?, entry?_put_self t h]

theorem file?_put_of_ne (t : FileTree) (h : q ≠ place) (e : Entry) :
    file? (t.put place e) q = t.file? q := by
  rw [file?, entry?_put_of_ne t h, file?]

/-! ## Answers -/

/-- The tree once the system has been asked so many times. -/
def after (t : FileTree) (n : Nat) : FileTree := { t with system := fun m => t.system (m + n) }

private theorem walk_after (t : FileTree) (n : Nat) : (t.after n).walk = t.walk := by
  funext follow p names
  induction names generalizing p with
  | nil => rfl
  | cons name names ih =>
    have henter : (t.after n).enter p name = t.enter p name := rfl
    simp only [walk, henter, ih]

private theorem follow_after (t : FileTree) (n links : Nat) :
    (t.after n).follow links = t.follow links := by
  induction links with
  | zero => rw [follow, follow, walk_after]
  | succ links ih => rw [follow, follow, walk_after, ih]

/-- Paths lead to the same places when the system has been asked. -/
@[simp]
theorem locate_after (t : FileTree) (n : Nat) (path : Path) :
    (t.after n).locate path = t.locate path := by
  rw [locate, follow_after]
  rfl

/-! ## What is kept -/

/-- Directories stay directories, and the links and the working directory are the same. -/
structure Kept (t t' : FileTree) : Prop where
  directory : ∀ place, t.entry? place = some .directory → t'.entry? place = some .directory
  links : t'.links = t.links
  workingDirectory : t'.workingDirectory = t.workingDirectory

theorem Kept.trans {t'' : FileTree} (h : t.Kept t') (h' : t'.Kept t'') : t.Kept t'' where
  directory := fun place hd => h'.directory place (h.directory place hd)
  links := h'.links.trans h.links
  workingDirectory := h'.workingDirectory.trans h.workingDirectory

/-- A directory stays one when a file is put where none is. -/
theorem kept_put (h : t.entry? place ≠ some .directory) (bytes : ByteArray) :
    t.Kept (t.put place (.file bytes)) where
  directory := by
    intro r hr
    have hne : r ≠ place := by
      rintro rfl
      exact h hr
    rw [entry?_put_of_ne t hne, hr]
  links := rfl
  workingDirectory := rfl

theorem Kept.enter (hk : t.Kept t') {lead : Lead} (h : t.enter p name = .ok lead) :
    t'.enter p name = .ok lead := by
  have hlink : t'.link? (p ++ [name]) = t.link? (p ++ [name]) := by rw [link?, link?, hk.links]
  unfold FileTree.enter at h ⊢
  split at h
  · contradiction
  · contradiction
  · rename_i hp
    rw [hk.directory p hp, hlink]
    exact h

/-- Names lead to the same place if those of symbolic links do. -/
theorem Kept.walk (hk : t.Kept t') {follow follow' : Place → List String → Except IoError Place}
    (hf : ∀ place names r, follow place names = .ok r → follow' place names = .ok r)
    (h : t.walk follow p names = .ok q) : t'.walk follow' p names = .ok q := by
  induction names generalizing p with
  | nil => exact h
  | cons name names ih =>
    rw [FileTree.walk] at h ⊢
    split at h
    · contradiction
    · rename_i hto
      rw [hk.enter hto]
      exact ih h
    · rename_i halong
      rw [hk.enter halong]
      exact hf _ _ _ h

theorem Kept.follow (hk : t.Kept t') {links : Nat} (h : t.follow links p names = .ok q) :
    t'.follow links p names = .ok q := by
  induction links generalizing p names q with
  | zero => exact hk.walk (fun _ _ _ hr => hr) h
  | succ links ih => exact hk.walk (fun _ _ _ hr => ih hr) h

/-- A path leads to the same place. -/
theorem Kept.locate (hk : t.Kept t') (h : t.locate path = .ok q) : t'.locate path = .ok q := by
  rw [FileTree.locate] at h ⊢
  split at h
  · contradiction
  · rw [if_neg ‹_›, hk.workingDirectory]
    exact hk.follow h

/-! ## Last names -/

/-- A name that stands for an entry of a directory. -/
structure IsName (name : String) : Prop where
  ne_empty : name ≠ ""
  ne_dot : name ≠ "."
  ne_dots : name ≠ ".."

/-- No link has a name. -/
def Unlinked (t : FileTree) (name : String) : Prop := ∀ directory, t.link? (directory ++ [name]) = none

private theorem enter_of_unlinked (hn : IsName name) (hu : t.Unlinked name) {lead : Lead}
    (h : t.enter p name = .ok lead) : lead = .to (p ++ [name]) := by
  unfold enter at h
  split at h
  · contradiction
  · contradiction
  · rw [if_neg (by simp [hn.ne_empty, hn.ne_dot]), if_neg hn.ne_dots, hu p] at h
    exact (Except.ok.inj h).symm

/-- Names lead to a place with the last of them, if those behind symbolic links do. -/
private theorem getLast?_of_walk {follow : Place → List String → Except IoError Place}
    (hf : ∀ place names r, names.getLast? = some name → follow place names = .ok r →
      r.getLast? = some name)
    (hn : IsName name) (hu : t.Unlinked name) (hl : names.getLast? = some name)
    (h : t.walk follow p names = .ok q) : q.getLast? = some name := by
  induction names generalizing p with
  | nil => simp at hl
  | cons first names ih =>
    rw [walk] at h
    cases names with
    | nil =>
      obtain rfl : first = name := by simpa using hl
      split at h
      · contradiction
      · rename_i hto
        obtain rfl := Lead.to.inj (enter_of_unlinked hn hu hto)
        obtain rfl : p ++ [first] = q := Except.ok.inj h
        simp
      · rename_i halong
        exact absurd (enter_of_unlinked hn hu halong) (by simp)
    | cons second names =>
      rw [List.getLast?_cons_cons] at hl
      split at h
      · contradiction
      · exact ih hl h
      · exact hf _ _ _ (by rw [List.getLast?_append, hl, Option.some_or]) h

private theorem getLast?_of_follow {links : Nat} (hn : IsName name) (hu : t.Unlinked name)
    (hl : names.getLast? = some name) (h : t.follow links p names = .ok q) :
    q.getLast? = some name := by
  induction links generalizing p names q with
  | zero => exact getLast?_of_walk (fun _ _ _ _ hr => by contradiction) hn hu hl h
  | succ links ih => exact getLast?_of_walk (fun _ _ _ hl hr => ih hl hr) hn hu hl h

/-- The place that a path leads to has the last name of the path, if no link has that name. -/
theorem getLast?_of_locate (h : t.locate path = .ok q) (hl : path.names.getLast? = some name)
    (hn : IsName name) (hu : t.Unlinked name) : q.getLast? = some name := by
  rw [locate] at h
  split at h
  · contradiction
  · exact getLast?_of_follow hn hu hl h

end SheetDiff.FileTree
