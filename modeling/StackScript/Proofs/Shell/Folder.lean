import StackScript.Proofs.Fallible
import StackScript.Shell.Folder

/-!
# Reading what was written

A file that has been written is read back, unless it is the null device, and the other files stay as they are
(`read_write`, `read_write_of_not_sameFile`). A path is followed through folders alone, and writing a file adds none, so
a path that led to a file before leads to it afterwards.
-/

namespace StackScript
namespace Shell
namespace Folder

variable {f g : Folder} {path : String} {place : Place} {bytes : Bytes}

/-! ### Where a path leads -/

/-- The path leads to a file or to where one can be made: the folders in it are there, and it ends in the name of a
file. -/
structure LeadsTo (f : Folder) (path : String) (place : Place) : Prop where
  located : ∃ front name, f.locate path = .ok (front, some name) ∧ checkName name = .ok () ∧ place = front ++ [name]
  no_slash : Path.endsInSlash path = false

/-- A path leads to one place. -/
theorem LeadsTo.unique {place' : Place} (h : f.LeadsTo path place) (h' : f.LeadsTo path place') : place = place' := by
  obtain ⟨front, name, hlocate, -, rfl⟩ := h.located
  obtain ⟨front', name', hlocate', -, rfl⟩ := h'.located
  rw [hlocate] at hlocate'
  cases hlocate'
  rfl

/-- A folder that can be entered can be entered whatever the files are. -/
theorem enter_withFiles {name : String} {next : Place} (h : f.enter place name = .ok next) (files : Table Bytes) :
    ({ f with files } : Folder).enter place name = .ok next := by
  unfold enter at h ⊢
  by_cases hdot : name = "."
  · rw [if_pos hdot] at h ⊢
    exact h
  by_cases hdots : name = ".."
  · rw [if_neg hdot, if_pos hdots] at h ⊢
    exact h
  rw [if_neg hdot, if_neg hdots] at h ⊢
  obtain ⟨u, hname, hnext⟩ := Fallible.bind_eq_ok_iff.mp h
  rw [hname, Fallible.ok_bind]
  -- The files only decide which error it is where there is no folder.
  dsimp only at hnext ⊢
  split at hnext
  · next hfolder =>
    have hfolder' : ({ f with files } : Folder).isFolder (place ++ [name]) = true := hfolder
    rw [if_pos hfolder']
    exact hnext
  · cases hnext

theorem locate_withFiles {x : Place × Option String} (h : f.locate path = .ok x) (files : Table Bytes) :
    ({ f with files } : Folder).locate path = .ok x := by
  have hfold : ∀ (names : List String) (place next : Place), names.foldlM f.enter place = .ok next →
      names.foldlM ({ f with files } : Folder).enter place = .ok next := by
    intro names
    induction names with
    | nil => exact fun _ _ h => h
    | cons name names ih =>
      intro place next hnext
      rw [List.foldlM_cons] at hnext ⊢
      obtain ⟨middle, hmiddle, hrest⟩ := Fallible.bind_eq_ok_iff.mp hnext
      rw [enter_withFiles hmiddle files, Fallible.ok_bind]
      exact ih middle next hrest
  unfold locate at h ⊢
  dsimp only at h ⊢
  split at h
  · cases h
  · next hlong =>
    rw [if_neg hlong]
    obtain ⟨front, hfront, hx⟩ := Fallible.bind_eq_ok_iff.mp h
    rw [hfold _ _ _ hfront, Fallible.ok_bind]
    exact hx

/-- Where a path leads depends on the folders and not on the files. -/
theorem LeadsTo.withFiles (h : f.LeadsTo path place) (files : Table Bytes) :
    ({ f with files } : Folder).LeadsTo path place := by
  obtain ⟨front, name, hlocate, hname, hplace⟩ := h.located
  exact ⟨⟨front, name, locate_withFiles hlocate files, hname, hplace⟩, h.no_slash⟩

theorem LeadsTo.store (h : f.LeadsTo path place) (place' : Place) (bytes : Bytes) :
    (f.store place' bytes).LeadsTo path place := by
  unfold Folder.store
  split
  · exact h
  · exact h.withFiles _

/-! ### Reading and writing -/

theorem file?_store_self (h : place ≠ nullDevice) : (f.store place bytes).file? place = some bytes := by
  rw [store, if_neg h, file?, if_neg h, Table.get?_insert, if_pos rfl]

theorem file?_store_of_ne {place' : Place} (h : placeName place ≠ placeName place') :
    (f.store place bytes).file? place' = f.file? place' := by
  unfold store
  split
  · rfl
  · simp only [file?, Table.get?_insert, if_neg h]

theorem read_eq_ok_iff :
    f.read path = .ok bytes ↔ ∃ place, f.LeadsTo path place ∧ f.file? place = some bytes := by
  unfold read
  constructor
  · intro h
    obtain ⟨⟨front, name?⟩, hlocate, h⟩ := Fallible.bind_eq_ok_iff.mp h
    cases name? with
    | none => cases h
    | some name =>
      obtain ⟨u, hname, h⟩ := Fallible.bind_eq_ok_iff.mp h
      cases hfile : f.file? (front ++ [name]) with
      | none =>
        rw [hfile] at h
        cases h
      | some bytes' =>
        rw [hfile] at h
        dsimp only at h
        split at h
        · cases h
        · next hslash =>
          cases h
          exact ⟨front ++ [name], ⟨⟨front, name, hlocate, hname, rfl⟩, by simpa using hslash⟩, hfile⟩
  · rintro ⟨place, ⟨⟨front, name, hlocate, hname, rfl⟩, hslash⟩, hfile⟩
    rw [hlocate, Fallible.ok_bind]
    dsimp only
    rw [hname, Fallible.ok_bind, hfile]
    dsimp only
    rw [if_neg (by simp [hslash])]
    rfl

theorem write_eq_ok_iff :
    f.write path bytes = .ok g ↔ ∃ place, f.LeadsTo path place ∧ f.isFolder place = false ∧
      g = f.store place bytes := by
  unfold write
  constructor
  · intro h
    obtain ⟨⟨front, name?⟩, hlocate, h⟩ := Fallible.bind_eq_ok_iff.mp h
    cases name? with
    | none => cases h
    | some name =>
      dsimp only at h
      split at h
      · cases h
      · next hslash =>
        obtain ⟨u, hname, h⟩ := Fallible.bind_eq_ok_iff.mp h
        split at h
        · cases h
        · next hfolder =>
          cases h
          exact ⟨front ++ [name], ⟨⟨front, name, hlocate, hname, rfl⟩, by simpa using hslash⟩,
            by simpa using hfolder, rfl⟩
  · rintro ⟨place, ⟨⟨front, name, hlocate, hname, rfl⟩, hslash⟩, hfolder, rfl⟩
    rw [hlocate, Fallible.ok_bind]
    dsimp only
    rw [if_neg (by simp [hslash]), hname, Fallible.ok_bind, if_neg (by simp [hfolder])]
    rfl

/-- A file can be made or replaced at the path. -/
def Writable (f : Folder) (path : String) : Prop := ∃ bytes g, f.write path bytes = .ok g

/-- Whether a file can be written does not depend on what is to be written. -/
theorem Writable.write (h : f.Writable path) (bytes : Bytes) : ∃ g, f.write path bytes = .ok g := by
  obtain ⟨bytes', g, hwrite⟩ := h
  obtain ⟨place, hleads, hfolder, -⟩ := write_eq_ok_iff.mp hwrite
  exact ⟨_, write_eq_ok_iff.mpr ⟨place, hleads, hfolder, rfl⟩⟩

/-- A file that has been written is read back, if it is kept at all. -/
theorem read_write (h : f.write path bytes = .ok g) (hdevice : ¬f.LeadsTo path nullDevice) :
    g.read path = .ok bytes := by
  obtain ⟨place, hleads, -, rfl⟩ := write_eq_ok_iff.mp h
  have hkept : place ≠ nullDevice := by
    rintro rfl
    exact hdevice hleads
  exact read_eq_ok_iff.mpr ⟨place, hleads.store _ _, file?_store_self hkept⟩

/-- Two paths lead to one file. -/
def SameFile (f : Folder) (path other : String) : Prop :=
  ∃ place place', f.LeadsTo path place ∧ f.LeadsTo other place' ∧ placeName place = placeName place'

/-- Writing a file leaves every other file as it is. -/
theorem read_write_of_not_sameFile {other : String} {contents : Bytes} (h : f.write path bytes = .ok g)
    (hother : ¬f.SameFile other path) (hread : f.read other = .ok contents) : g.read other = .ok contents := by
  obtain ⟨place, hleads, -, rfl⟩ := write_eq_ok_iff.mp h
  obtain ⟨place', hleads', hfile⟩ := read_eq_ok_iff.mp hread
  have hne : placeName place ≠ placeName place' := fun heq => hother ⟨place', place, hleads', hleads, heq.symm⟩
  exact read_eq_ok_iff.mpr ⟨place', hleads'.store _ _, (file?_store_of_ne hne).trans hfile⟩

end Folder
end Shell
end StackScript
