import SegmentedLog.Proofs.Files

/-! # Giving a file another name

A file that is renamed is found under the new name, with the bytes it had. Its old name and a file
that stood under the new one are gone; all other names mean what they did.
-/

namespace SegmentedLog.Disk

open Stepwise

variable {disk disk' : Disk} {old new : Spot} {place other : Place} {id : FileId}
  {node : Node} {source target : String}

theorem node?_move (h : new.place.dir.number < disk.directories.size) :
    (disk.move old.place new.place node).node? other =
      if other = new.place then some node
      else if other = old.place then none else disk.node? other := by
  rw [move, node?_put (by rw [size_directories_clear]; exact h), node?_clear]

/-- What renaming a file has come to. If both names are one, there is nothing to do. -/
structure Renames (disk : Disk) (old new : Spot) (id : FileId) (disk' : Disk) : Prop where
  source : disk.node? old.place = some (.file id)
  dots : ¬ new.IsDots
  slash : new.slash = false
  size : new.place.name.utf8ByteSize ≤ maxNameSize
  target : ∀ d, disk.node? new.place ≠ some (.directory d)
  disk : disk' =
    if old.place = new.place then disk else disk.move old.place new.place (.file id)

theorem moveTo_eq_ok {there? : Option Node} (hthere : disk.node? new.place = there?)
    (hsource : disk.node? old.place = some (.file id))
    (h : moveTo old new (.file id) there? disk = .ok () disk') :
    (∀ d, disk.node? new.place ≠ some (.directory d)) ∧ disk' =
      if old.place = new.place then disk else disk.move old.place new.place (.file id) := by
  unfold moveTo at h
  rw [if_neg (by simp [Encloses])] at h
  match there? with
  | none =>
    have hmove := modify_eq_ok.mp h
    have hne : old.place ≠ new.place := by
      intro heq
      rw [heq, hthere] at hsource
      cases hsource
    rw [if_neg hne, hmove]
    exact ⟨by simp [hthere], rfl⟩
  | some there =>
    dsimp only at h
    split at h
    · exact absurd h throw_ne_ok
    · split at h
      · next hne =>
        obtain ⟨_, hcheck, hmove⟩ := ask_bind_eq_ok.mp h
        rw [if_neg hne, modify_eq_ok.mp hmove]
        refine ⟨fun d hd => ?_, rfl⟩
        rw [hthere] at hd
        cases hd
        cases hcheck
      · next heq =>
        obtain ⟨-, rfl⟩ := pure_eq_ok.mp h
        rw [not_not] at heq
        rw [if_pos heq, ← heq, hsource]
        exact ⟨by simp, rfl⟩

theorem rename_eq_ok (hfind : disk.find source = .ok (.file id))
    (h : rename source target disk = .ok () disk') :
    ∃ old new, disk.follow source = .ok old ∧ disk.follow target = .ok new ∧
      Renames disk old new id disk' := by
  obtain ⟨_, -, h⟩ := ask_bind_eq_ok.mp h
  obtain ⟨_, -, h⟩ := ask_bind_eq_ok.mp h
  obtain ⟨old, hold, h⟩ := ask_bind_eq_ok.mp h
  obtain ⟨new, hnew, h⟩ := ask_bind_eq_ok.mp h
  obtain ⟨spot, hspot, -, -, hunder⟩ := find_eq_file.mp hfind
  rw [hold] at hspot
  cases hspot
  have hsource := (under?_eq_ok.mp hunder).2
  refine ⟨old, new, hold, hnew, ?_⟩
  split at h
  · exact absurd h throw_ne_ok
  · next hdots =>
    rw [not_or] at hdots
    obtain ⟨node?, hnode, h⟩ := ask_bind_eq_ok.mp h
    rw [hunder] at hnode
    cases hnode
    obtain ⟨there?, hthere, h⟩ := ask_bind_eq_ok.mp h
    obtain ⟨hsize, hthere⟩ := under?_eq_ok.mp hthere
    split at h
    · exact absurd h throw_ne_ok
    · next hslash =>
      obtain ⟨htarget, hdisk⟩ := moveTo_eq_ok hthere hsource h
      refine ⟨hsource, hdots.2, ?_, hsize, htarget, hdisk⟩
      simp only [Node.isFile, Bool.true_and, Bool.or_eq_true, not_or, Bool.not_eq_true] at hslash
      exact hslash.2

theorem Renames.node? (h : Renames disk old new id disk')
    (hnew : new.place.dir.number < disk.directories.size) (other : Place) :
    disk'.node? other =
      if other = new.place then some (.file id)
      else if other = old.place then none else disk.node? other := by
  rw [h.disk]
  split
  · next heq =>
    by_cases hother : other = new.place
    · rw [if_pos hother, hother, ← heq, h.source]
    · rw [if_neg hother, if_neg (by rw [heq]; exact hother)]
  · exact node?_move hnew

theorem Renames.contents (h : Renames disk old new id disk') : disk'.contents = disk.contents := by
  rw [h.disk]
  split <;> rfl

theorem Renames.keepsDirectories (h : Renames disk old new id disk')
    (hnew : new.place.dir.number < disk.directories.size) : KeepsDirectories disk disk' := by
  intro other d hother
  rw [h.node? hnew, if_neg, if_neg, hother]
  · rintro rfl
    rw [h.source] at hother
    cases hother
  · rintro rfl
    exact h.target d hother

/-- The file is found under its new name, and is the file it was. -/
theorem HasFile.rename (hfile : disk.HasFile source id) (hdisk : disk.WellFormed)
    (h : Disk.rename source target disk = .ok () disk') :
    disk'.HasFile target id ∧ disk'.contents = disk.contents ∧ disk'.WellFormed := by
  obtain ⟨old, new, -, hfollow, hrenames⟩ := rename_eq_ok hfile.find h
  have hnew := hdisk.follow hfollow
  have hcontents := hrenames.contents
  refine ⟨⟨?_, ?_⟩, hcontents, (leaves_rename hdisk source target).of_ok h⟩
  · refine find_eq_file.mpr ⟨new, follow_mono (hrenames.keepsDirectories hnew) hfollow,
      hrenames.dots, hrenames.slash, under?_eq_ok.mpr ⟨hrenames.size, ?_⟩⟩
    rw [hrenames.node? hnew, if_pos rfl]
  · rw [hcontents]
    exact hfile.bound

end SegmentedLog.Disk
