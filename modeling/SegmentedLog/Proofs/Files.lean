import SegmentedLog.Proofs.WellFormed

/-! # What actions do to a file and to no other

On a well-formed disk a path with nothing behind it can be made a file. A file can be rewritten, cut
and removed, and each of these touches that file alone.
-/

namespace SegmentedLog.Disk

open Stepwise

variable {disk disk' : Disk} {place other : Place} {id : FileId} {path : String} {bytes : Bytes}
  {node : Node} {spot : Spot} {cause : IoError}

/-! ## Finding a file -/

theorem findFile_eq_ok : disk.findFile path = .ok id ↔ disk.find path = .ok (.file id) := by
  unfold findFile
  rw [exceptBind_eq_ok]
  constructor
  · rintro ⟨node, hfind, hnode⟩
    cases node with
    | directory d => cases hnode
    | file id' =>
      cases hnode
      exact hfind
  · intro hfind
    exact ⟨_, hfind, rfl⟩

theorem read_eq_ok : disk.read path = .ok bytes ↔
    ∃ id, disk.find path = .ok (.file id) ∧ disk.content id = bytes := by
  unfold read
  cases hfile : disk.findFile path with
  | error cause =>
    constructor
    · intro h
      cases h
    · rintro ⟨id, hfind, -⟩
      rw [findFile_eq_ok.mpr hfind] at hfile
      cases hfile
  | ok id =>
    have hfind := findFile_eq_ok.mp hfile
    constructor
    · intro h
      cases h
      exact ⟨id, hfind, rfl⟩
    · rintro ⟨id', hfind', hbytes⟩
      rw [hfind] at hfind'
      cases hfind'
      rw [← hbytes]
      rfl

/-- A path to a file ends in a name without a slash behind it. -/
theorem find_eq_file : disk.find path = .ok (.file id) ↔ ∃ spot, disk.follow path = .ok spot ∧
    ¬ spot.IsDots ∧ spot.slash = false ∧ disk.under? spot.place = .ok (some (.file id)) := by
  rw [find_eq_ok]
  constructor
  · rintro ⟨spot, hfollow, ⟨-, trail, -, hdir⟩ | ⟨hdots, hunder, hslash⟩⟩
    · cases hdir
    · refine ⟨spot, hfollow, hdots, ?_, hunder⟩
      cases hs : spot.slash with
      | false => rfl
      | true => cases hslash hs
  · rintro ⟨spot, hfollow, hdots, hslash, hunder⟩
    exact ⟨spot, hfollow, .inr ⟨hdots, hunder, by simp [hslash]⟩⟩

/-- What is behind a path whose last name has been taken away. -/
theorem find_of_vacant (hfollow : disk.follow path = .ok spot) (hdots : ¬ spot.IsDots)
    (hunder : disk.under? spot.place = .ok none) : disk.find path = .error .notFound := by
  unfold find
  refine exceptBind_eq_error.mpr (.inr ⟨spot, hfollow, ?_⟩)
  rw [if_neg hdots]
  exact exceptBind_eq_error.mpr (.inr ⟨none, hunder, rfl⟩)

/-! ## Touching one file -/

/-- Whether two disks differ in the file at a path at most: every other file has its bytes, and
every other file or directory is found under the same paths. -/
structure ChangedOnlyAt (path : String) (before after : Disk) : Prop where
  bytes : ∀ id, before.find path ≠ .ok (.file id) → after.content id = before.content id
  kept : ∀ other node, before.find other = .ok node → before.find path ≠ .ok node →
    after.find other = .ok node
  found : ∀ other node, after.find other = .ok node → before.find other = .ok node

theorem ChangedOnlyAt.refl (path : String) (disk : Disk) : ChangedOnlyAt path disk disk :=
  ⟨fun _ _ => rfl, fun _ _ h _ => h, fun _ _ h => h⟩

theorem changedOnlyAt_setContent (h : disk.find path = .ok (.file id)) :
    ChangedOnlyAt path disk (disk.setContent id bytes) := by
  refine ⟨fun id' hne => ?_, fun _ _ hfind _ => hfind, fun _ _ hfind => hfind⟩
  apply content_setContent_of_ne
  intro heq
  exact hne (heq ▸ h)

theorem keepsDirectories_clear (h : disk.node? place = some (.file id)) :
    KeepsDirectories disk (disk.clear place) := by
  intro other d hnode
  rw [node?_clear, if_neg, hnode]
  intro heq
  rw [heq, h] at hnode
  cases hnode

/-- Taking a file's name away leaves nothing behind its path and all other paths as they were. -/
theorem clear_file (hfollow : disk.follow path = .ok spot) (hdots : ¬ spot.IsDots)
    (hslash : spot.slash = false) (hunder : disk.under? spot.place = .ok (some (.file id))) :
    (disk.clear spot.place).find path = .error .notFound ∧
      ChangedOnlyAt path disk (disk.clear spot.place) := by
  obtain ⟨hsize, hnode⟩ := under?_eq_ok.mp hunder
  have hkeeps := keepsDirectories_clear hnode
  constructor
  · refine find_of_vacant (follow_mono hkeeps hfollow) hdots (under?_eq_ok.mpr ⟨hsize, ?_⟩)
    rw [node?_clear, if_pos rfl]
  · refine ⟨fun _ _ => rfl, fun other node hfind hne => ?_, fun other node hfind => ?_⟩
    · refine find_mono hkeeps (fun place hplace => ?_) hfind
      rw [node?_clear, if_neg, hplace]
      intro heq
      rw [heq, hnode] at hplace
      cases hplace
      exact hne (find_eq_file.mpr ⟨spot, hfollow, hdots, hslash, hunder⟩)
    · exact find_mono (fun _ _ => node?_of_clear) (fun _ => node?_of_clear) hfind

/-! ## Removing and cutting -/

theorem remove_eq_ok (h : remove path disk = .ok () disk') :
    disk'.find path = .error .notFound ∧ ChangedOnlyAt path disk disk' := by
  obtain ⟨spot, hfollow, hrest⟩ := ask_bind_eq_ok.mp h
  split at hrest
  · exact absurd hrest throw_ne_ok
  · next hdots =>
    obtain ⟨found, hunder, hfound⟩ := ask_bind_eq_ok.mp hrest
    match found with
    | none => exact absurd hfound throw_ne_ok
    | some (.directory _) => exact absurd hfound throw_ne_ok
    | some (.file id) =>
      dsimp only at hfound
      split at hfound
      · exact absurd hfound throw_ne_ok
      · next hslash =>
        have hclear := modify_eq_ok.mp hfound
        rw [← hclear]
        exact clear_file hfollow hdots (by simpa using hslash) hunder

theorem remove_eq_error (h : remove path disk = .error cause disk') :
    disk' = disk ∧ (cause = .notFound → disk.find path = .error .notFound) := by
  rcases bind_eq_error.mp h with hask | ⟨spot, _, hask, hrest⟩
  · obtain ⟨hfollow, rfl⟩ := ask_eq_error.mp hask
    refine ⟨rfl, fun hcause => ?_⟩
    rw [hcause] at hfollow
    exact exceptBind_eq_error.mpr (.inl hfollow)
  · obtain ⟨hfollow, rfl⟩ := ask_eq_ok.mp hask
    split at hrest
    · cases hrest
      exact ⟨rfl, nofun⟩
    · next hdots =>
      rcases bind_eq_error.mp hrest with hask | ⟨found, _, hask, hfound⟩
      · obtain ⟨hunder, rfl⟩ := ask_eq_error.mp hask
        refine ⟨rfl, fun hcause => ?_⟩
        unfold under? at hunder
        split at hunder <;> cases hunder
        cases hcause
      · obtain ⟨hunder, rfl⟩ := ask_eq_ok.mp hask
        match found with
        | none =>
          cases hfound
          exact ⟨rfl, fun _ => find_of_vacant hfollow hdots hunder⟩
        | some (.directory _) =>
          cases hfound
          exact ⟨rfl, nofun⟩
        | some (.file id) =>
          dsimp only at hfound
          split at hfound <;> cases hfound
          exact ⟨rfl, nofun⟩

theorem remove_of_file (h : disk.find path = .ok (.file id)) :
    ∃ disk', remove path disk = .ok () disk' := by
  obtain ⟨spot, hfollow, hdots, hslash, hunder⟩ := find_eq_file.mp h
  refine ⟨disk.clear spot.place, ask_bind_eq_ok.mpr ⟨spot, hfollow, ?_⟩⟩
  rw [if_neg hdots]
  refine ask_bind_eq_ok.mpr ⟨_, hunder, ?_⟩
  simp only [hslash]
  rfl

theorem setLength_of_file (h : disk.find path = .ok (.file id)) {length : Nat}
    (hlength : length < lengthLimit) :
    setLength path length disk = .ok () (disk.resize id length) := by
  refine ask_bind_eq_ok.mpr ⟨id, findFile_eq_ok.mpr h, ?_⟩
  rw [if_neg (not_le.mpr hlength)]
  rfl

theorem setLength_eq_ok {length : Nat} (h : setLength path length disk = .ok () disk') :
    ∃ id, disk.find path = .ok (.file id) ∧ disk' = disk.resize id length := by
  obtain ⟨id, hfile, hrest⟩ := ask_bind_eq_ok.mp h
  split at hrest
  · exact absurd hrest throw_ne_ok
  · exact ⟨id, findFile_eq_ok.mp hfile, (modify_eq_ok.mp hrest).symm⟩

theorem setLength_eq_error {length : Nat} (h : setLength path length disk = .error cause disk') :
    disk' = disk := by
  rcases bind_eq_error.mp h with hask | ⟨id, _, hask, hrest⟩
  · exact (ask_eq_error.mp hask).2
  · obtain ⟨-, rfl⟩ := ask_eq_ok.mp hask
    split at hrest <;> cases hrest
    rfl

theorem update_of_file (h : disk.find path = .ok (.file id)) (f : Bytes → Bytes) :
    update path f disk = .ok () (disk.setContent id (f (disk.content id))) := by
  exact ask_bind_eq_ok.mpr ⟨id, findFile_eq_ok.mpr h, rfl⟩

/-! ## Making a file -/

/-- A file that a path names and that has a place for its bytes. -/
structure HasFile (disk : Disk) (path : String) (id : FileId) : Prop where
  find : disk.find path = .ok (.file id)
  bound : id.number < disk.contents.size

theorem HasFile.setContent (h : disk.HasFile path id) (bytes : Bytes) :
    (disk.setContent id bytes).HasFile path id :=
  ⟨h.find, by rw [size_contents_setContent]; exact h.bound⟩

theorem HasFile.read (h : disk.HasFile path id) :
    (disk.setContent id bytes).read path = .ok bytes :=
  read_eq_ok.mpr ⟨id, h.find, content_setContent h.bound _⟩

theorem hasFile_of_read (h : disk.read path = .ok bytes) (hne : bytes ≠ []) :
    ∃ id, disk.HasFile path id ∧ disk.content id = bytes := by
  obtain ⟨id, hfind, hcontent⟩ := read_eq_ok.mp h
  refine ⟨id, ⟨hfind, ?_⟩, hcontent⟩
  by_contra hbound
  refine hne (hcontent.symm.trans ?_)
  rw [content, Array.getD, dif_neg hbound]

def Vacant (disk : Disk) (path : String) : Prop :=
  ∃ spot, disk.follow path = .ok spot ∧ ¬ spot.IsDots ∧ spot.slash = false ∧
    disk.under? spot.place = .ok none

theorem vacant_empty : Vacant {} "log" := ⟨⟨[], "log", false⟩, rfl, by decide, rfl, rfl⟩

/-- Whether a path leads to a file without bytes, or to none yet. -/
def Blank (disk : Disk) (path : String) : Prop := disk.read path = .ok [] ∨ disk.Vacant path

theorem openOrCreate_of_file (h : disk.find path = .ok (.file id)) :
    openOrCreate path disk = .ok id disk := by
  obtain ⟨spot, hfollow, hdots, hslash, hunder⟩ := find_eq_file.mp h
  refine ask_bind_eq_ok.mpr ⟨spot, hfollow, ?_⟩
  rw [if_neg (by simp [hdots, hslash])]
  exact ask_bind_eq_ok.mpr ⟨_, hunder, rfl⟩

theorem node?_create (h : place.dir.number < disk.directories.size) :
    (disk.create place).2.node? other =
      if other = place then some (.file (disk.create place).1) else disk.node? other :=
  node?_put h

theorem keepsDirectories_create (h : place.dir.number < disk.directories.size)
    (hnone : disk.node? place = none) : KeepsDirectories disk (disk.create place).2 := by
  intro other d hother
  rw [node?_create h, if_neg, hother]
  rintro rfl
  rw [hnone] at hother
  cases hother

theorem openOrCreate_of_vacant (hdisk : disk.WellFormed) (h : disk.Vacant path) :
    ∃ id disk', openOrCreate path disk = .ok id disk' ∧ disk'.HasFile path id ∧
      disk'.content id = [] := by
  rcases h with ⟨spot, hfollow, hdots, hslash, hunder⟩
  obtain ⟨hsize, hnode⟩ := under?_eq_ok.mp hunder
  have hdir := hdisk.follow hfollow
  refine ⟨(disk.create spot.place).1, (disk.create spot.place).2, ?_, ⟨?_, ?_⟩, ?_⟩
  · refine ask_bind_eq_ok.mpr ⟨spot, hfollow, ?_⟩
    rw [if_neg (by simp [hdots, hslash])]
    exact ask_bind_eq_ok.mpr ⟨none, hunder, rfl⟩
  · refine find_eq_file.mpr ⟨spot, follow_mono (keepsDirectories_create hdir hnode) hfollow, hdots,
      hslash, under?_eq_ok.mpr ⟨hsize, ?_⟩⟩
    rw [node?_create hdir, if_pos rfl]
  · simp [create, put]
  · simp [create, put, content]

theorem openOrCreate_of_blank (hdisk : disk.WellFormed) (h : disk.Blank path) :
    ∃ id disk', openOrCreate path disk = .ok id disk' ∧ disk'.HasFile path id ∧
      disk'.content id = [] := by
  rcases h with hread | hvacant
  · obtain ⟨id, hfind, hcontent⟩ := read_eq_ok.mp hread
    obtain ⟨spot, -, -, -, hunder⟩ := find_eq_file.mp hfind
    have hbound : disk.Contains (.file id) := hdisk.node _ _ (under?_eq_ok.mp hunder).2
    exact ⟨id, disk, openOrCreate_of_file hfind, ⟨hfind, hbound⟩, hcontent⟩
  · exact openOrCreate_of_vacant hdisk hvacant

/-- A file that was opened was there, or its place was free. -/
theorem openOrCreate_eq_ok (h : openOrCreate path disk = .ok id disk') :
    (disk.find path = .ok (.file id) ∧ disk' = disk) ∨ disk.Vacant path := by
  obtain ⟨spot, hfollow, hrest⟩ := ask_bind_eq_ok.mp h
  split at hrest
  · exact absurd hrest throw_ne_ok
  · next hspot =>
    rw [not_or, Bool.not_eq_true] at hspot
    obtain ⟨found, hunder, hfound⟩ := ask_bind_eq_ok.mp hrest
    match found with
    | some (.directory _) => exact absurd hfound throw_ne_ok
    | some (.file id') =>
      cases hfound
      exact .inl ⟨find_eq_file.mpr ⟨spot, hfollow, hspot.1, hspot.2, hunder⟩, rfl⟩
    | none => exact .inr ⟨spot, hfollow, hspot.1, hspot.2, hunder⟩

end SegmentedLog.Disk
