import SegmentedLog.Proofs.Disk

/-! # Disks on which every name leads somewhere

A disk is well formed if the files and directories that it has names for are there. The empty disk
is, and no action changes that: what an action gives a name to was there under another one, or is
made on the spot.
-/

namespace SegmentedLog.Disk

open Stepwise

variable {disk disk' : Disk} {place : Place} {id : FileId} {path : String} {bytes : Bytes}
  {node : Node} {spot : Spot} {trail trail' : Trail}

def Contains (disk : Disk) : Node → Prop
  | .directory id => id.number < disk.directories.size
  | .file id => id.number < disk.contents.size

structure WellFormed (disk : Disk) : Prop where
  root : disk.Contains (.directory .root)
  node : ∀ place node, disk.node? place = some node → disk.Contains node

theorem wellFormed_empty : WellFormed {} := by
  refine ⟨Nat.one_pos, fun place node h => ?_⟩
  have hnone : ({} : Disk).node? place = none := by
    rcases place with ⟨⟨number⟩, name⟩
    cases number <;> rfl
  rw [hnone] at h
  cases h

/-! ## Walks -/

theorem WellFormed.enter (h : disk.WellFormed) {name : String}
    (htrail : ∀ d ∈ trail, disk.Contains (.directory d))
    (henter : disk.enter trail name = .ok trail') :
    ∀ d ∈ trail', disk.Contains (.directory d) := by
  rcases enter_eq_ok.mp henter with ⟨-, rfl⟩ | ⟨-, -, rfl⟩ | ⟨-, -, -, id, hnode, rfl⟩
  · exact htrail
  · intro d hd
    exact htrail d (List.mem_of_mem_tail hd)
  · intro d hd
    rcases List.mem_cons.mp hd with rfl | hd
    · exact h.node _ _ hnode
    · exact htrail d hd

theorem WellFormed.foldlM_enter (h : disk.WellFormed) {names : List String}
    (htrail : ∀ d ∈ trail, disk.Contains (.directory d))
    (hwalk : names.foldlM disk.enter trail = .ok trail') :
    ∀ d ∈ trail', disk.Contains (.directory d) := by
  induction names generalizing trail with
  | nil =>
    cases hwalk
    exact htrail
  | cons name names ih =>
    rw [List.foldlM_cons] at hwalk
    obtain ⟨next, henter, hrest⟩ := exceptBind_eq_ok.mp hwalk
    exact ih (h.enter htrail henter) hrest

theorem WellFormed.follow (h : disk.WellFormed) (hfollow : disk.follow path = .ok spot) :
    disk.Contains (.directory spot.place.dir) := by
  obtain ⟨_, -, hwalk⟩ := exceptBind_eq_ok.mp hfollow
  obtain ⟨trail, htrail, hspot⟩ := exceptBind_eq_ok.mp hwalk
  cases hspot
  have hall := h.foldlM_enter (by simp) htrail
  cases trail with
  | nil => exact h.root
  | cons d trail => exact hall d (by simp)

/-! ## Changes -/

theorem contains_of_le (hdirectories : disk.directories.size ≤ disk'.directories.size)
    (hcontents : disk.contents.size ≤ disk'.contents.size) (h : disk.Contains node) :
    disk'.Contains node := by
  cases node with
  | directory id => exact Nat.lt_of_lt_of_le h hdirectories
  | file id => exact Nat.lt_of_lt_of_le h hcontents

/-- A disk stays well formed if nothing on it is given up and new names lead to what is there. -/
theorem WellFormed.mono (h : disk.WellFormed)
    (hdirectories : disk.directories.size ≤ disk'.directories.size)
    (hcontents : disk.contents.size ≤ disk'.contents.size)
    (hnode : ∀ place node, disk'.node? place = some node →
      disk.node? place = some node ∨ disk'.Contains node) : disk'.WellFormed := by
  refine ⟨contains_of_le hdirectories hcontents h.root, fun place node hfound => ?_⟩
  rcases hnode place node hfound with hold | hnew
  · exact contains_of_le hdirectories hcontents (h.node place node hold)
  · exact hnew

theorem WellFormed.setContent (h : disk.WellFormed) (id : FileId) (bytes : Bytes) :
    (disk.setContent id bytes).WellFormed :=
  h.mono le_rfl size_contents_setContent.ge fun _ _ hfound => .inl hfound

theorem WellFormed.overwrite (h : disk.WellFormed) (id : FileId) (offset : Nat) (bytes : Bytes) :
    (disk.overwrite id offset bytes).WellFormed := h.setContent id _

theorem WellFormed.resize (h : disk.WellFormed) (id : FileId) (length : Nat) :
    (disk.resize id length).WellFormed := h.setContent id _

theorem size_directories_clear : (disk.clear place).directories.size = disk.directories.size := by
  simp [clear]

theorem size_directories_put :
    (disk.put place node).directories.size = disk.directories.size := by
  simp [put]

theorem WellFormed.clear (h : disk.WellFormed) (place : Place) : (disk.clear place).WellFormed :=
  h.mono size_directories_clear.ge le_rfl fun _ _ hfound => .inl (node?_of_clear hfound)

theorem WellFormed.put (h : disk.WellFormed) (place : Place) (hnode : disk.Contains node) :
    (disk.put place node).WellFormed := by
  refine h.mono size_directories_put.ge le_rfl fun other found hfound => ?_
  by_cases hdir : place.dir.number < disk.directories.size
  · rw [node?_put hdir] at hfound
    split at hfound
    · cases hfound
      exact .inr (contains_of_le size_directories_put.ge le_rfl hnode)
    · exact .inl hfound
  · have hsame : (disk.put place node).node? other = disk.node? other := by
      simp only [node?, Disk.put, children_modify, hdir, and_false, if_false]
    rw [hsame] at hfound
    exact .inl hfound

theorem WellFormed.create (h : disk.WellFormed) (place : Place) :
    (disk.create place).2.WellFormed := by
  apply WellFormed.put
  · exact h.mono le_rfl (by simp) fun _ _ hfound => .inl hfound
  · simp [Contains]

theorem WellFormed.createDirectory (h : disk.WellFormed) (place : Place) :
    (disk.createDirectory place).WellFormed := by
  apply WellFormed.put
  · refine h.mono (by simp) le_rfl fun other found hfound => .inl ?_
    have hsame : (disk.directories.push []).getD other.dir.number [] =
        disk.directories.getD other.dir.number [] := by
      rw [Array.getD_eq_getD_getElem?, Array.getD_eq_getD_getElem?, Array.getElem?_push]
      split
      · next hlast => simp [hlast]
      · rfl
    rw [← hfound]
    simp only [node?, children, hsame]
  · simp [Contains]

theorem WellFormed.move (h : disk.WellFormed) (old new : Place) (hnode : disk.Contains node) :
    (disk.move old new node).WellFormed :=
  (h.clear old).put new (contains_of_le size_directories_clear.ge le_rfl hnode)

/-! ## Actions -/

theorem leaves_ask {α : Type} (h : disk.WellFormed) (question : Disk → Except IoError α) :
    Leaves WellFormed (ask question) disk := by
  unfold Leaves ask
  cases question disk <;> exact h

/-- What follows a question may use the answer, on the same disk. -/
theorem leaves_ask_bind {α β : Type} {question : Disk → Except IoError α} {next : α → Action β}
    (h : disk.WellFormed)
    (hnext : ∀ a, question disk = .ok a → Leaves WellFormed (next a) disk) :
    Leaves WellFormed (ask question >>= next) disk := by
  refine (leaves_ask h question).bind fun a t ha _ => ?_
  obtain ⟨hanswer, rfl⟩ := ask_eq_ok.mp ha
  exact hnext a hanswer

theorem leaves_openOrCreate (h : disk.WellFormed) (path : String) :
    Leaves WellFormed (openOrCreate path) disk := by
  refine leaves_ask_bind h fun spot _ => ?_
  refine Leaves.ite (fun _ => h) fun _ => leaves_ask_bind h fun found _ => ?_
  match found with
  | some (.directory _) => exact h
  | some (.file _) => exact h
  | none => exact h.create spot.place

theorem leaves_write (h : disk.WellFormed) (path : String) (bytes : Bytes) :
    Leaves WellFormed (write path bytes) disk :=
  (leaves_openOrCreate h path).bind fun id _ _ ht => ht.setContent id bytes

theorem leaves_update (h : disk.WellFormed) (path : String) (f : Bytes → Bytes) :
    Leaves WellFormed (update path f) disk :=
  leaves_ask_bind h fun id _ => h.setContent id _

theorem leaves_setLength (h : disk.WellFormed) (path : String) (length : Nat) :
    Leaves WellFormed (setLength path length) disk :=
  leaves_ask_bind h fun id _ => Leaves.ite (fun _ => h) fun _ => h.resize id length

theorem leaves_remove (h : disk.WellFormed) (path : String) :
    Leaves WellFormed (remove path) disk := by
  refine leaves_ask_bind h fun spot _ => ?_
  refine Leaves.ite (fun _ => h) fun _ => leaves_ask_bind h fun found _ => ?_
  match found with
  | none => exact h
  | some (.directory _) => exact h
  | some (.file _) => exact Leaves.ite (fun _ => h) fun _ => h.clear spot.place

theorem leaves_makeDirectory (h : disk.WellFormed) (path : String) :
    Leaves WellFormed (makeDirectory path) disk := by
  refine leaves_ask_bind h fun spot _ => ?_
  refine Leaves.ite (fun _ => h) fun _ => leaves_ask_bind h fun found _ => ?_
  match found with
  | some _ => exact h
  | none => exact h.createDirectory spot.place

theorem leaves_ensureDirectory (h : disk.WellFormed) (path : String) :
    Leaves WellFormed (ensureDirectory path) disk := by
  have hmade := leaves_makeDirectory h path
  unfold Leaves ensureDirectory
  cases hmake : makeDirectory path disk with
  | ok _ t => exact hmade.of_ok hmake
  | error cause t =>
    have ht := hmade.of_error hmake
    dsimp only
    cases t.isDirectory path with
    | true => exact ht
    | false => exact ht

theorem leaves_makeWay (h : disk.WellFormed) (paths : List String) :
    Leaves WellFormed (makeWay paths) disk := by
  induction paths generalizing disk with
  | nil => exact h
  | cons path outer ih =>
    have hmade := leaves_ensureDirectory h path
    unfold Leaves
    simp only [makeWay]
    cases hmake : ensureDirectory path disk with
    | ok _ t => exact hmade.of_ok hmake
    | error cause t =>
      have ht := hmade.of_error hmake
      cases cause with
      | notFound => exact (ih ht).bind fun _ _ _ hu => leaves_ensureDirectory hu path
      | _ => exact ht

theorem leaves_makeDirectories (h : disk.WellFormed) (path : String) :
    Leaves WellFormed (makeDirectories path) disk :=
  Leaves.ite (fun _ => h) fun _ => leaves_makeWay h _

theorem leaves_moveTo (h : disk.WellFormed) (old new : Spot) (hnode : disk.Contains node)
    (there? : Option Node) : Leaves WellFormed (moveTo old new node there?) disk := by
  refine Leaves.ite (fun _ => h) fun _ => ?_
  match there? with
  | none => exact h.move old.place new.place hnode
  | some there =>
    refine Leaves.ite (fun _ => h) fun _ => Leaves.ite (fun _ => ?_) fun _ => h
    exact leaves_ask_bind h fun _ _ => h.move old.place new.place hnode

theorem leaves_rename (h : disk.WellFormed) (source target : String) :
    Leaves WellFormed (rename source target) disk := by
  refine leaves_ask_bind h fun _ _ => leaves_ask_bind h fun _ _ => ?_
  refine leaves_ask_bind h fun old _ => leaves_ask_bind h fun new _ => ?_
  refine Leaves.ite (fun _ => h) fun _ => leaves_ask_bind h fun found hunder => ?_
  match found with
  | none => exact h
  | some node =>
    have hnode : disk.Contains node := h.node _ _ (under?_eq_ok.mp hunder).2
    refine leaves_ask_bind h fun there? _ => Leaves.ite (fun _ => h) fun _ => ?_
    exact leaves_moveTo h old new hnode there?

end SegmentedLog.Disk
