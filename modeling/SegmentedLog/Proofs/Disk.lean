import Mathlib
import SegmentedLog.Disk.Action
import SegmentedLog.Stepwise

/-! # Where the effects of file operations end

A walk asks for directories only, so it goes the same way as long as these keep their names. Taking
a file's name away or giving a new file a free name therefore changes nothing for any other path,
and changing the bytes of a file changes them for that file alone.
-/

namespace SegmentedLog.Disk

open Stepwise

variable {disk disk' : Disk} {place other : Place} {id id' : FileId} {path : String} {bytes : Bytes}
  {node : Node} {spot : Spot} {names : List String} {trail trail' : Trail} {cause : IoError}

/-! ## Questions -/

theorem ask_eq_ok {α : Type} {question : Disk → Except IoError α} {a : α} :
    ask question disk = .ok a disk' ↔ question disk = .ok a ∧ disk' = disk := by
  unfold ask
  cases question disk <;> simp [eq_comm]

theorem ask_eq_error {α : Type} {question : Disk → Except IoError α} :
    ask question disk = .error cause disk' ↔ question disk = .error cause ∧ disk' = disk := by
  unfold ask
  cases question disk <;> simp [eq_comm]

/-- What follows a question goes on with the answer, on the same disk. -/
theorem ask_bind_eq_ok {α β : Type} {question : Disk → Except IoError α} {next : α → Action β}
    {b : β} : (ask question >>= next) disk = .ok b disk' ↔
      ∃ a, question disk = .ok a ∧ next a disk = .ok b disk' := by
  rw [bind_eq_ok]
  constructor
  · rintro ⟨a, _, hask, hnext⟩
    obtain ⟨hanswer, rfl⟩ := ask_eq_ok.mp hask
    exact ⟨a, hanswer, hnext⟩
  · rintro ⟨a, hanswer, hnext⟩
    exact ⟨a, disk, ask_eq_ok.mpr ⟨hanswer, rfl⟩, hnext⟩

/-! ## Bytes -/

theorem content_setContent (h : id.number < disk.contents.size) (bytes : Bytes) :
    (disk.setContent id bytes).content id = bytes := by
  simp [content, setContent, h]

theorem content_setContent_of_ne (h : id' ≠ id) :
    (disk.setContent id bytes).content id' = disk.content id' := by
  have hnumber : id.number ≠ id'.number := by
    intro heq
    apply h
    cases id
    cases id'
    exact congrArg FileId.mk heq.symm
  simp only [content, setContent, Array.getD_eq_getD_getElem?]
  rw [Array.getElem?_setIfInBounds_ne hnumber]

theorem setContent_setContent {more : Bytes} :
    (disk.setContent id bytes).setContent id more = disk.setContent id more := by
  simp [setContent]

theorem setContent_content : disk.setContent id (disk.content id) = disk := by
  have hcontents : disk.contents.setIfInBounds id.number (disk.content id) = disk.contents := by
    ext k hk hk'
    · simp
    · rw [Array.getElem_setIfInBounds]
      split
      · next heq =>
        subst heq
        simp [content, hk']
      · rfl
  rw [setContent, hcontents]

@[simp] theorem size_contents_setContent :
    (disk.setContent id bytes).contents.size = disk.contents.size := by
  simp [setContent]

theorem bound_of_content_ne_nil (h : disk.content id ≠ []) : id.number < disk.contents.size := by
  by_contra hout
  apply h
  simp [content, Array.getD_eq_getD_getElem?, Array.getElem?_eq_none (not_lt.mp hout)]

/-- Bytes that are written where a file ends are added to it. -/
theorem overwrite_length (h : id.number < disk.contents.size) (bytes more : Bytes) :
    (disk.setContent id bytes).overwrite id bytes.length more =
      disk.setContent id (bytes ++ more) := by
  have hdrop : bytes.drop (bytes.length + more.length) = [] := List.drop_of_length_le (by omega)
  simp [overwrite, content_setContent h, setContent_setContent, hdrop]

theorem resize_of_le {length : Nat} (h : length ≤ (disk.content id).length) :
    disk.resize id length = disk.setContent id ((disk.content id).take length) := by
  simp [resize, Nat.sub_eq_zero_of_le h]

/-! ## Names -/

theorem lookup_filter_ne (entries : List (String × Node)) (name name' : String) :
    (entries.filter (·.1 ≠ name)).lookup name' =
      if name' = name then none else entries.lookup name' := by
  induction entries with
  | nil => simp
  | cons entry entries ih =>
    by_cases hentry : entry.1 = name
    · rw [List.filter_cons_of_neg (by simpa using hentry), ih]
      by_cases hname : name' = name
      · simp [hname]
      · have hne : (name' == entry.1) = false := by simpa [hentry] using hname
        simp [hname, List.lookup, hne]
    · rw [List.filter_cons_of_pos (by simpa using hentry)]
      by_cases hname : name' = entry.1
      · have hne : name' ≠ name := by
          rw [hname]
          exact hentry
        simp [List.lookup, hname, hentry]
      · have hne : (name' == entry.1) = false := by simpa using hname
        simp only [List.lookup, hne]
        exact ih

theorem children_modify (f : List (String × Node) → List (String × Node)) (id d : DirectoryId) :
    ({ disk with directories := disk.directories.modify id.number f } : Disk).children d =
      if d = id ∧ id.number < disk.directories.size then f (disk.children d)
      else disk.children d := by
  by_cases hd : d = id
  · subst hd
    by_cases hsize : d.number < disk.directories.size
    · simp [children, hsize, Array.getElem_modify]
    · simp [children, hsize]
  · have hnumber : id.number ≠ d.number := by
      intro heq
      apply hd
      cases id
      cases d
      exact congrArg DirectoryId.mk heq.symm
    simp [children, hd, Array.getD_eq_getD_getElem?, Array.getElem?_modify, hnumber]

theorem place_eq_iff : other = place ↔ other.dir = place.dir ∧ other.name = place.name := by
  cases other
  cases place
  simp

theorem node?_clear : (disk.clear place).node? other =
    if other = place then none else disk.node? other := by
  simp only [node?, clear, children_modify, place_eq_iff]
  by_cases hdir : other.dir = place.dir
  · by_cases hsize : place.dir.number < disk.directories.size
    · rw [if_pos ⟨hdir, hsize⟩, lookup_filter_ne]
      simp [hdir]
    · have hnone : disk.children other.dir = [] := by simp [children, hdir, hsize]
      simp [hsize, hnone]
  · simp [hdir]

theorem node?_of_clear (h : (disk.clear place).node? other = some node) :
    disk.node? other = some node := by
  rw [node?_clear] at h
  split at h
  · cases h
  · exact h

theorem node?_put (h : place.dir.number < disk.directories.size) :
    (disk.put place node).node? other = if other = place then some node else disk.node? other := by
  simp only [node?, put, children_modify, place_eq_iff]
  by_cases hdir : other.dir = place.dir
  · rw [if_pos ⟨hdir, h⟩]
    by_cases hname : other.name = place.name
    · simp [hdir, hname, List.lookup]
    · have hne : (other.name == place.name) = false := by simpa using hname
      simp only [List.lookup, hne, lookup_filter_ne, hdir, hname, if_false, and_false]
  · simp [hdir]

/-! ## Walks -/

def KeepsDirectories (before after : Disk) : Prop :=
  ∀ place id, before.node? place = some (.directory id) → after.node? place = some (.directory id)

theorem under?_eq_ok {found : Option Node} : disk.under? place = .ok found ↔
    place.name.utf8ByteSize ≤ maxNameSize ∧ disk.node? place = found := by
  unfold under?
  split <;> simp <;> omega

theorem enter_eq_ok {name : String} : disk.enter trail name = .ok trail' ↔
    (name = "." ∧ trail' = trail) ∨ (name ≠ "." ∧ name = ".." ∧ trail' = trail.tail) ∨
      (name ≠ "." ∧ name ≠ ".." ∧ name.utf8ByteSize ≤ maxNameSize ∧ ∃ id,
        disk.node? ⟨Trail.here trail, name⟩ = some (.directory id) ∧ trail' = id :: trail) := by
  unfold enter
  by_cases hdot : name = "."
  · simp [hdot, eq_comm]
  · by_cases hdots : name = ".."
    · simp [hdots, eq_comm]
    · rw [if_neg hdot, if_neg hdots]
      cases hunder : disk.under? ⟨Trail.here trail, name⟩ with
      | error cause =>
        have hsize : ¬ name.utf8ByteSize ≤ maxNameSize := by
          unfold under? at hunder
          split at hunder
          · next hlt => exact not_le.mpr hlt
          · cases hunder
        simp [hdot, hdots, hsize]
      | ok found =>
        obtain ⟨hsize, rfl⟩ := under?_eq_ok.mp hunder
        cases hnode : disk.node? ⟨Trail.here trail, name⟩ with
        | none => simp [hdot, hdots]
        | some node =>
          cases node with
          | file id => simp [hdot, hdots]
          | directory id => simp [hdot, hdots, hsize, eq_comm]

theorem enter_mono (h : KeepsDirectories disk disk') {name : String}
    (henter : disk.enter trail name = .ok trail') : disk'.enter trail name = .ok trail' := by
  rw [enter_eq_ok] at henter ⊢
  rcases henter with hdot | hdots | ⟨hdot, hdots, hsize, id, hnode, htrail⟩
  · exact .inl hdot
  · exact .inr (.inl hdots)
  · exact .inr (.inr ⟨hdot, hdots, hsize, id, h _ id hnode, htrail⟩)

theorem foldlM_enter_mono (h : KeepsDirectories disk disk')
    (hwalk : names.foldlM disk.enter trail = .ok trail') :
    names.foldlM disk'.enter trail = .ok trail' := by
  induction names generalizing trail with
  | nil => exact hwalk
  | cons name names ih =>
    rw [List.foldlM_cons] at hwalk ⊢
    obtain ⟨next, henter, hrest⟩ := exceptBind_eq_ok.mp hwalk
    exact exceptBind_eq_ok.mpr ⟨next, enter_mono h henter, ih hrest⟩

theorem follow_mono (h : KeepsDirectories disk disk') (hfollow : disk.follow path = .ok spot) :
    disk'.follow path = .ok spot := by
  obtain ⟨_, hcheck, hwalk⟩ := exceptBind_eq_ok.mp hfollow
  obtain ⟨trail, htrail, hspot⟩ := exceptBind_eq_ok.mp hwalk
  exact exceptBind_eq_ok.mpr ⟨_, hcheck,
    exceptBind_eq_ok.mpr ⟨trail, foldlM_enter_mono h htrail, hspot⟩⟩

theorem find_eq_ok : disk.find path = .ok node ↔ ∃ spot, disk.follow path = .ok spot ∧
    ((spot.IsDots ∧ ∃ trail, disk.enter spot.trail spot.name = .ok trail ∧
        node = .directory (Trail.here trail)) ∨
      (¬ spot.IsDots ∧ disk.under? spot.place = .ok (some node) ∧
        (spot.slash = true → node.isFile = false))) := by
  unfold find
  constructor
  · intro h
    obtain ⟨spot, hfollow, hfound⟩ := exceptBind_eq_ok.mp h
    refine ⟨spot, hfollow, ?_⟩
    split at hfound
    · next hdots =>
      obtain ⟨trail, henter, hnode⟩ := exceptBind_eq_ok.mp hfound
      cases hnode
      exact .inl ⟨hdots, trail, henter, rfl⟩
    · next hdots =>
      obtain ⟨found, hunder, hnode⟩ := exceptBind_eq_ok.mp hfound
      refine .inr ⟨hdots, ?_⟩
      match found with
      | none => cases hnode
      | some (.directory id) =>
        cases hnode
        exact ⟨hunder, fun _ => rfl⟩
      | some (.file id) =>
        dsimp only at hnode
        split at hnode
        · cases hnode
        · next hslash =>
          cases hnode
          exact ⟨hunder, fun hs => absurd hs hslash⟩
  · rintro ⟨spot, hfollow, ⟨hdots, trail, henter, rfl⟩ | ⟨hdots, hunder, hslash⟩⟩
    · refine exceptBind_eq_ok.mpr ⟨spot, hfollow, ?_⟩
      rw [if_pos hdots]
      exact exceptBind_eq_ok.mpr ⟨trail, henter, rfl⟩
    · refine exceptBind_eq_ok.mpr ⟨spot, hfollow, ?_⟩
      rw [if_neg hdots]
      refine exceptBind_eq_ok.mpr ⟨some node, hunder, ?_⟩
      cases node with
      | directory id => rfl
      | file id =>
        have hs : ¬ spot.slash = true := fun hs => by cases hslash hs
        dsimp only
        rw [if_neg hs]
        rfl

/-- What a path names it names as long as the directories on the way and the node itself stay. -/
theorem find_mono (h : KeepsDirectories disk disk')
    (hnode : ∀ place, disk.node? place = some node → disk'.node? place = some node)
    (hfind : disk.find path = .ok node) : disk'.find path = .ok node := by
  rw [find_eq_ok] at hfind ⊢
  rcases hfind with ⟨spot, hfollow, ⟨hdots, trail, henter, hdir⟩ | ⟨hdots, hunder, hslash⟩⟩
  · exact ⟨spot, follow_mono h hfollow, .inl ⟨hdots, trail, enter_mono h henter, hdir⟩⟩
  · obtain ⟨hsize, hfound⟩ := under?_eq_ok.mp hunder
    exact ⟨spot, follow_mono h hfollow,
      .inr ⟨hdots, under?_eq_ok.mpr ⟨hsize, hnode _ hfound⟩, hslash⟩⟩

end SegmentedLog.Disk
