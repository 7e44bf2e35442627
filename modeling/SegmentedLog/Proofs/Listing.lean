import SegmentedLog.Directory
import SegmentedLog.Proofs.FileNames
import SegmentedLog.Proofs.Renaming

/-! # The segment files of a directory

A segment file is listed under its name if the name stands for a range. A directory without segment
files has one at most after a file was made in it, and the name of this one changes when it is
renamed; so what is listed is told by that name.
-/

namespace SegmentedLog

open Stepwise

namespace Disk

variable {disk disk' : Disk} {dir name path : String} {spot : Spot} {trail : Trail} {id : FileId}
  {node : Node} {place : Place}

theorem follow_join (h : Path.Plain name) : disk.follow (Path.join dir name) = .ok spot ↔
    Path.check (Path.join dir name) = .ok () ∧
      ∃ trail, disk.walk (Path.names dir) = .ok trail ∧ spot = ⟨trail, name, false⟩ := by
  have hslash : decide (Path.EndsOpen (Path.join dir name)) = false :=
    decide_eq_false (Path.not_endsOpen_join dir h)
  rw [follow, exceptBind_eq_ok]
  constructor
  · rintro ⟨_, hcheck, hwalk⟩
    obtain ⟨trail, htrail, hspot⟩ := exceptBind_eq_ok.mp hwalk
    cases hspot
    rw [Path.names_join dir h, List.dropLast_concat] at htrail
    rw [Path.names_join dir h, List.getLast?_concat, hslash]
    exact ⟨hcheck, trail, htrail, rfl⟩
  · rintro ⟨hcheck, trail, htrail, rfl⟩
    refine ⟨(), hcheck, exceptBind_eq_ok.mpr ⟨trail, ?_, ?_⟩⟩
    · rw [Path.names_join dir h, List.dropLast_concat]
      exact htrail
    · rw [Path.names_join dir h, List.getLast?_concat, hslash]
      rfl

/-- The file under a plain name in a directory is the one that stands there. -/
theorem find_join (h : Path.Plain name) (hwalk : disk.walk (Path.names dir) = .ok trail) :
    disk.find (Path.join dir name) = .ok (.file id) ↔
      Path.check (Path.join dir name) = .ok () ∧ name.utf8ByteSize ≤ maxNameSize ∧
        disk.node? ⟨Trail.here trail, name⟩ = some (.file id) := by
  rw [find_eq_file]
  constructor
  · rintro ⟨spot, hfollow, -, -, hunder⟩
    obtain ⟨hcheck, trail', hwalk', rfl⟩ := (follow_join h).mp hfollow
    rw [hwalk] at hwalk'
    cases hwalk'
    exact ⟨hcheck, under?_eq_ok.mp hunder⟩
  · rintro ⟨hcheck, hsize, hnode⟩
    exact ⟨⟨trail, name, false⟩, (follow_join h).mpr ⟨hcheck, trail, hwalk, rfl⟩, h.dots, rfl,
      under?_eq_ok.mpr ⟨hsize, hnode⟩⟩

theorem isFile_eq_true : disk.isFile path = true ↔ ∃ id, disk.find path = .ok (.file id) := by
  rw [isFile]
  cases hfile : disk.findFile path with
  | error cause =>
    constructor
    · intro h
      cases h
    · rintro ⟨id, hfind⟩
      rw [findFile_eq_ok.mpr hfind] at hfile
      cases hfile
  | ok id => exact ⟨fun _ => ⟨id, findFile_eq_ok.mp hfile⟩, fun _ => rfl⟩

theorem list_eq_ok {names : List (String × Node)} : disk.list path = .ok names ↔
    Path.check path = .ok () ∧ ∃ trail, disk.walk (Path.names path) = .ok trail ∧
      names = (disk.children (Trail.here trail)).mergeSort fun a b => a.1 ≤ b.1 := by
  rw [list, exceptBind_eq_ok]
  constructor
  · rintro ⟨_, hcheck, hwalk⟩
    obtain ⟨trail, htrail, hnames⟩ := exceptBind_eq_ok.mp hwalk
    cases hnames
    exact ⟨hcheck, trail, htrail, rfl⟩
  · rintro ⟨hcheck, trail, htrail, rfl⟩
    exact ⟨(), hcheck, exceptBind_eq_ok.mpr ⟨trail, htrail, rfl⟩⟩

theorem children_put (h : place.dir.number < disk.directories.size) :
    (disk.put place node).children place.dir =
      (place.name, node) :: (disk.children place.dir).filter (·.1 ≠ place.name) := by
  rw [put, children_modify, if_pos ⟨rfl, h⟩]

theorem children_clear (h : place.dir.number < disk.directories.size) :
    (disk.clear place).children place.dir =
      (disk.children place.dir).filter (·.1 ≠ place.name) := by
  rw [clear, children_modify, if_pos ⟨rfl, h⟩]

theorem mem_children (h : disk.node? place = some node) :
    (place.name, node) ∈ disk.children place.dir := by
  obtain ⟨front, back, hchildren, -⟩ := List.lookup_eq_some_iff.mp h
  rw [hchildren]
  simp

end Disk

namespace Directory

variable {d : Directory} {disk disk' : Disk} {trail : Trail} {name target : String} {id : FileId}
  {child : String × Node}

def listed (d : Directory) (disk : Disk) (name : String) : Option (SegmentRange × String) :=
  let path := Path.join d.config.dataDir name
  if disk.isFile path then (SegmentRange.parse? name).map (·, path) else none

theorem listed_eq_none : d.listed disk name = none ↔ ∀ range id,
    SegmentRange.parse? name = some range →
      disk.find (Path.join d.config.dataDir name) ≠ .ok (.file id) := by
  unfold listed
  dsimp only
  split
  · next hfile =>
    obtain ⟨id, hfind⟩ := Disk.isFile_eq_true.mp hfile
    rw [Option.map_eq_none_iff]
    constructor
    · intro hnone range _ hparse
      rw [hnone] at hparse
      cases hparse
    · intro h
      rw [Option.eq_none_iff_forall_ne_some]
      exact fun range hparse => h range id hparse hfind
  · next hfile =>
    simp only [true_iff]
    exact fun _ id _ hfind => hfile (Disk.isFile_eq_true.mpr ⟨id, hfind⟩)

/-- A name for which nothing is listed needs a new file to be listed. -/
theorem listed_eq_none_of_node (hwalk : disk.walk (Path.names d.config.dataDir) = .ok trail)
    (hwalk' : disk'.walk (Path.names d.config.dataDir) = .ok trail)
    (hnode : ∀ id, disk'.node? ⟨Trail.here trail, name⟩ = some (.file id) →
      disk.node? ⟨Trail.here trail, name⟩ = some (.file id))
    (h : d.listed disk name = none) : d.listed disk' name = none := by
  rw [listed_eq_none] at h ⊢
  intro range id hparse hfind
  have hplain := SegmentRange.plain_of_parse? hparse
  obtain ⟨hcheck, hsize, hfound⟩ := (Disk.find_join hplain hwalk').mp hfind
  exact h range id hparse ((Disk.find_join hplain hwalk).mpr ⟨hcheck, hsize, hnode id hfound⟩)

theorem segments_of_list {names : List (String × Node)}
    (h : disk.list d.config.dataDir = .ok names) : d.segments disk = .ok
      ((names.filterMap fun child => d.listed disk child.1).mergeSort
        fun a b => a.1.start ≤ b.1.start) := by
  unfold Directory.segments
  rw [h]
  rfl

/-- Whether a file has a name in the directory, and nothing is listed for any other name there. -/
structure Lone (d : Directory) (disk : Disk) (trail : Trail) (name : String) : Prop where
  path : Path.check d.config.dataDir = .ok ()
  walk : disk.walk (Path.names d.config.dataDir) = .ok trail
  children : ∃ node rest, disk.children (Trail.here trail) = (name, node) :: rest ∧
    ∀ child ∈ rest, d.listed disk child.1 = none

/-- The file is listed if its name stands for a range, and nothing else is. -/
theorem Lone.segments (h : d.Lone disk trail name)
    (hfind : disk.find (Path.join d.config.dataDir name) = .ok (.file id)) :
    d.segments disk = .ok
      ((SegmentRange.parse? name).map (·, Path.join d.config.dataDir name)).toList := by
  obtain ⟨_, rest, hchildren, hrest⟩ := h.children
  have hlist := Disk.list_eq_ok.mpr ⟨h.path, trail, h.walk, rfl⟩
  have hlisted : d.listed disk name =
      (SegmentRange.parse? name).map (·, Path.join d.config.dataDir name) :=
    if_pos (Disk.isFile_eq_true.mpr ⟨id, hfind⟩)
  have hfound : (disk.children (Trail.here trail)).filterMap (fun child => d.listed disk child.1) =
      ((SegmentRange.parse? name).map (·, Path.join d.config.dataDir name)).toList := by
    rw [hchildren, List.filterMap_cons, List.filterMap_eq_nil_iff.mpr hrest, hlisted]
    cases SegmentRange.parse? name <;> rfl
  have hperm := (List.mergeSort_perm (disk.children (Trail.here trail))
    fun a b => a.1 ≤ b.1).filterMap fun child => d.listed disk child.1
  rw [hfound] at hperm
  rw [segments_of_list hlist]
  cases hparse : SegmentRange.parse? name with
  | none =>
    rw [hparse] at hperm
    rw [List.perm_nil.mp hperm, List.mergeSort_nil]
    rfl
  | some range =>
    rw [hparse] at hperm
    rw [List.perm_singleton.mp hperm, List.mergeSort_singleton]
    rfl

/-- Nothing is listed for any name in a directory without segment files. -/
theorem listed_of_segments_nil (h : d.segments disk = .ok []) :
    Path.check d.config.dataDir = .ok () ∧
      ∃ trail, disk.walk (Path.names d.config.dataDir) = .ok trail ∧
        ∀ child ∈ disk.children (Trail.here trail), d.listed disk child.1 = none := by
  cases hnames : disk.list d.config.dataDir with
  | error cause =>
    unfold Directory.segments at h
    rw [hnames] at h
    cases h
  | ok names =>
    rw [segments_of_list hnames] at h
    obtain ⟨hpath, trail, hwalk, rfl⟩ := Disk.list_eq_ok.mp hnames
    have hfound := List.perm_nil.mp
      ((List.mergeSort_perm _ _).symm.trans (.of_eq (Except.ok.inj h)))
    refine ⟨hpath, trail, hwalk, fun child hchild => ?_⟩
    exact List.filterMap_eq_nil_iff.mp hfound child (List.mem_mergeSort.mpr hchild)

/-! ## Making and renaming the file -/

theorem Lone.of_directories (h : d.Lone disk trail name)
    (hsame : disk'.directories = disk.directories) : d.Lone disk' trail name := by
  cases disk
  cases disk'
  cases hsame
  exact ⟨h.path, h.walk, h.children⟩

/-- A file is put under a name beside names for which nothing is listed. -/
theorem lone_put {before : Disk} (hpath : Path.check d.config.dataDir = .ok ())
    (hwalk : before.walk (Path.names d.config.dataDir) = .ok trail)
    (hkeeps : Disk.KeepsDirectories before (disk.put ⟨Trail.here trail, name⟩ (.file id)))
    (hdir : (Trail.here trail).number < disk.directories.size)
    (hnode : ∀ place node, disk.node? place = some node → before.node? place = some node)
    (hrest : ∀ child ∈ disk.children (Trail.here trail), d.listed before child.1 = none) :
    d.Lone (disk.put ⟨Trail.here trail, name⟩ (.file id)) trail name := by
  have hwalk' := Disk.foldlM_enter_mono hkeeps hwalk
  refine ⟨hpath, hwalk', _, _, Disk.children_put hdir, fun child hchild => ?_⟩
  obtain ⟨hmem, hname⟩ := List.mem_filter.mp hchild
  have hne : child.1 ≠ name := of_decide_eq_true hname
  refine listed_eq_none_of_node hwalk hwalk' (fun id' hfound => ?_) (hrest child hmem)
  rw [Disk.node?_put hdir, if_neg] at hfound
  · exact hnode _ _ hfound
  · simpa [Disk.place_eq_iff] using hne

/-- A segment file that is opened in a directory without any is made there. -/
theorem lone_of_openOrCreate (hdisk : disk.WellFormed) (hempty : d.segments disk = .ok [])
    {range : SegmentRange} (hparse : SegmentRange.parse? name = some range)
    (hopen : Disk.openOrCreate (Path.join d.config.dataDir name) disk = .ok id disk') :
    disk.Vacant (Path.join d.config.dataDir name) ∧ ∃ trail, d.Lone disk' trail name := by
  obtain ⟨hpath, trail, hwalk, hchildren⟩ := listed_of_segments_nil hempty
  have hplain := SegmentRange.plain_of_parse? hparse
  obtain ⟨spot, hfollow, hopen⟩ := Disk.ask_bind_eq_ok.mp hopen
  obtain ⟨hcheck, trail', hwalk', rfl⟩ := (Disk.follow_join hplain).mp hfollow
  rw [hwalk] at hwalk'
  cases hwalk'
  split at hopen
  · exact absurd hopen throw_ne_ok
  · next hdots =>
    rw [not_or] at hdots
    obtain ⟨found, hunder, hopen⟩ := Disk.ask_bind_eq_ok.mp hopen
    obtain ⟨hsize, hnode⟩ := Disk.under?_eq_ok.mp hunder
    match found with
    | some (.directory _) => exact absurd hopen throw_ne_ok
    | some (.file id') =>
      have hfind := (Disk.find_join hplain hwalk).mpr ⟨hcheck, hsize, hnode⟩
      have hnone := hchildren _ (Disk.mem_children hnode)
      exact absurd hfind (listed_eq_none.mp hnone range id' hparse)
    | none =>
      refine ⟨⟨_, hfollow, hdots.1, rfl, hunder⟩, trail, ?_⟩
      cases hopen
      have hdir := hdisk.follow hfollow
      exact lone_put hpath hwalk (Disk.keepsDirectories_create hdir hnode) hdir
        (fun _ _ hfound => hfound) hchildren

theorem Lone.rename (h : d.Lone disk trail name) (hdisk : disk.WellFormed)
    (hname : Path.Plain name) (htarget : Path.Plain target)
    (hfind : disk.find (Path.join d.config.dataDir name) = .ok (.file id))
    (hrename : Disk.rename (Path.join d.config.dataDir name) (Path.join d.config.dataDir target)
      disk = .ok () disk') : d.Lone disk' trail target := by
  obtain ⟨old, new, hold, hnew, hrenames⟩ := Disk.rename_eq_ok hfind hrename
  have hdir := hdisk.follow hnew
  obtain ⟨-, trail₁, hwalk₁, rfl⟩ := (Disk.follow_join hname).mp hold
  obtain ⟨-, trail₂, hwalk₂, rfl⟩ := (Disk.follow_join htarget).mp hnew
  rw [h.walk] at hwalk₁ hwalk₂
  cases hwalk₁
  cases hwalk₂
  have hkeeps := hrenames.keepsDirectories hdir
  have hdisk' := hrenames.disk
  split at hdisk'
  · next heq =>
    have hsame : name = target := congrArg Place.name heq
    rw [hdisk', ← hsame]
    exact h
  · rw [hdisk'] at hkeeps ⊢
    obtain ⟨_, rest, hchildren, hrest⟩ := h.children
    refine lone_put h.path h.walk hkeeps ?_ (fun _ _ => Disk.node?_of_clear) fun child hchild => ?_
    · rw [Disk.size_directories_clear]
      exact hdir
    · have hcleared : (disk.clear ⟨Trail.here trail, name⟩).children (Trail.here trail) =
          (disk.children (Trail.here trail)).filter (·.1 ≠ name) := Disk.children_clear hdir
      change child ∈ (disk.clear ⟨Trail.here trail, name⟩).children (Trail.here trail) at hchild
      rw [hcleared, hchildren, List.filter_cons_of_neg (by simp)] at hchild
      exact hrest child (List.mem_filter.mp hchild).1

end Directory

end SegmentedLog
