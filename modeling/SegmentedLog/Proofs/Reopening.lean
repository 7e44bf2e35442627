import SegmentedLog.Proofs.Lookup
import SegmentedLog.Proofs.Restart

/-! # Reopening a directory

A directory holds complete segment files whose ranges lie apart, among whatever else is no segment
file. In whichever order its names come, the files are listed by ascending start; so each ends
before the next one starts. A reconstruction leaves the disk as it is, for there is nothing to cut
off, and so all files are taken in one after the other. What comes back lies in order, and the
search finds every index that is in a file.
-/

namespace SegmentedLog

open Stepwise

namespace SegmentRange

variable {range range' : SegmentRange}

/-- Whether one of two ranges ends before the other starts. An open range does not end. -/
def Apart (range range' : SegmentRange) : Prop :=
  range.EndsBefore range'.start ∨ range'.EndsBefore range.start

instance (range range' : SegmentRange) : Decidable (range.Apart range') :=
  inferInstanceAs (Decidable (_ ∨ _))

theorem Apart.symm (h : range.Apart range') : range'.Apart range := Or.symm h

theorem EndsBefore.start_lt {index : UInt64} (h : range.EndsBefore index) (hproper : range.Proper) :
    range.start < index :=
  UInt64.lt_of_le_of_lt (hproper h.1).1 h.2

theorem Apart.start_ne (h : range.Apart range') (hproper : range.Proper)
    (hproper' : range'.Proper) : range.start ≠ range'.start := by
  rcases h with hbefore | hbefore
  · exact UInt64.ne_of_lt (hbefore.start_lt hproper)
  · exact (UInt64.ne_of_lt (hbefore.start_lt hproper')).symm

theorem Apart.endsBefore (h : range.Apart range') (hproper' : range'.Proper)
    (hstart : range.start < range'.start) : range.EndsBefore range'.start := by
  rcases h with hbefore | hbefore
  · exact hbefore
  · exact absurd hstart (UInt64.lt_asymm (hbefore.start_lt hproper'))

end SegmentRange

namespace Segment

variable {seg : Segment} {base : Nat} {entries : List LogEntry}

/-- Under the index of an entry stands a record with its header. -/
theorem Spans.record?_of_mem (h : seg.Spans base entries) {e : LogEntry} (he : e ∈ entries) :
    ∃ r, seg.record? e.index = some r ∧ r.header = .of e := by
  have hmem : e.index ∈ seg.records.map (·.index) := by
    rw [h.records, LogRecord.map_index_layout]
    exact List.mem_map_of_mem he
  obtain ⟨r, hr, hindex⟩ := List.mem_map.mp hmem
  obtain ⟨r', hfound⟩ : ∃ r', seg.records.find? (·.index = e.index) = some r' :=
    Option.ne_none_iff_exists'.mp fun hnone =>
      List.find?_eq_none.mp hnone r hr (decide_eq_true hindex)
  have hindex' : r'.index = e.index := by simpa using List.find?_some hfound
  have hheader : r'.header ∈ entries.map EntryHeader.of := by
    rw [← LogRecord.map_header_layout (fun header => header) base, ← h.records]
    exact List.mem_map_of_mem (List.mem_of_find?_eq_some hfound)
  obtain ⟨e', he', hof⟩ := List.mem_map.mp hheader
  have hsame : e'.index = e.index := by
    rw [← hindex', LogRecord.index, ← hof]
    rfl
  rw [List.inj_on_of_nodup_map h.consecutive.nodup he' he hsame] at hof
  exact ⟨r', hfound, hof.symm⟩

end Segment

/-! ## Complete segment files -/

structure LogFile where
  range : SegmentRange
  entries : List LogEntry
deriving DecidableEq, Repr

namespace LogFile

/-- Whether a file has all entries of its range, or some from its start on while it is open, each
small enough to be read. -/
structure Complete (file : LogFile) (limit : Nat) : Prop where
  nonempty : file.entries ≠ []
  consecutive : Consecutive file.range.start.toNat (file.entries.map (·.index))
  closed : file.range.isOpen = false →
    file.range.last.toNat + 1 = file.range.start.toNat + file.entries.length
  opening : file.range.isOpen = true → file.range = .opening file.range.start
  bound : ∀ e ∈ file.entries, e.index.toNat + 1 < UInt64.size
  limit : ∀ e ∈ file.entries, e.stripped.encodedSize ≤ limit
  fits : (fileImage file.entries).length < Disk.lengthLimit

structure Backs (file : LogFile) (seg : Segment) : Prop where
  spans : seg.Spans headerSize (file.entries.map (·.stripped))
  start : seg.start = file.range.start

variable {file file' : LogFile} {seg seg' : Segment} {limit : Nat} {index : UInt64}

theorem Complete.proper (h : file.Complete limit) : file.range.Proper := by
  intro hclosed
  have hlast := h.closed hclosed
  have hpos : 0 < file.entries.length := List.length_pos_iff.mpr h.nonempty
  have hk : file.entries.length - 1 < file.entries.length := by omega
  have hindex := h.consecutive.toNat_getElem (k := file.entries.length - 1) (by simpa using hk)
  rw [List.getElem_map] at hindex
  have hbound := h.bound _ (List.getElem_mem hk)
  refine ⟨UInt64.le_iff_toNat_le.mpr (by omega), ?_⟩
  omega

theorem Complete.admitted (h : file.Complete limit) :
    file.range.admitted file.entries.length = file.entries.length := by
  unfold SegmentRange.admitted
  split
  · rfl
  · next hopen =>
    rw [h.closed (Bool.eq_false_of_not_eq_true hopen), Nat.add_sub_cancel_left, Nat.min_self]

theorem Complete.parse?_name (h : file.Complete limit) :
    SegmentRange.parse? file.range.name = some file.range := by
  rw [SegmentRange.parse?_name]
  split
  · next hopen => rw [← h.opening hopen]
  · next hopen =>
    have hclosed := Bool.eq_false_of_not_eq_true hopen
    rw [if_pos (h.proper hclosed).1, SegmentRange.closed, ← hclosed]

/-- A complete file is taken in whole and stays as it is, under either policy. -/
theorem Complete.loadSegment {context : SegmentContext} (h : file.Complete context.maxEntrySize)
    {host : Host} {path : String} (hread : host.disk.read path = .ok (fileImage file.entries))
    (keep : Bool) : ∃ seg after,
      Host.loadSegment context path file.range keep host = .ok (some seg) after ∧
        file.Backs seg ∧ after.disk = host.disk := by
  obtain ⟨id, hfile, hcontent⟩ := Disk.hasFile_of_read hread (by simp [fileImage, magic])
  obtain ⟨-, seg, after, hload, hrestores⟩ := Host.loadSegment_of_content (z := 0) file.range host
    keep hfile (by simp [hcontent]) h.nonempty h.proper h.consecutive h.bound h.limit h.fits
  rw [h.admitted, List.take_length] at hrestores
  refine ⟨seg, after, hload, ⟨hrestores.holds.spans (by simpa using h.nonempty), hrestores.start⟩,
    ?_⟩
  rw [hrestores.disk, ← hcontent, Disk.setContent_content]

theorem Backs.contains_iff (h : file.Backs seg) :
    seg.Contains index ↔ index ∈ file.entries.map (·.index) := by
  rw [h.spans.contains_iff, List.map_map]
  rfl

theorem Backs.start_le_next (h : file.Backs seg) : seg.start ≤ seg.next := by
  have hnext := h.spans.next
  exact UInt64.le_iff_toNat_le.mpr (by omega)

/-- The segment of a file that ends before another starts does so too. -/
theorem Backs.next_le_start (h : file.Backs seg) (h' : file'.Backs seg')
    (hcomplete : file.Complete limit) (hbefore : file.range.EndsBefore file'.range.start) :
    seg.next ≤ seg'.start := by
  have hlast := hcomplete.closed hbefore.1
  have hlt := UInt64.lt_iff_toNat_lt.mp hbefore.2
  rw [UInt64.le_iff_toNat_le, h.spans.next, h'.start, h.start, List.length_map]
  omega

section Lookup

variable {files : List LogFile} {segs : List Segment} (hbacks : List.Forall₂ Backs files segs)

include hbacks

theorem exists_backs_of_getElem? {k : Nat} (hfile : files[k]? = some file) :
    ∃ seg, segs[k]? = some seg ∧ file.Backs seg := by
  obtain ⟨hlength, hget⟩ := List.forall₂_iff_get.mp hbacks
  obtain ⟨hk, rfl⟩ := List.getElem?_eq_some_iff.mp hfile
  exact ⟨_, List.getElem?_eq_getElem (hlength ▸ hk), hget k hk (hlength ▸ hk)⟩

theorem exists_backs_of_mem (hseg : seg ∈ segs) : ∃ file ∈ files, file.Backs seg := by
  obtain ⟨hlength, hget⟩ := List.forall₂_iff_get.mp hbacks
  obtain ⟨k, hk, rfl⟩ := List.mem_iff_getElem.mp hseg
  exact ⟨_, List.getElem_mem (hlength ▸ hk), hget k (hlength ▸ hk) hk⟩

/-- Files that end before those behind them start give segments in order. -/
theorem inOrder_of_backs (hcomplete : ∀ file ∈ files, file.Complete limit)
    (hends : files.Pairwise fun file file' => file.range.EndsBefore file'.range.start) :
    InOrder segs.toArray := by
  constructor
  · intro seg hseg
    obtain ⟨file, -, hback⟩ := exists_backs_of_mem hbacks (List.mem_toArray.mp hseg)
    exact hback.start_le_next
  · obtain ⟨hlength, hget⟩ := List.forall₂_iff_get.mp hbacks
    refine List.pairwise_iff_getElem.mpr fun p q hp hq hlt => ?_
    have hp' : p < files.length := hlength ▸ hp
    have hq' : q < files.length := hlength ▸ hq
    exact (hget p hp' hp).next_le_start (hget q hq' hq) (hcomplete _ (List.getElem_mem hp'))
      (List.pairwise_iff_getElem.mp hends p q hp' hq' hlt)

/-- The search finds the segment of the file that has an entry, and in it the record of this. -/
theorem findSegment?_of_mem (hin : InOrder segs.toArray) {k : Nat} {e : LogEntry}
    (hfile : files[k]? = some file) (he : e ∈ file.entries) :
    findSegment? segs.toArray e.index = some k ∧
      ∃ seg r, segs[k]? = some seg ∧ seg.record? e.index = some r ∧ r.header = .of e.stripped := by
  obtain ⟨seg, hseg, hback⟩ := exists_backs_of_getElem? hbacks hfile
  have hcontains := hback.contains_iff.mpr (List.mem_map_of_mem he)
  obtain ⟨r, hrecord, hheader⟩ := hback.spans.record?_of_mem (List.mem_map_of_mem he)
  exact ⟨hin.findSegment?_of_contains ((List.getElem?_toArray ..).trans hseg) hcontains,
    seg, r, hseg, hrecord, hheader⟩

theorem findSegment?_of_not_mem (hnone : ∀ file ∈ files, ∀ e ∈ file.entries, e.index ≠ index) :
    findSegment? segs.toArray index = none := by
  refine findSegment?_eq_none fun seg hseg hcontains => ?_
  obtain ⟨file, hfile, hback⟩ := exists_backs_of_mem hbacks (List.mem_toArray.mp hseg)
  obtain ⟨e, he, hindex⟩ := List.mem_map.mp (hback.contains_iff.mp hcontains)
  exact hnone file hfile e he hindex

end Lookup

/-- Complete files are reconstructed one after the other, each from what it holds. -/
theorem mapM_loadSegment {context : SegmentContext} {files : List LogFile}
    (hcomplete : ∀ file ∈ files, file.Complete context.maxEntrySize) {host : Host}
    (hread : ∀ file ∈ files,
      host.disk.read (context.file file.range) = .ok (fileImage file.entries)) (keep : Bool) :
    ∃ segs after, (files.map fun file => (file.range, context.file file.range)).mapM
        (fun found => Host.loadSegment context found.2 found.1 keep) host =
          .ok (segs.map some) after ∧
      List.Forall₂ Backs files segs := by
  induction files generalizing host with
  | nil => exact ⟨[], host, rfl, .nil⟩
  | cons file files ih =>
    rw [List.forall_mem_cons] at hcomplete hread
    obtain ⟨seg, next, hload, hback, hdisk⟩ := hcomplete.1.loadSegment hread.1 keep
    obtain ⟨segs, after, hrest, hbacks⟩ := ih hcomplete.2 (hdisk ▸ hread.2)
    refine ⟨seg :: segs, after, ?_, .cons hback hbacks⟩
    rw [List.map_cons, List.mapM_cons, bind_of_ok hload, bind_of_ok hrest]
    rfl

end LogFile

/-! ## Listing -/

theorem pairwise_mergeSort_index {α : Type} (f : α → UInt64) (xs : List α) :
    (xs.mergeSort fun a b => f a ≤ f b).Pairwise fun a b => f a ≤ f b := by
  have hsorted := @List.pairwise_mergeSort α (fun a b => decide (f a ≤ f b))
    (fun a b c hab hbc => decide_eq_true
      (UInt64.le_trans (of_decide_eq_true hab) (of_decide_eq_true hbc)))
    (fun a b => by simpa using UInt64.le_total (f a) (f b)) xs
  exact hsorted.imp of_decide_eq_true

namespace Directory

variable {d : Directory} {disk : Disk} {names order : List (String × Node)}
  {files sorted : List LogFile} {file : LogFile}

/-- The segment files among some names in the directory, with their paths, by ascending start. -/
def arranged (d : Directory) (disk : Disk) (names : List (String × Node)) :
    List (SegmentRange × String) :=
  (names.filterMap fun child => d.listed disk child.1).mergeSort fun a b => a.1.start ≤ b.1.start

def located (d : Directory) (file : LogFile) : SegmentRange × String :=
  (file.range, d.context.file file.range)

/-- Whether a directory has some names, each once, and among them those of complete segment files,
given in any order, whose ranges lie apart; any other name means no file or stands for no range. -/
structure Stocked (d : Directory) (disk : Disk) (names : List (String × Node))
    (files : List LogFile) : Prop where
  list : disk.list d.config.dataDir = .ok names
  unique : (names.map Prod.fst).Nodup
  complete : ∀ file ∈ files, file.Complete d.config.maxEntrySize
  apart : files.Pairwise fun file file' => file.range.Apart file'.range
  read : ∀ file ∈ files,
    disk.read (d.context.file file.range) = .ok (fileImage file.entries)
  others : ∀ child ∈ names, (∀ file ∈ files, child.1 ≠ file.range.name) →
    disk.isFile (Path.join d.config.dataDir child.1) = false ∨
      SegmentRange.parse? child.1 = none

theorem Stocked.listed_name (h : d.Stocked disk names files) (hfile : file ∈ files) :
    d.listed disk file.range.name = some (d.located file) := by
  have hcomplete := h.complete file hfile
  obtain ⟨id, hfind, -⟩ := Disk.read_eq_ok.mp (h.read file hfile)
  unfold listed
  dsimp only
  rw [hcomplete.parse?_name]
  exact if_pos (Disk.isFile_eq_true.mpr ⟨id, hfind⟩)

/-- A name that is not that of a segment file is passed over. -/
theorem Stocked.listed_other (h : d.Stocked disk names files) {child : String × Node}
    (hchild : child ∈ names) (hother : ∀ file ∈ files, child.1 ≠ file.range.name) :
    d.listed disk child.1 = none := by
  unfold listed
  dsimp only
  rcases h.others child hchild hother with hfile | hparse
  · rw [hfile]
    rfl
  · rw [hparse]
    split <;> rfl

/-- The name of a segment file is among the names of the directory. -/
theorem Stocked.mem_names (h : d.Stocked disk names files) (hfile : file ∈ files) :
    ∃ child ∈ names, child.1 = file.range.name := by
  obtain ⟨id, hfind, -⟩ := Disk.read_eq_ok.mp (h.read file hfile)
  obtain ⟨-, trail, hwalk, rfl⟩ := Disk.list_eq_ok.mp h.list
  obtain ⟨-, -, hnode⟩ := (Disk.find_join (SegmentRange.plain_name file.range) hwalk).mp hfind
  exact ⟨_, List.mem_mergeSort.mpr (Disk.mem_children hnode), rfl⟩

theorem Stocked.mem_listed_iff (h : d.Stocked disk names files) {found : SegmentRange × String} :
    found ∈ names.filterMap (fun child => d.listed disk child.1) ↔
      found ∈ files.map d.located := by
  rw [List.mem_filterMap, List.mem_map]
  constructor
  · rintro ⟨child, hchild, hlisted⟩
    by_cases hname : ∃ file ∈ files, child.1 = file.range.name
    · obtain ⟨file, hfile, hname⟩ := hname
      rw [hname, h.listed_name hfile] at hlisted
      exact ⟨file, hfile, Option.some.inj hlisted⟩
    · rw [h.listed_other hchild fun file hfile heq => hname ⟨file, hfile, heq⟩] at hlisted
      cases hlisted
  · rintro ⟨file, hfile, rfl⟩
    obtain ⟨child, hchild, hname⟩ := h.mem_names hfile
    exact ⟨child, hchild, hname ▸ h.listed_name hfile⟩

theorem nodup_listed (hunique : (names.map Prod.fst).Nodup) :
    (names.filterMap fun child => d.listed disk child.1).Nodup := by
  have hmap : (names.filterMap fun child => d.listed disk child.1) =
      (names.map Prod.fst).filterMap (d.listed disk) := by
    rw [List.filterMap_map]
    rfl
  rw [hmap]
  refine hunique.filterMap fun name name' found hfound hfound' => ?_
  have hpath {name : String} (hfound : found ∈ d.listed disk name) :
      found.2 = Path.join d.config.dataDir name := by
    unfold listed at hfound
    dsimp only at hfound
    split at hfound
    · obtain ⟨range, -, rfl⟩ := Option.map_eq_some_iff.mp hfound
      rfl
    · cases hfound
  exact Path.join_inj.mp ((hpath hfound).symm.trans (hpath hfound'))

theorem Stocked.pairwise_start_ne (h : d.Stocked disk names files) :
    files.Pairwise fun file file' => file.range.start ≠ file'.range.start :=
  h.apart.imp_of_mem fun hfile hfile' hapart =>
    hapart.start_ne (h.complete _ hfile).proper (h.complete _ hfile').proper

/-- Each segment file is listed once, and nothing else is. -/
theorem Stocked.listed_perm (h : d.Stocked disk names files) :
    (names.filterMap fun child => d.listed disk child.1).Perm (files.map d.located) := by
  have hnodup : (files.map d.located).Nodup := by
    rw [List.nodup_iff_pairwise_ne, List.pairwise_map]
    exact h.pairwise_start_ne.imp fun hne heq => hne (congrArg (·.1.start) heq)
  exact (List.perm_ext_iff_of_nodup (nodup_listed h.unique) hnodup).mpr fun _ => h.mem_listed_iff

theorem Stocked.exists_sorted (h : d.Stocked disk names files) :
    ∃ sorted : List LogFile, sorted.Perm files ∧
      sorted.Pairwise fun file file' => file.range.EndsBefore file'.range.start := by
  have hperm := List.mergeSort_perm files fun file file' => file.range.start ≤ file'.range.start
  refine ⟨_, hperm, ?_⟩
  have hapart := (hperm.pairwise_iff SegmentRange.Apart.symm).mpr h.apart
  refine ((pairwise_mergeSort_index (·.range.start) files).and hapart).imp_of_mem ?_
  rintro file file' hfile hfile' ⟨hle, hapart⟩
  have hproper := (h.complete file (hperm.mem_iff.mp hfile)).proper
  have hproper' := (h.complete file' (hperm.mem_iff.mp hfile')).proper
  exact hapart.endsBefore hproper' (UInt64.lt_of_le_of_ne hle (hapart.start_ne hproper hproper'))

/-- The order of the names does not matter for what is listed. -/
theorem Stocked.arranged_eq (h : d.Stocked disk names files) (horder : order.Perm names)
    (hperm : sorted.Perm files)
    (hsorted : sorted.Pairwise fun file file' => file.range.start < file'.range.start) :
    d.arranged disk order = sorted.map d.located := by
  have hlisted : (d.arranged disk order).Perm (sorted.map d.located) :=
    (List.mergeSort_perm _ _).trans ((horder.filterMap _).trans
      (h.listed_perm.trans (hperm.map d.located).symm))
  have hstarts : (sorted.map (·.range.start)).Nodup := by
    rw [List.nodup_iff_pairwise_ne, List.pairwise_map]
    exact hsorted.imp UInt64.ne_of_lt
  refine List.Perm.eq_of_pairwise (fun a b ha hb hab hba => ?_)
    (pairwise_mergeSort_index (fun found : SegmentRange × String => found.1.start) _)
    (List.pairwise_map.mpr (hsorted.imp UInt64.le_of_lt)) hlisted
  obtain ⟨file, hfile, rfl⟩ := List.mem_map.mp (hlisted.mem_iff.mp ha)
  obtain ⟨file', hfile', rfl⟩ := List.mem_map.mp hb
  rw [List.inj_on_of_nodup_map hstarts hfile hfile' (UInt64.le_antisymm hab hba)]

/-- Whatever the policy, a directory of complete segment files is listed in ascending order, in
whichever order its names come, and gives one segment for each file; and then the search finds for
each index the segment of the file that has it, with a record of the entry, and none if no file has
it. -/
theorem reopen_finds {host : Host} (h : d.Stocked host.disk names files)
    (policy : CorruptionPolicy) (keep : Bool) :
    ∃ sorted : List LogFile, sorted.Perm files ∧
      (sorted.Pairwise fun file file' => file.range.start < file'.range.start) ∧
      (∀ order : List (String × Node), order.Perm names →
        (d.under policy).arranged host.disk order = sorted.map d.located) ∧
      (d.under policy).segments host.disk = .ok (sorted.map d.located) ∧
      ∃ (segs : List Segment) (after : Host),
        (sorted.map d.located).mapM (fun found =>
          Host.loadSegment (d.under policy).context found.2 found.1 keep) host =
            .ok (segs.map some) after ∧
        ∀ index : UInt64,
          (∀ (k : Nat) (file : LogFile) (e : LogEntry), sorted[k]? = some file →
            e ∈ file.entries → e.index = index →
              findSegment? segs.toArray index = some k ∧
              ∃ seg r, segs[k]? = some seg ∧ seg.record? index = some r ∧
                r.header = .of e.stripped) ∧
          ((∀ file ∈ files, ∀ e ∈ file.entries, e.index ≠ index) →
            findSegment? segs.toArray index = none) := by
  obtain ⟨sorted, hperm, hends⟩ := h.exists_sorted
  have hcomplete : ∀ file ∈ sorted, file.Complete d.config.maxEntrySize := fun file hfile =>
    h.complete file (hperm.mem_iff.mp hfile)
  have hsorted : sorted.Pairwise fun file file' => file.range.start < file'.range.start :=
    hends.imp_of_mem fun hfile _ hbefore => hbefore.start_lt (hcomplete _ hfile).proper
  have harranged : ∀ order : List (String × Node), order.Perm names →
      d.arranged host.disk order = sorted.map d.located := fun order horder =>
    h.arranged_eq horder hperm hsorted
  have hlist : host.disk.list (d.under policy).config.dataDir = .ok names := h.list
  have hsegments := (segments_of_list hlist).trans (congrArg _ (harranged names (.refl _)))
  have hcomplete' : ∀ file ∈ sorted, file.Complete (d.under policy).context.maxEntrySize :=
    hcomplete
  obtain ⟨segs, after, hload, hbacks⟩ := LogFile.mapM_loadSegment hcomplete'
    (fun file hfile => h.read file (hperm.mem_iff.mp hfile)) keep
  have hin := LogFile.inOrder_of_backs hbacks hcomplete hends
  refine ⟨sorted, hperm, hsorted, harranged, hsegments, segs, after, hload, fun index => ⟨?_, ?_⟩⟩
  · rintro k file e hfile he rfl
    exact LogFile.findSegment?_of_mem hbacks hin hfile he
  · intro hnone
    exact LogFile.findSegment?_of_not_mem hbacks fun file hfile =>
      hnone file (hperm.mem_iff.mp hfile)

def shelf : Host :=
  { disk :=
      { directories :=
          #[[("log_inprogress_7", .file ⟨1⟩), ("notes", .file ⟨2⟩), ("log_5-6", .file ⟨0⟩)]]
        contents := #[fileImage [.sample 5, .sample 6], fileImage [.sample 7], [1]] } }

def shelved : List LogFile :=
  [⟨.opening 7, [.sample 7]⟩, ⟨.closed 5 6, [.sample 5, .sample 6]⟩]

theorem stocked_shelf : ∃ names, Journal.sampleDirectory.Stocked shelf.disk names shelved := by
  have hlist : shelf.disk.list Journal.sampleDirectory.config.dataDir = .ok _ :=
    Disk.list_eq_ok.mpr ⟨rfl, [], rfl, rfl⟩
  have hperm := List.mergeSort_perm (shelf.disk.children (Trail.here [])) fun a b => a.1 ≤ b.1
  refine ⟨_, hlist, ?_, ?_, by decide, ?_, ?_⟩
  · rw [(hperm.map Prod.fst).nodup_iff]
    decide
  · intro file hfile
    obtain rfl | rfl : file = _ ∨ file = _ := by simpa [shelved] using hfile
    · exact ⟨by decide, by decide, by decide, by decide, by decide, by decide,
        by rw [length_fileImage]; decide⟩
    · exact ⟨by decide, by decide, by decide, by decide, by decide, by decide,
        by rw [length_fileImage]; decide⟩
  · intro file hfile
    obtain rfl | rfl : file = _ ∨ file = _ := by simpa [shelved] using hfile
    · exact Disk.read_eq_ok.mpr ⟨⟨1⟩, rfl, rfl⟩
    · exact Disk.read_eq_ok.mpr ⟨⟨0⟩, rfl, rfl⟩
  · intro child hchild hother
    have hnames : child ∈ [("log_inprogress_7", Node.file ⟨1⟩), ("notes", .file ⟨2⟩),
        ("log_5-6", .file ⟨0⟩)] := List.mem_mergeSort.mp hchild
    simp only [List.mem_cons, List.not_mem_nil, or_false] at hnames
    obtain rfl | rfl | rfl := hnames
    · exact absurd rfl (hother ⟨.opening 7, [.sample 7]⟩ (by simp [shelved]))
    · exact .inr rfl
    · exact absurd rfl (hother ⟨.closed 5 6, [.sample 5, .sample 6]⟩ (by simp [shelved]))

theorem shelf_reopened : ∃ (names : List (String × Node)) (sorted : List LogFile)
    (segs : List Segment) (after : Host),
    Journal.sampleDirectory.Stocked shelf.disk names shelved ∧
    (sorted.map Journal.sampleDirectory.located).mapM (fun found =>
      Host.loadSegment (Journal.sampleDirectory.under .tolerant).context found.2 found.1 false)
        shelf = .ok (segs.map some) after ∧
    (∃ k file, sorted[k]? = some file ∧ file.range = .closed 5 6 ∧
      findSegment? segs.toArray 6 = some k) ∧
    findSegment? segs.toArray 8 = none := by
  obtain ⟨names, hstocked⟩ := stocked_shelf
  obtain ⟨sorted, hperm, -, -, -, segs, after, hload, hfinds⟩ :=
    reopen_finds hstocked .tolerant false
  refine ⟨names, sorted, segs, after, hstocked, hload, ?_, (hfinds 8).2 (by decide)⟩
  have hmem : (⟨.closed 5 6, [.sample 5, .sample 6]⟩ : LogFile) ∈ sorted :=
    hperm.mem_iff.mpr (by simp [shelved])
  obtain ⟨k, hk⟩ := List.mem_iff_getElem?.mp hmem
  exact ⟨k, _, hk, rfl, ((hfinds 6).1 k _ (.sample 6) hk (by simp) rfl).1⟩

end Directory

end SegmentedLog
