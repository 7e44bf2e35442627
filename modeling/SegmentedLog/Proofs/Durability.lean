import SegmentedLog.Proofs.EntryCodec
import SegmentedLog.Proofs.Taking
import SegmentedLog.Proofs.Writing

/-! # What of the entries written is in the file

At every moment the file of a writer ends with a whole frame: those of the first entries are in the
file, and those of the others in the buffer, which never grows past its capacity. Flushing empties
the buffer. Only what was forced to the disk is sure to outlast a crash, and the policy bounds how
many entries may be missing from it.
-/

namespace SegmentedLog

open Stepwise

/-- After a write fewer entries than this were written since the bytes were forced to the disk. -/
def SyncPolicy.window : SyncPolicy → Nat
  | everyWrite => 1
  | everyEntries count => max count 1

namespace Writer

variable {start disk opened : Disk} {id : FileId} {base image bytes : Bytes} {x : Writer × Disk}
  {entries : List LogEntry} {path : String} {sync : SyncPolicy} {w : Writer} {n : Nat}

/-! ## What a writer counts -/

/-- What a writer counts by, and what it has counted: the entries not yet forced to the disk, the
bytes that were forced to it, and the bytes of the file with all that was written. -/
def ledger (w : Writer) : SyncPolicy × Nat × Nat × Nat := (w.sync, w.unsynced, w.forced, w.position)

theorem ledger_flush (x : Writer × Disk) : (flush x).2.1.ledger = x.1.ledger := by
  rw [flush_eq]
  split <;> rfl

theorem ledger_withRoom (bytes : Bytes) (x : Writer × Disk) :
    (withRoom bytes x).1.ledger = x.1.ledger := by
  unfold withRoom
  split
  · exact ledger_flush x
  · rfl

theorem ledger_append (bytes : Bytes) (x : Writer × Disk) :
    (append bytes x).2.1.ledger = x.1.ledger := by
  rw [append_eq]
  split <;> exact ledger_withRoom bytes x

theorem ledger_force (x : Writer × Disk) : (force x).2.1.ledger =
    (x.1.sync, 0, (flush x).2.1.offset, x.1.position) := by
  obtain ⟨hsync, -, -, hposition⟩ : _ ∧ _ ∧ _ ∧ _ := by simpa [ledger] using ledger_flush x
  rw [force_eq, ledger, hsync, hposition]

theorem ledger_counted (e : LogEntry) (x : Writer × Disk) : (counted e x).1.ledger =
    (x.1.sync, x.1.unsynced + 1, x.1.forced, x.1.position + (Frame.ofEntry e).length) := by
  obtain ⟨hsync, hunsynced, hforced, hposition⟩ : _ ∧ _ ∧ _ ∧ _ := by
    simpa [ledger] using ledger_append (Frame.ofEntry e) x
  rw [counted, ledger, hsync, hunsynced, hforced, hposition]

/-- The bytes are forced to the disk as soon as that is due with the entry that is written. -/
theorem write_eq_of_count (e : LogEntry) (x : Writer × Disk) : (write e x).2 =
    if SyncDue x.1.sync (x.1.unsynced + 1) then (force (counted e x)).2 else counted e x := by
  obtain ⟨hsync, hunsynced, -, -⟩ : _ ∧ _ ∧ _ ∧ _ := by simpa [ledger] using ledger_counted e x
  rw [write_eq, hsync, hunsynced]

theorem result_write (e : LogEntry) (x : Writer × Disk) :
    (write e x).1 = (Frame.ofEntry e).length := by
  change ((ite (SyncDue (counted e x).1.sync (counted e x).1.unsynced) _ _ : Step Nat)
    (counted e x)).1 = _
  by_cases hdue : SyncDue (counted e x).1.sync (counted e x).1.unsynced
  · rw [if_pos hdue]
    rfl
  · rw [if_neg hdue]
    rfl

theorem sync_write (e : LogEntry) (x : Writer × Disk) : (write e x).2.1.sync = x.1.sync := by
  have hcounted := congrArg (·.1) (ledger_counted e x)
  rw [write_eq_of_count]
  split
  · exact (congrArg (·.1) (ledger_force (counted e x))).trans hcounted
  · exact hcounted

theorem unsynced_write (e : LogEntry) (x : Writer × Disk) : (write e x).2.1.unsynced =
    if SyncDue x.1.sync (x.1.unsynced + 1) then 0 else x.1.unsynced + 1 := by
  rw [write_eq_of_count]
  split
  · rfl
  · exact congrArg (·.2.1) (ledger_counted e x)

/-! ## Whole frames -/

/-- Whether the bytes up to the writer's offset are `base` and the frames of the first of some
entries, the buffer holds the others and has not grown past its capacity, and the position is where
the frames end. -/
structure Parts (start : Disk) (id : FileId) (base : Bytes) (entries : List LogEntry)
    (x : Writer × Disk) : Prop where
  carries : Carries start id (base ++ entries.flatMap Frame.ofEntry) x
  room : x.1.buffered.length ≤ capacity
  boundary : ∃ k ≤ entries.length,
    x.1.offset = (base ++ (entries.take k).flatMap Frame.ofEntry).length
  position : x.1.position = (base ++ entries.flatMap Frame.ofEntry).length

/-- With an empty buffer the writer is at the end of what it was given. -/
theorem Carries.offset_of_empty (h : Carries start id image x) (hempty : x.1.buffered = []) :
    x.1.offset = image.length := by
  rw [h.buffered, List.drop_eq_nil_iff] at hempty
  exact le_antisymm h.offset hempty

theorem Parts.of_empty (h : Carries start id (base ++ entries.flatMap Frame.ofEntry) x)
    (hempty : x.1.buffered = [])
    (hposition : x.1.position = (base ++ entries.flatMap Frame.ofEntry).length) :
    Parts start id base entries x := by
  refine ⟨h, by simp [hempty], ⟨entries.length, le_rfl, ?_⟩, hposition⟩
  rw [h.offset_of_empty hempty, List.take_length]

theorem Parts.flush (h : Parts start id base entries x) : Parts start id base entries (flush x).2 :=
  .of_empty h.carries.flush.1 h.carries.flush.2 ((position_flush x).trans h.position)

theorem Parts.force (h : Parts start id base entries x) : Parts start id base entries (force x).2 :=
  .of_empty h.carries.force h.carries.flush.2 ((position_flush x).trans h.position)

theorem Parts.withRoom (h : Parts start id base entries x) (bytes : Bytes) :
    Parts start id base entries (withRoom bytes x) := by
  unfold Writer.withRoom
  split
  · exact h.flush
  · exact h

/-- There is room for bytes that are not larger than the buffer. -/
theorem length_withRoom (h : Carries start id image x) {bytes : Bytes}
    (hbytes : bytes.length ≤ capacity) :
    (withRoom bytes x).1.buffered.length + bytes.length ≤ capacity := by
  unfold withRoom
  split
  · rw [h.flush.2, List.length_nil]
    omega
  · omega

theorem flatMap_concat (entries : List LogEntry) (e : LogEntry) :
    (entries ++ [e]).flatMap Frame.ofEntry = entries.flatMap Frame.ofEntry ++ Frame.ofEntry e := by
  rw [List.flatMap_append, List.flatMap_singleton]

/-- A frame goes to the buffer as a whole, or to the file once the buffer is empty. -/
theorem Parts.counted (h : Parts start id base entries x) (e : LogEntry) :
    Parts start id base (entries ++ [e]) (counted e x) := by
  have hcarries := h.carries.counted e
  rw [List.append_assoc, ← flatMap_concat] at hcarries
  have hposition : (Writer.counted e x).1.position =
      (base ++ (entries ++ [e]).flatMap Frame.ofEntry).length := by
    have hledger := congrArg (·.2.2.2) (ledger_counted e x)
    rw [flatMap_concat, ← List.append_assoc, List.length_append, ← h.position]
    exact hledger
  by_cases hlarge : capacity ≤ (Frame.ofEntry e).length
  · refine .of_empty hcarries ?_ hposition
    change (Writer.append (Frame.ofEntry e) x).2.1.buffered = []
    rw [append_eq, if_pos hlarge]
    exact (h.carries.withRoom _).2 hlarge
  · obtain ⟨k, hk, hoffset⟩ := (h.withRoom (Frame.ofEntry e)).boundary
    have hroom := length_withRoom h.carries (le_of_not_ge hlarge)
    refine ⟨hcarries, ?_, ⟨k, ?_, ?_⟩, hposition⟩
    · change (Writer.append (Frame.ofEntry e) x).2.1.buffered.length ≤ capacity
      rw [append_eq, if_neg hlarge, List.length_append]
      exact hroom
    · rw [List.length_append]
      omega
    · change (Writer.append (Frame.ofEntry e) x).2.1.offset = _
      rw [append_eq, if_neg hlarge, List.take_append_of_le_length hk]
      exact hoffset

theorem Parts.write (h : Parts start id base entries x) (e : LogEntry) :
    Parts start id base (entries ++ [e]) (write e x).2 := by
  rw [write_eq]
  split
  · exact (h.counted e).force
  · exact h.counted e

/-- Whether the file at a path holds `base` and the frames of the first of some entries, the buffer
those of the others, and the position is where these end. -/
structure Halves (path : String) (base : Bytes) (entries : List LogEntry) (x : Writer × Disk) :
    Prop where
  split : ∃ k ≤ entries.length,
    x.2.read path = .ok (base ++ (entries.take k).flatMap Frame.ofEntry) ∧
      x.1.buffered = (entries.drop k).flatMap Frame.ofEntry
  room : x.1.buffered.length ≤ capacity
  position : x.1.position = (base ++ entries.flatMap Frame.ofEntry).length

theorem Parts.halves (h : Parts start id base entries x) (hfile : start.HasFile path id) :
    Halves path base entries x := by
  obtain ⟨k, hk, hoffset⟩ := h.boundary
  have himage : base ++ entries.flatMap Frame.ofEntry =
      (base ++ (entries.take k).flatMap Frame.ofEntry) ++
        (entries.drop k).flatMap Frame.ofEntry := by
    rw [List.append_assoc, ← List.flatMap_append, List.take_append_drop]
  refine ⟨⟨k, hk, ?_, ?_⟩, h.room, h.position⟩
  · rw [h.carries.disk, hoffset, himage, List.take_left]
    exact hfile.read
  · rw [h.carries.buffered, hoffset, himage, List.drop_left]

/-! ## Runs -/

inductive Use where
  | write (e : LogEntry)
  | flush
  | force

namespace Use

def step : Use → Step Unit
  | write e => do let _ ← Writer.write e
  | flush => Writer.flush
  | force => Writer.force

def entry? : Use → Option LogEntry
  | write e => some e
  | flush | force => none

/-- The states a use passes through: a buffer without room for a frame is emptied, the frame is put
in the buffer or the file, and the buffer is emptied. -/
def moments (use : Use) (x : Writer × Disk) : List (Writer × Disk) :=
  match use with
  | write e => [withRoom (Frame.ofEntry e) x, counted e x, (Writer.write e x).2]
  | flush => [(Writer.flush x).2]
  | force => [(Writer.flush x).2, (Writer.force x).2]

end Use

def run (uses : List Use) (x : Writer × Disk) : Writer × Disk :=
  uses.foldl (fun x use => (use.step x).2) x

theorem run_concat (uses : List Use) (use : Use) (x : Writer × Disk) :
    run (uses ++ [use]) x = (use.step (run uses x)).2 := by
  rw [run, List.foldl_append]
  rfl

theorem Parts.step (h : Parts start id base entries x) (use : Use) :
    Parts start id base (entries ++ use.entry?.toList) (use.step x).2 := by
  cases use with
  | write e => exact h.write e
  | flush =>
    rw [Use.entry?, Option.toList_none, List.append_nil]
    exact h.flush
  | force =>
    rw [Use.entry?, Option.toList_none, List.append_nil]
    exact h.force

theorem Parts.moments (h : Parts start id base entries x) (use : Use) :
    ∀ y ∈ use.moments x, ∃ entries', entries' <+: entries ++ use.entry?.toList ∧
      Parts start id base entries' y := by
  have hfront : entries <+: entries ++ use.entry?.toList := List.prefix_append _ _
  cases use with
  | write e =>
    simp only [Use.moments, List.forall_mem_cons]
    exact ⟨⟨_, hfront, h.withRoom _⟩, ⟨_, List.prefix_rfl, h.counted e⟩,
      ⟨_, List.prefix_rfl, h.write e⟩, by simp⟩
  | flush =>
    simp only [Use.moments, List.forall_mem_cons]
    exact ⟨⟨_, hfront, h.flush⟩, by simp⟩
  | force =>
    simp only [Use.moments, List.forall_mem_cons]
    exact ⟨⟨_, hfront, h.flush⟩, ⟨_, hfront, h.force⟩, by simp⟩

theorem Parts.run (h : Parts start id base [] x) (uses : List Use) :
    Parts start id base (uses.filterMap Use.entry?) (run uses x) := by
  induction uses using List.reverseRecOn with
  | nil => exact h
  | append_singleton uses use ih =>
    have hentry : [use].filterMap Use.entry? = use.entry?.toList := by
      cases use <;> rfl
    rw [run_concat, List.filterMap_append, hentry]
    exact ih.step use

theorem sync_run (uses : List Use) (x : Writer × Disk) : (run uses x).1.sync = x.1.sync := by
  induction uses using List.reverseRecOn with
  | nil => rfl
  | append_singleton uses use ih =>
    rw [run_concat, ← ih]
    cases use with
    | write e => exact sync_write e _
    | flush => exact congrArg (·.1) (ledger_flush _)
    | force => exact congrArg (·.1) (ledger_force _)

/-! ## What is on the disk -/

/-- What of the file of a writer is sure to outlast a crash. -/
def durable (x : Writer × Disk) : Bytes := (x.2.content x.1.file).take x.1.forced

theorem offset_le_flush (x : Writer × Disk) : x.1.offset ≤ (flush x).2.1.offset := by
  rw [flush_eq]
  split
  · exact le_rfl
  · exact Nat.le_add_right _ _

theorem offset_le_withRoom (bytes : Bytes) (x : Writer × Disk) :
    x.1.offset ≤ (withRoom bytes x).1.offset := by
  unfold withRoom
  split
  · exact offset_le_flush x
  · exact le_rfl

theorem offset_le_append (bytes : Bytes) (x : Writer × Disk) :
    x.1.offset ≤ (append bytes x).2.1.offset := by
  rw [append_eq]
  split
  · exact (offset_le_withRoom bytes x).trans (Nat.le_add_right _ _)
  · exact offset_le_withRoom bytes x

/-- Whether the bytes forced to the disk, if any were since `base`, end with the frames of some
entries, and the writer counts others that came after them. -/
structure Secures (base : Bytes) (kept lost : List LogEntry) (x : Writer × Disk) : Prop where
  unsynced : x.1.unsynced = lost.length
  forced : kept = [] ∨ x.1.forced = (base ++ kept.flatMap Frame.ofEntry).length
  behind : x.1.forced ≤ x.1.offset

variable {kept lost : List LogEntry}

theorem Secures.flush (h : Secures base kept lost x) : Secures base kept lost (flush x).2 := by
  have hledger := ledger_flush x
  obtain ⟨-, hunsynced, hforced, -⟩ : _ ∧ _ ∧ _ ∧ _ := by simpa [ledger] using hledger
  refine ⟨hunsynced.trans h.unsynced, ?_, ?_⟩
  · rw [hforced]
    exact h.forced
  · rw [hforced]
    exact h.behind.trans (offset_le_flush x)

/-- Forcing leaves nothing behind. -/
theorem Parts.secures_force (h : Parts start id base entries x) :
    Secures base entries [] (Writer.force x).2 :=
  ⟨rfl, .inr (h.carries.flush.1.offset_of_empty h.carries.flush.2), le_rfl⟩

theorem Secures.counted (h : Secures base kept lost x) (e : LogEntry) :
    Secures base kept (lost ++ [e]) (counted e x) := by
  obtain ⟨-, hunsynced, hforced, -⟩ : _ ∧ _ ∧ _ ∧ _ := by
    simpa [ledger] using ledger_counted e x
  refine ⟨?_, ?_, ?_⟩
  · rw [hunsynced, h.unsynced, List.length_append, List.length_singleton]
  · rw [hforced]
    exact h.forced
  · rw [hforced]
    exact h.behind.trans (offset_le_append _ x)

theorem Secures.step (hparts : Parts start id base (kept ++ lost) x)
    (h : Secures base kept lost x) (use : Use) :
    ∃ kept' lost', (kept ++ lost) ++ use.entry?.toList = kept' ++ lost' ∧
      Secures base kept' lost' (use.step x).2 := by
  cases use with
  | flush => exact ⟨kept, lost, List.append_nil _, h.flush⟩
  | force => exact ⟨kept ++ lost, [], rfl, hparts.secures_force⟩
  | write e =>
    change ∃ kept' lost', _ ∧ Secures base kept' lost' (write e x).2
    rw [write_eq_of_count]
    split
    · exact ⟨kept ++ lost ++ [e], [], (List.append_nil _).symm, (hparts.counted e).secures_force⟩
    · exact ⟨kept, lost ++ [e], List.append_assoc .., h.counted e⟩

/-- Of the entries that were written, those that the writer does not count are on the disk. -/
theorem exists_secured (hparts : Parts start id base [] x) (hfresh : Secures base [] [] x)
    (uses : List Use) : ∃ kept lost, uses.filterMap Use.entry? = kept ++ lost ∧
      Secures base kept lost (run uses x) := by
  induction uses using List.reverseRecOn with
  | nil => exact ⟨[], [], rfl, hfresh⟩
  | append_singleton uses use ih =>
    obtain ⟨kept, lost, hentries, hsecures⟩ := ih
    have hrun := hparts.run uses
    rw [hentries] at hrun
    have hentry : [use].filterMap Use.entry? = use.entry?.toList := by
      cases use <;> rfl
    rw [run_concat, List.filterMap_append, hentry, hentries]
    exact hsecures.step hrun use

theorem Parts.durable_eq (h : Parts start id base (kept ++ lost) x)
    (hforced : x.1.forced = (base ++ kept.flatMap Frame.ofEntry).length)
    (hbehind : x.1.forced ≤ x.1.offset) : durable x = base ++ kept.flatMap Frame.ofEntry := by
  have hcontent : x.2.content x.1.file =
      (base ++ (kept ++ lost).flatMap Frame.ofEntry).take x.1.offset := by
    rw [h.carries.disk, h.carries.file, Disk.content_setContent h.carries.bound]
  rw [durable, hcontent, List.take_take, Nat.min_eq_left hbehind, hforced, List.flatMap_append,
    ← List.append_assoc, List.take_left]

theorem Parts.durable_force (h : Parts start id base entries x) :
    durable (Writer.force x).2 = base ++ entries.flatMap Frame.ofEntry := by
  have hforced : Parts start id base (entries ++ []) (Writer.force x).2 := by
    rw [List.append_nil]
    exact h.force
  exact hforced.durable_eq (h.carries.flush.1.offset_of_empty h.carries.flush.2) le_rfl

theorem unsynced_write_lt (e : LogEntry) (x : Writer × Disk) :
    (write e x).2.1.unsynced < x.1.sync.window := by
  have hpos : 0 < x.1.sync.window := by
    cases x.1.sync with
    | everyWrite => exact Nat.one_pos
    | everyEntries count => exact lt_of_lt_of_le Nat.one_pos (le_max_right count 1)
  rw [unsynced_write]
  split
  · exact hpos
  · next hnot =>
    cases hsync : x.1.sync with
    | everyWrite =>
      rw [hsync] at hnot
      exact absurd trivial hnot
    | everyEntries count =>
      rw [hsync] at hnot
      exact lt_of_lt_of_le (not_le.mp hnot) (le_max_left count 1)

/-! ## Opening -/

/-- What a writer goes on behind: the bytes of the file, or the magic if there are none. -/
def ground (path : String) (disk : Disk) : Bytes :=
  match disk.read path with
  | .ok (b :: bytes) => b :: bytes
  | _ => magic

theorem ground_of_blank (h : disk.Blank path) : ground path disk = magic := by
  unfold ground
  rcases h with hread | ⟨spot, hfollow, hdots, -, hunder⟩
  · rw [hread]
  · have hfind := Disk.find_of_vacant hfollow hdots hunder
    split
    · next hread =>
      obtain ⟨id, hfile, -⟩ := Disk.read_eq_ok.mp hread
      cases hfind.symm.trans hfile
    · rfl

theorem ground_of_file (h : disk.HasFile path id) (hne : disk.content id ≠ []) :
    ground path disk = disk.content id := by
  have hread : disk.read path = .ok (disk.content id) := Disk.read_eq_ok.mpr ⟨id, h.find, rfl⟩
  rw [ground, hread]
  cases hcontent : disk.content id with
  | nil => exact absurd hcontent hne
  | cons b bytes => rfl

/-- A file that a writer was opened on has a header, or no bytes yet. -/
theorem blank_or_file_of_openOn (hdisk : disk.WellFormed)
    (h : openOn path sync disk = .ok w opened) : disk.Blank path ∨
      ∃ id, disk.HasFile path id ∧ headerSize ≤ (disk.content id).length := by
  obtain ⟨id, made, hmade, -⟩ := openOn_eq_ok h
  rcases Disk.openOrCreate_eq_ok hmade with ⟨hfind, hsame⟩ | hvacant
  · rw [hsame] at hmade
    unfold openOn at h
    simp only [hmade] at h
    by_cases hempty : (disk.content id).length = 0
    · exact .inl (.inl (Disk.read_eq_ok.mpr ⟨id, hfind, List.length_eq_zero_iff.mp hempty⟩))
    · rw [if_neg hempty] at h
      split at h
      · cases h
      · next hheader =>
        obtain ⟨spot, -, -, -, hunder⟩ := Disk.find_eq_file.mp hfind
        have hbound : disk.Contains (.file id) := hdisk.node _ _ (Disk.under?_eq_ok.mp hunder).2
        exact .inr ⟨id, ⟨hfind, hbound⟩, not_lt.mp hheader⟩
  · exact .inl (.inr hvacant)

theorem openOn_fresh (h : openOn path sync disk = .ok w opened) :
    w.sync = sync ∧ w.unsynced = 0 ∧ w.forced = 0 ∧ w.position = w.offset ∧ w.buffered = [] := by
  unfold openOn at h
  split at h
  · cases h
  · dsimp only at h
    split at h
    · cases h
      exact ⟨rfl, rfl, rfl, rfl, rfl⟩
    · split at h <;> cases h
      exact ⟨rfl, rfl, rfl, rfl, rfl⟩

/-- A writer that was just opened has nothing in its buffer and is at the end of its file. -/
theorem parts_openOn (hdisk : disk.WellFormed) (h : openOn path sync disk = .ok w opened) :
    ∃ (start : Disk) (id : FileId), start.HasFile path id ∧
      Parts start id (ground path disk) [] (w, opened) := by
  obtain ⟨start, id, hfile, hcarries⟩ : ∃ (start : Disk) (id : FileId), start.HasFile path id ∧
      Carries start id (ground path disk) (w, opened) := by
    rcases blank_or_file_of_openOn hdisk h with hblank | ⟨id, hfile, hheader⟩
    · obtain ⟨id, start, w', hopen, hfile, -, hcarries⟩ := openOn_of_blank hdisk hblank sync
      cases h.symm.trans hopen
      rw [ground_of_blank hblank]
      exact ⟨start, id, hfile, hcarries⟩
    · obtain ⟨w', hopen, -, hcarries⟩ := openOn_of_file hfile hheader sync
      cases h.symm.trans hopen
      have hne : disk.content id ≠ [] := by
        intro hnil
        rw [hnil] at hheader
        exact absurd hheader (by decide)
      rw [ground_of_file hfile hne]
      exact ⟨disk, id, hfile, hcarries⟩
  obtain ⟨-, -, -, hposition, hempty⟩ := openOn_fresh h
  refine ⟨start, id, hfile, ?_⟩
  rw [← List.append_nil (ground path disk)] at hcarries
  refine .of_empty hcarries hempty ?_
  exact hposition.trans (hcarries.offset_of_empty hempty)

/-- Whatever is done with a writer, and at every moment of it, the file holds what it was opened on
and whole frames, the buffer holds the rest and no more than its capacity. A write tells the length
of its frame, which is the size of the entry without state machine data. Flushing, forcing and
closing leave nothing in the buffer, and forcing leaves everything on the disk. After a write fewer
entries than the policy allows are missing there. -/
theorem run_keeps_frames (hdisk : disk.WellFormed) (hopen : openOn path sync disk = .ok w opened)
    (uses : List Use) :
    Halves path (ground path disk) (uses.filterMap Use.entry?) (run uses (w, opened)) ∧
    (∀ use : Use, ∀ y ∈ use.moments (run uses (w, opened)), ∃ entries,
      entries <+: uses.filterMap Use.entry? ++ use.entry?.toList ∧
        Halves path (ground path disk) entries y) ∧
    (∀ e, (write e (run uses (w, opened))).1 = (Frame.ofEntry e).length ∧
      e.stripped.sizeFor .load = .ok (Frame.ofEntry e).length) ∧
    (flush (run uses (w, opened))).2.1.buffered = [] ∧
    (force (run uses (w, opened))).2.1.buffered = [] ∧
    durable (force (run uses (w, opened))).2 =
      ground path disk ++ (uses.filterMap Use.entry?).flatMap Frame.ofEntry ∧
    ((run uses (w, opened)).1.close (run uses (w, opened)).2).read path = .ok
      (ground path disk ++ (uses.filterMap Use.entry?).flatMap Frame.ofEntry) ∧
    ∀ e, ∃ kept lost, uses.filterMap Use.entry? ++ [e] = kept ++ lost ∧
      lost.length < sync.window ∧
      (kept = [] ∨ durable (write e (run uses (w, opened))).2 =
        ground path disk ++ kept.flatMap Frame.ofEntry) := by
  obtain ⟨start, id, hfile, hparts⟩ := parts_openOn hdisk hopen
  obtain ⟨hsync, hunsynced, hforced, -, -⟩ := openOn_fresh hopen
  have hrun := hparts.run uses
  refine ⟨hrun.halves hfile, fun use y hy => ?_, fun e => ⟨result_write e _, ?_⟩,
    hrun.carries.flush.2, hrun.carries.flush.2, hrun.durable_force, ?_, fun e => ?_⟩
  · obtain ⟨entries, hentries, hy⟩ := hrun.moments use y hy
    exact ⟨entries, hentries, hy.halves hfile⟩
  · rw [Frame.length_ofEntry]
    exact LogEntry.sizeFor_eq_ok.mpr ⟨.inr rfl, rfl⟩
  · rw [hrun.carries.close]
    exact hfile.read
  · have hfresh : Secures (ground path disk) [] [] (w, opened) :=
      ⟨hunsynced, .inl rfl, hforced.le.trans (Nat.zero_le _)⟩
    obtain ⟨kept, lost, hentries, hsecures⟩ := exists_secured hparts hfresh (uses ++ [.write e])
    have hparts' := hparts.run (uses ++ [.write e])
    rw [hentries] at hparts'
    rw [List.filterMap_append] at hentries
    have hlt := unsynced_write_lt e (run uses (w, opened))
    have hwritten : run (uses ++ [.write e]) (w, opened) = (write e (run uses (w, opened))).2 :=
      run_concat uses (.write e) _
    rw [hwritten] at hsecures hparts'
    rw [hsecures.unsynced, sync_run, hsync] at hlt
    exact ⟨kept, lost, hentries, hlt,
      hsecures.forced.imp_right fun hforced => hparts'.durable_eq hforced hsecures.behind⟩

/-- A new file, written to under a policy that forces every second entry to the disk. -/
theorem two_writes_keep_frames : ∃ w opened,
    openOn "log" (.everyEntries 2) {} = .ok w opened ∧
    Halves "log" magic [.sample 5, .sample 6]
      (run [.write (.sample 5), .flush, .write (.sample 6)] (w, opened)) ∧
    ∃ kept lost, [.sample 5, .sample 6, .sample 7] = kept ++ lost ∧ lost.length < 2 ∧
      (kept = [] ∨ durable (write (.sample 7)
        (run [.write (.sample 5), .flush, .write (.sample 6)] (w, opened))).2 =
          magic ++ kept.flatMap Frame.ofEntry) := by
  obtain ⟨w, opened, hopen⟩ : ∃ w opened, openOn "log" (.everyEntries 2) {} = .ok w opened :=
    ⟨_, _, rfl⟩
  obtain ⟨hhalves, -, -, -, -, -, -, hsecured⟩ := run_keeps_frames Disk.wellFormed_empty hopen
    [.write (.sample 5), .flush, .write (.sample 6)]
  rw [ground_of_blank (.inr Disk.vacant_empty)] at hhalves hsecured
  exact ⟨w, opened, hopen, hhalves, hsecured (.sample 7)⟩

end Writer

end SegmentedLog
