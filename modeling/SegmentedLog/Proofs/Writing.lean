import SegmentedLog.File.Writer
import SegmentedLog.Proofs.Files

/-! # What writers leave in a file

The file and the buffer of a writer hold the bytes that were written, cut at the offset the buffer
will be written at. Whatever is flushed when, a writer that is let go has added the frames of its
entries to the file in order; so the entries of a file may be written in any number of sessions.
-/

namespace SegmentedLog

open Stepwise

theorem length_fileImage (entries : List LogEntry) :
    (fileImage entries).length = headerSize + (entries.map (·.stripped.footprint)).sum := by
  rw [fileImage, List.length_append, List.length_flatMap]
  simp only [Frame.length_ofEntry]
  rfl

theorem length_fileImage_of_plain {entries : List LogEntry}
    (h : ∀ e ∈ entries, e.hasStateData = false) :
    (fileImage entries).length = headerSize + (entries.map (·.footprint)).sum := by
  rw [length_fileImage]
  congr 2
  exact List.map_congr_left fun e he => by rw [LogEntry.stripped_of_not_hasStateData (h e he)]

theorem fileImage_append (entries more : List LogEntry) :
    fileImage (entries ++ more) = fileImage entries ++ more.flatMap Frame.ofEntry := by
  simp [fileImage]

theorem fileImage_split {entries : List LogEntry} {k : Nat} (hk : k < entries.length) :
    fileImage entries = fileImage (entries.take k) ++
      (Frame.ofEntry entries[k] ++ (entries.drop (k + 1)).flatMap Frame.ofEntry) := by
  rw [← List.flatMap_cons, ← List.drop_eq_getElem_cons hk, ← fileImage_append,
    List.take_append_drop]

theorem headerSize_le_fileImage (entries : List LogEntry) :
    headerSize ≤ (fileImage entries).length := by
  rw [length_fileImage]
  omega

namespace Writer

/-- Whether `image` is what the file holds before the writer's offset, and the buffer behind it. -/
structure Carries (start : Disk) (id : FileId) (image : Bytes) (x : Writer × Disk) : Prop where
  bound : id.number < start.contents.size
  file : x.1.file = id
  offset : x.1.offset ≤ image.length
  disk : x.2 = start.setContent id (image.take x.1.offset)
  buffered : x.1.buffered = image.drop x.1.offset

variable {start disk : Disk} {id : FileId} {image bytes : Bytes} {x : Writer × Disk}
  {path : String} {sync : SyncPolicy}

/-! ## Steps of a writer -/

theorem flush_eq (x : Writer × Disk) : (flush x).2 =
    if x.1.buffered = [] then x
    else ({ (put x.1.buffered x).2.1 with buffered := [] }, (put x.1.buffered x).2.2) := by
  unfold flush
  by_cases h : x.1.buffered = []
  · rw [if_pos h]
    change ((ite (x.1.buffered ≠ []) _ _ : Step Unit) x).2 = x
    rw [if_neg (by simp [h])]
    rfl
  · rw [if_neg h]
    change ((ite (x.1.buffered ≠ []) _ _ : Step Unit) x).2 = _
    rw [if_pos h]
    rfl

theorem force_eq (x : Writer × Disk) :
    (force x).2 =
      ({ (flush x).2.1 with unsynced := 0, forced := (flush x).2.1.offset }, (flush x).2.2) := rfl

/-- The state in which there is room for the bytes in the buffer, or it is empty. -/
def withRoom (bytes : Bytes) (x : Writer × Disk) : Writer × Disk :=
  if capacity < x.1.buffered.length + bytes.length then (flush x).2 else x

theorem append_eq (bytes : Bytes) (x : Writer × Disk) : (append bytes x).2 =
    if capacity ≤ bytes.length then (put bytes (withRoom bytes x)).2
    else ({ (withRoom bytes x).1 with buffered := (withRoom bytes x).1.buffered ++ bytes },
      (withRoom bytes x).2) := by
  unfold append withRoom
  by_cases hroom : capacity < x.1.buffered.length + bytes.length
  · change ((ite (capacity < x.1.buffered.length + bytes.length) _ _ : Step Unit) x).2 = _
    rw [if_pos hroom, if_pos hroom]
    by_cases hlarge : capacity ≤ bytes.length
    · simp only [if_pos hlarge]
      rfl
    · simp only [if_neg hlarge]
      rfl
  · change ((ite (capacity < x.1.buffered.length + bytes.length) _ _ : Step Unit) x).2 = _
    rw [if_neg hroom, if_neg hroom]
    by_cases hlarge : capacity ≤ bytes.length
    · simp only [if_pos hlarge]
    · simp only [if_neg hlarge]
      rfl

def counted (e : LogEntry) (x : Writer × Disk) : Writer × Disk :=
  ({ (append (Frame.ofEntry e) x).2.1 with
      position := (append (Frame.ofEntry e) x).2.1.position + (Frame.ofEntry e).length
      unsynced := (append (Frame.ofEntry e) x).2.1.unsynced + 1 },
    (append (Frame.ofEntry e) x).2.2)

theorem write_eq (e : LogEntry) (x : Writer × Disk) : (write e x).2 =
    if SyncDue (counted e x).1.sync (counted e x).1.unsynced then (force (counted e x)).2
    else counted e x := by
  change ((ite (SyncDue (counted e x).1.sync (counted e x).1.unsynced) _ _ : Step Nat)
    (counted e x)).2 = _
  by_cases hdue : SyncDue (counted e x).1.sync (counted e x).1.unsynced
  · rw [if_pos hdue, if_pos hdue]
    rfl
  · rw [if_neg hdue, if_neg hdue]
    rfl

/-! ## What they keep -/

theorem Carries.put (h : Carries start id image x) (bytes : Bytes) :
    (put bytes x).2.2 = start.setContent id (image.take x.1.offset ++ bytes) := by
  change x.2.overwrite x.1.file x.1.offset bytes = _
  have hlength : (image.take x.1.offset).length = x.1.offset := by
    rw [List.length_take, Nat.min_eq_left h.offset]
  have hwrite := Disk.overwrite_length h.bound (image.take x.1.offset) bytes
  rw [hlength] at hwrite
  rw [h.disk, h.file, hwrite]

theorem Carries.flush (h : Carries start id image x) :
    Carries start id image (flush x).2 ∧ (flush x).2.1.buffered = [] := by
  rw [flush_eq]
  by_cases hempty : x.1.buffered = []
  · rw [if_pos hempty]
    exact ⟨h, hempty⟩
  · rw [if_neg hempty]
    have hoffset : x.1.offset + x.1.buffered.length = image.length := by
      rw [h.buffered, List.length_drop]
      exact Nat.add_sub_cancel' h.offset
    refine ⟨⟨h.bound, h.file, hoffset.le, ?_, ?_⟩, rfl⟩
    · change (Writer.put x.1.buffered x).2.2 =
        start.setContent id (image.take (x.1.offset + x.1.buffered.length))
      rw [h.put, hoffset, List.take_length, h.buffered, List.take_append_drop]
    · change [] = image.drop (x.1.offset + x.1.buffered.length)
      rw [hoffset, List.drop_length]

theorem Carries.withRoom (h : Carries start id image x) (bytes : Bytes) :
    Carries start id image (withRoom bytes x) ∧
      (capacity ≤ bytes.length → (withRoom bytes x).1.buffered = []) := by
  unfold Writer.withRoom
  split
  · exact ⟨h.flush.1, fun _ => h.flush.2⟩
  · next hroom =>
    refine ⟨h, fun hlarge => List.length_eq_zero_iff.mp ?_⟩
    omega

theorem Carries.append (h : Carries start id image x) (bytes : Bytes) :
    Carries start id (image ++ bytes) (append bytes x).2 := by
  obtain ⟨hroom, hempty⟩ := h.withRoom bytes
  rw [append_eq]
  generalize Writer.withRoom bytes x = y at hroom hempty
  split
  · next hlarge =>
    have hoffset : y.1.offset = image.length := by
      have hdrop := hempty hlarge
      rw [hroom.buffered, List.drop_eq_nil_iff] at hdrop
      exact le_antisymm hroom.offset hdrop
    have hlength : (image ++ bytes).length = y.1.offset + bytes.length := by
      rw [List.length_append, hoffset]
    refine ⟨h.bound, hroom.file, hlength.ge, ?_, ?_⟩
    · change (Writer.put bytes y).2.2 =
        start.setContent id ((image ++ bytes).take (y.1.offset + bytes.length))
      rw [hroom.put, ← hlength, List.take_length, hoffset, List.take_length]
    · change y.1.buffered = (image ++ bytes).drop (y.1.offset + bytes.length)
      rw [hempty hlarge, ← hlength, List.drop_length]
  · refine ⟨h.bound, hroom.file, ?_, ?_, ?_⟩
    · rw [List.length_append]
      exact hroom.offset.trans (Nat.le_add_right _ _)
    · rw [List.take_append_of_le_length hroom.offset]
      exact hroom.disk
    · rw [List.drop_append_of_le_length hroom.offset, ← hroom.buffered]

theorem Carries.counted (h : Carries start id image x) (e : LogEntry) :
    Carries start id (image ++ Frame.ofEntry e) (counted e x) := by
  obtain ⟨hbound, hfile, hoffset, hdisk, hbuffered⟩ := h.append (Frame.ofEntry e)
  exact ⟨hbound, hfile, hoffset, hdisk, hbuffered⟩

theorem Carries.force (h : Carries start id image x) :
    Carries start id image (force x).2 := by
  obtain ⟨⟨hbound, hfile, hoffset, hdisk, hbuffered⟩, -⟩ := h.flush
  exact ⟨hbound, hfile, hoffset, hdisk, hbuffered⟩

theorem Carries.write (h : Carries start id image x) (e : LogEntry) :
    Carries start id (image ++ Frame.ofEntry e) (write e x).2 := by
  rw [write_eq]
  split
  · exact (h.counted e).force
  · exact h.counted e

/-- A writer that is emptied has everything it was given in the file. -/
theorem Carries.disk_flush (h : Carries start id image x) :
    (Writer.flush x).2.2 = start.setContent id image := by
  obtain ⟨hflush, hempty⟩ := h.flush
  rw [hflush.buffered, List.drop_eq_nil_iff] at hempty
  rw [hflush.disk, List.take_of_length_le hempty]

theorem Carries.disk_force (h : Carries start id image x) :
    (Writer.force x).2.2 = start.setContent id image := h.disk_flush

theorem Carries.close (h : Carries start id image x) :
    x.1.close x.2 = start.setContent id image := h.disk_flush

/-! ## The position -/

theorem position_flush (x : Writer × Disk) : (flush x).2.1.position = x.1.position := by
  rw [flush_eq]
  split <;> rfl

theorem position_withRoom (bytes : Bytes) (x : Writer × Disk) :
    (withRoom bytes x).1.position = x.1.position := by
  unfold withRoom
  split
  · exact position_flush x
  · rfl

theorem position_append (bytes : Bytes) (x : Writer × Disk) :
    (append bytes x).2.1.position = x.1.position := by
  rw [append_eq]
  split <;> exact position_withRoom bytes x

/-- The position goes up by what the entry takes without state machine data. -/
theorem position_write (e : LogEntry) (x : Writer × Disk) :
    (write e x).2.1.position = x.1.position + e.stripped.footprint := by
  have hcounted : (counted e x).1.position = x.1.position + e.stripped.footprint := by
    change (append (Frame.ofEntry e) x).2.1.position + (Frame.ofEntry e).length = _
    rw [position_append, Frame.length_ofEntry]
  rw [write_eq]
  split
  · rw [force_eq]
    change (flush (counted e x)).2.1.position = _
    rw [position_flush, hcounted]
  · exact hcounted

/-! ## Runs and sessions -/

def writeAll : List LogEntry → Step Unit
  | [] => pure ()
  | e :: entries => do
    let _ ← write e
    writeAll entries

theorem Carries.writeAll (h : Carries start id image x) (entries : List LogEntry) :
    Carries start id (image ++ entries.flatMap Frame.ofEntry) (writeAll entries x).2 := by
  induction entries generalizing image x with
  | nil =>
    rw [List.flatMap_nil, List.append_nil]
    exact h
  | cons e entries ih =>
    have hrest := ih (h.write e)
    rw [List.append_assoc] at hrest
    exact hrest

def session (path : String) (sync : SyncPolicy) (entries : List LogEntry) :
    EStateM SegmentError Disk Unit := do
  let w ← openOn path sync
  modify fun disk => (writeAll entries (w, disk)).2.1.close (writeAll entries (w, disk)).2.2

def sessions (path : String) : List (SyncPolicy × List LogEntry) → EStateM SegmentError Disk Unit
  | [] => pure ()
  | (sync, entries) :: rest => do
    session path sync entries
    sessions path rest

/-- Opening a file gives or changes no names but its own. -/
theorem openOn_eq_ok {w : Writer} {disk' : Disk} (h : openOn path sync disk = .ok w disk') :
    ∃ id made, Disk.openOrCreate path disk = .ok id made ∧
      disk'.directories = made.directories := by
  unfold openOn at h
  split at h
  · cases h
  · next id made hmade =>
    refine ⟨id, made, hmade, ?_⟩
    dsimp only at h
    split at h
    · cases h
      rfl
    · split at h <;> cases h
      rfl

theorem openOn_of_file (h : disk.HasFile path id) (hheader : headerSize ≤ (disk.content id).length)
    (sync : SyncPolicy) : ∃ w, openOn path sync disk = .ok w disk ∧
      w.position = (disk.content id).length ∧ Carries disk id (disk.content id) (w, disk) := by
  have hsize : 0 < headerSize := by decide
  refine ⟨⟨id, path, sync, (disk.content id).length, [], (disk.content id).length, 0, 0⟩, ?_, rfl,
    ⟨h.bound, rfl, le_rfl, ?_, ?_⟩⟩
  · unfold openOn
    simp only [Disk.openOrCreate_of_file h.find]
    rw [if_neg (by omega), if_neg (by omega)]
  · rw [List.take_length, Disk.setContent_content]
  · exact List.drop_length.symm

theorem openOn_of_blank (hdisk : disk.WellFormed) (h : disk.Blank path) (sync : SyncPolicy) :
    ∃ (id : FileId) (start : Disk) (w : Writer),
      openOn path sync disk = .ok w (start.setContent id magic) ∧
      start.HasFile path id ∧ w.position = headerSize ∧
      Carries start id magic (w, start.setContent id magic) := by
  obtain ⟨id, start, hopen, hfile, hcontent⟩ := Disk.openOrCreate_of_blank hdisk h
  refine ⟨id, start, { file := id, path, sync, offset := headerSize, position := headerSize }, ?_,
    hfile, rfl, ⟨hfile.bound, rfl, le_rfl, rfl, rfl⟩⟩
  unfold openOn
  simp only [hopen, hcontent]
  rfl

theorem session_of_file (h : disk.HasFile path id)
    (hheader : headerSize ≤ (disk.content id).length) (sync : SyncPolicy)
    (entries : List LogEntry) : session path sync entries disk =
      .ok () (disk.setContent id (disk.content id ++ entries.flatMap Frame.ofEntry)) := by
  obtain ⟨w, hopen, -, hcarries⟩ := openOn_of_file h hheader sync
  rw [session, bind_of_ok hopen, ← (hcarries.writeAll entries).close]
  rfl

theorem sessions_of_file (h : disk.HasFile path id)
    (hheader : headerSize ≤ (disk.content id).length)
    (runs : List (SyncPolicy × List LogEntry)) : sessions path runs disk =
      .ok () (disk.setContent id
        (disk.content id ++ (runs.flatMap (·.2)).flatMap Frame.ofEntry)) := by
  induction runs generalizing disk with
  | nil =>
    rw [List.flatMap_nil, List.flatMap_nil, List.append_nil, Disk.setContent_content]
    rfl
  | cons run runs ih =>
    rcases run with ⟨sync, entries⟩
    have hcontent := Disk.content_setContent h.bound
      (disk.content id ++ entries.flatMap Frame.ofEntry)
    have hrest := ih (h.setContent (disk.content id ++ entries.flatMap Frame.ofEntry)) (by
      rw [hcontent, List.length_append]
      omega)
    rw [sessions, bind_of_ok (session_of_file h hheader sync entries), hrest, hcontent,
      Disk.setContent_setContent]
    simp

/-- Sessions on a new file leave exactly the image of their entries, however these are split. -/
theorem sessions_of_blank (hdisk : disk.WellFormed) (h : disk.Blank path)
    {runs : List (SyncPolicy × List LogEntry)} (hruns : runs ≠ []) :
    ∃ (id : FileId) (start : Disk), start.HasFile path id ∧ sessions path runs disk =
      .ok () (start.setContent id (fileImage (runs.flatMap (·.2)))) := by
  cases runs with
  | nil => exact absurd rfl hruns
  | cons run runs =>
    rcases run with ⟨sync, entries⟩
    obtain ⟨id, start, w, hopen, hfile, -, hcarries⟩ := openOn_of_blank hdisk h sync
    have hsession : session path sync entries disk =
        .ok () (start.setContent id (fileImage entries)) := by
      rw [session, bind_of_ok hopen, fileImage, ← (hcarries.writeAll entries).close]
      rfl
    have hcontent := Disk.content_setContent hfile.bound (fileImage entries)
    refine ⟨id, start, hfile, ?_⟩
    rw [sessions, bind_of_ok hsession,
      sessions_of_file (hfile.setContent _) (by rw [hcontent]; exact headerSize_le_fileImage _),
      hcontent, Disk.setContent_setContent, ← fileImage_append]
    rfl

/-! ## Well-formed disks -/

theorem wellFormed_put (h : x.2.WellFormed) (bytes : Bytes) : (put bytes x).2.2.WellFormed :=
  h.overwrite x.1.file x.1.offset bytes

theorem wellFormed_flush (h : x.2.WellFormed) : (flush x).2.2.WellFormed := by
  rw [flush_eq]
  split
  · exact h
  · exact wellFormed_put h _

theorem wellFormed_withRoom (h : x.2.WellFormed) (bytes : Bytes) :
    (withRoom bytes x).2.WellFormed := by
  unfold withRoom
  split
  · exact wellFormed_flush h
  · exact h

theorem wellFormed_append (h : x.2.WellFormed) (bytes : Bytes) :
    (append bytes x).2.2.WellFormed := by
  rw [append_eq]
  split
  · exact wellFormed_put (wellFormed_withRoom h bytes) bytes
  · exact wellFormed_withRoom h bytes

theorem wellFormed_write (h : x.2.WellFormed) (e : LogEntry) : (write e x).2.2.WellFormed := by
  have hcounted : (counted e x).2.WellFormed := wellFormed_append h _
  rw [write_eq]
  split
  · exact wellFormed_flush hcounted
  · exact hcounted

theorem wellFormed_writeAll (h : x.2.WellFormed) (entries : List LogEntry) :
    (writeAll entries x).2.2.WellFormed := by
  induction entries generalizing x with
  | nil => exact h
  | cons e entries ih => exact ih (wellFormed_write h e)

theorem leaves_openOn (h : disk.WellFormed) (path : String) (sync : SyncPolicy) :
    Leaves Disk.WellFormed (openOn path sync) disk := by
  have hopened := Disk.leaves_openOrCreate h path
  unfold Leaves openOn
  cases hopen : Disk.openOrCreate path disk with
  | error cause t => exact hopened.of_error hopen
  | ok id t =>
    have ht := hopened.of_ok hopen
    dsimp only
    split
    · next hresult =>
      split at hresult
      · cases hresult
        exact ht.setContent id magic
      · split at hresult <;> cases hresult
        exact ht
    · next hresult =>
      split at hresult
      · cases hresult
      · split at hresult <;> cases hresult
        exact ht

/-- Writing keeps a disk well formed, also where a session fails. -/
theorem leaves_sessions (h : disk.WellFormed) (path : String)
    (runs : List (SyncPolicy × List LogEntry)) :
    Leaves Disk.WellFormed (sessions path runs) disk := by
  induction runs generalizing disk with
  | nil => exact h
  | cons run runs ih =>
    refine Leaves.bind ?_ fun _ _ _ ht => ih ht
    exact (leaves_openOn h path run.1).bind fun w t _ ht =>
      wellFormed_flush (wellFormed_writeAll (x := (w, t)) ht run.2)

end Writer

end SegmentedLog
