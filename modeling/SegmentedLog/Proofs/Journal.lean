import SegmentedLog.Proofs.Renaming
import SegmentedLog.Proofs.Rereading
import SegmentedLog.Proofs.SegmentRuns

/-! # Segments with their files

A segment is used together with the writer of its file. What is appended is written, and when the
segment is closed or truncated the file gets the name of what is left; the bytes of what was removed
stay in it. The first entries of the file are then those of the segment, and the range in its name
keeps a scan from handing over more. So what is read for a key does not depend on what was cached,
evicted or removed before.
-/

namespace SegmentedLog

open Stepwise

namespace Writer

variable {start : Disk} {id : FileId} {image : Bytes} {x : Writer × Disk}

/-- What a writer carries it carries from where it stands on. -/
theorem Carries.rebase (h : Carries start id image x) : Carries x.2 id image x := by
  refine ⟨?_, h.file, h.offset, ?_, h.buffered⟩
  · rw [h.disk, Disk.size_contents_setContent]
    exact h.bound
  · conv_rhs => rw [h.disk]
    rw [Disk.setContent_setContent]
    exact h.disk

end Writer

/-- A segment in use, and the writer of its file. -/
structure Journal extends Client where
  writer : Writer

namespace Journal

def segment (j : Journal) : Segment := j.session.segment

def disk (j : Journal) : Disk := j.session.disk

def opening (context : SegmentContext) (start : UInt64) (host : Host) (sinks : Nat → Sink)
    (writer : Writer) : Journal :=
  { session := { host with segment := .opening context start }, sinks, writer }

def written (j : Journal) (e : LogEntry) : Journal :=
  let (writer, disk) := (Writer.flush (Writer.write e (j.writer, j.disk)).2).2
  { j with session := { j.session with disk }, writer }

def renamed? (j : Journal) (source : String) : Option Journal :=
  match Disk.rename source j.segment.file j.disk with
  | .ok () disk => some { j with session := { j.session with disk } }
  | .error _ _ => none

end Journal

namespace Call

/-- Brings the file in line with what a call on `j` has left. -/
def align? (call : Call) (j j' : Journal) : Option Journal :=
  match call with
  | append _ r _ => some (j'.written r.entry)
  | close | truncate _ => j'.renamed? j.segment.file
  | clear | evict | lookUp _ | load _ => some j'

/-- What a call leaves that returns, together with what is done to the file. -/
def record? (call : Call) (j : Journal) : Option Journal :=
  (call.make? j.toClient).bind fun c => call.align? j ⟨c, j.writer⟩

end Call

/-- Whether nothing changed but the reference counts and the statistics. -/
def Journal.Meanwhile (j j' : Journal) : Prop :=
  ∃ refs metrics, j' = { j with session := { j.session with refs, metrics } }

abbrev Journal.Run (j : Journal) (calls : List Call) (j' : Journal) : Prop :=
  Stepwise.Run Call.record? Meanwhile j calls j'

namespace Journal

variable {j j' : Journal} {context : SegmentContext} {start : UInt64} {call : Call}
  {calls : List Call} {entries more written : List LogEntry} {s : Session} {key : TermIndex}

/-- Whether the file of the segment holds exactly the entries `written`, which start with those of
the segment, and a writer stands at its end as long as the segment is open and has all of them. -/
structure Stores (context : SegmentContext) (start : UInt64) (j : Journal)
    (entries written : List LogEntry) : Prop where
  belongs : j.segment.context = context
  starts : j.segment.start = start
  spans : j.segment.Spans headerSize entries
  cache : j.segment.cache.Recalls entries
  indices : Consecutive start.toNat (written.map (·.index))
  bound : ∀ e ∈ written, e.index.toNat + 1 < UInt64.size
  initial : entries <+: written
  disk : j.disk.WellFormed
  file : ∃ id, j.disk.HasFile j.segment.file id ∧ j.disk.content id = fileImage written ∧
    (j.segment.isOpen = true → entries = written ∧
      Writer.Carries j.disk id (fileImage written) (j.writer, j.disk))

/-- What becomes of the name of the file: it stays, or it goes along with the range. -/
def Moves (j j' : Journal) : Prop :=
  j'.segment.range = j.segment.range ∧ j'.disk.directories = j.disk.directories ∨
    Disk.rename j.segment.file j'.segment.file j.disk = .ok () j'.disk

/-! ## Where it starts -/

/-- A new segment stores nothing in a file that is new or empty. -/
theorem stores_opening {host : Host} {sync : SyncPolicy} {w : Writer} {disk : Disk}
    (hdisk : host.disk.WellFormed) (hblank : host.disk.Blank (context.file (.opening start)))
    (hopen : Writer.openOn (context.file (.opening start)) sync host.disk = .ok w disk)
    (sinks : Nat → Sink) :
    (opening context start { host with disk } sinks w).Stores context start [] [] := by
  obtain ⟨id, disk₀, w', hopen', hfile, -, hcarries⟩ := Writer.openOn_of_blank hdisk hblank sync
  rw [hopen] at hopen'
  cases hopen'
  have hwell := (Writer.leaves_openOn hdisk _ sync).of_ok hopen
  have hcontent := Disk.content_setContent hfile.bound magic
  exact ⟨rfl, rfl, Segment.spans_opening context start, Cache.recalls_empty [], Consecutive.nil,
    by simp, List.prefix_rfl, hwell, id, hfile.setContent magic, hcontent,
    fun _ => ⟨rfl, hcarries.rebase⟩⟩

/-- A segment that was reconstructed from a file with frames as a writer lays them out stores what
was read, and a writer that is opened on the file goes on with it. -/
theorem stores_of_loadSegment {host after : Host} {keep : Bool} {seg : Segment} {content : Bytes}
    {sync : SyncPolicy} {w : Writer} {disk : Disk} (hdisk : host.disk.WellFormed)
    (hload : Host.loadSegment context (context.file (.opening start)) (.opening start) keep host =
      .ok (some seg) after)
    (hread : host.disk.read (context.file (.opening start)) = .ok content)
    (himage : fileImage (host.disk.scan (context.file (.opening start)) (.opening start)
      context.maxEntrySize).entries <+: content)
    (hopen : Writer.openOn (context.file (.opening start)) sync after.disk = .ok w disk)
    (sinks : Nat → Sink) :
    ∃ entries, Stores context start ⟨⟨{ after with segment := seg, disk }, sinks⟩, w⟩
      entries entries := by
  obtain ⟨entries, h⟩ := Host.loadSegment_eq_some hload
  rw [h.scanned] at himage
  obtain ⟨id, hbefore, hcut⟩ := h.left hread himage
  have hfile : after.disk.HasFile (context.file (.opening start)) id :=
    hcut ▸ hbefore.setContent _
  have hcontent : after.disk.content id = fileImage entries :=
    hcut ▸ Disk.content_setContent hbefore.bound _
  obtain ⟨w', hopen', -, hcarries⟩ := Writer.openOn_of_file hfile
    (by rw [hcontent]; exact headerSize_le_fileImage entries) sync
  rw [hopen] at hopen'
  cases hopen'
  have hindices := h.holds.consecutive
  rw [h.start] at hindices
  have hname : seg.file = context.file (.opening start) := by
    rw [Segment.file, Segment.range_of_open h.isOpen, h.start, h.context]
    rfl
  have hcache : seg.cache.Recalls entries := h.cache.recalls.mono (by split <;> simp)
  refine ⟨entries, h.context, h.start, h.holds.spans h.nonempty, hcache, hindices, h.holds.bound,
    List.prefix_rfl, ?_, id, ?_, hcontent, fun _ => ⟨rfl, hcontent ▸ hcarries⟩⟩
  · exact (Host.leaves_loadSegment hdisk context _ _ keep).of_ok hload
  · change after.disk.HasFile seg.file id
    rw [hname]
    exact hfile

/-! ## What may be read -/

/-- The range of the segment keeps a scan of the file to the entries of the segment. -/
theorem Stores.coherent (h : j.Stores context start entries written)
    (htakes : ∀ e ∈ written, Reader.Takes context.maxEntrySize e) :
    j.session.Coherent entries := by
  refine ⟨h.spans, h.cache, fun hne => ?_⟩
  obtain ⟨id, hfile, hcontent, hopen⟩ := h.file
  have hholds := h.spans.holds
  have hindices : Consecutive j.segment.range.start.toNat (written.map (·.index)) := by
    rw [Segment.start_range, h.starts]
    exact h.indices
  have hscan := Disk.scan_image (z := 0) hfile (by simp [hcontent]) (hholds.proper_range hne) htakes
    hindices
  rw [hholds.admitted_range hne h.initial.length_le fun hisOpen => by rw [(hopen hisOpen).1],
    ← List.prefix_iff_eq_take.mp h.initial] at hscan
  have hcontext : j.session.segment.context = context := h.belongs
  rw [hcontext]
  exact hscan

/-! ## Calls that read -/

/-- The names of segments with the same accounts are the same. -/
theorem file_of_lasting {t : Session} (h : t.lasting = s.lasting) :
    t.segment.file = s.segment.file := by
  obtain ⟨hbooks, hrest⟩ := Prod.ext_iff.mp h
  have hcontext : t.segment.context = s.segment.context := (Prod.ext_iff.mp hrest).1
  rw [Segment.file, Segment.file, hcontext, Segment.range_of_books hbooks]

theorem Stores.of_lasting (h : j.Stores context start entries written)
    (hlasting : s.lasting = j.session.lasting) (hcache : s.segment.cache.Recalls entries)
    (sinks : Nat → Sink) :
    Stores context start ⟨⟨s, sinks⟩, j.writer⟩ entries written := by
  have hfile := file_of_lasting hlasting
  obtain ⟨hbooks, hrest⟩ := Prod.ext_iff.mp hlasting
  obtain ⟨hcontext, hdisk⟩ := Prod.ext_iff.mp hrest
  obtain ⟨hopen, -, -, hindex⟩ := Segment.Books.mk.inj hbooks
  change s.disk = j.disk at hdisk
  refine ⟨Eq.trans hcontext h.belongs, (congrArg SegmentIndex.start hindex).trans h.starts,
    h.spans.of_books hbooks, hcache, h.indices, h.bound, h.initial, ?_, ?_⟩
  · change s.disk.WellFormed
    rw [hdisk]
    exact h.disk
  · obtain ⟨id, hhas, hcontent, hwriter⟩ := h.file
    change ∃ id, s.disk.HasFile s.segment.file id ∧ s.disk.content id = _ ∧
      (s.segment.isOpen = true → _ ∧ Writer.Carries s.disk id _ (j.writer, s.disk))
    rw [hfile, hdisk, hopen]
    exact ⟨id, hhas, hcontent, hwriter⟩

theorem moves_of_lasting (hlasting : s.lasting = j.session.lasting) (sinks : Nat → Sink) :
    j.Moves ⟨⟨s, sinks⟩, j.writer⟩ := by
  obtain ⟨hbooks, hrest⟩ := Prod.ext_iff.mp hlasting
  have hdisk : s.disk = j.session.disk := (Prod.ext_iff.mp hrest).2
  exact .inl ⟨Segment.range_of_books hbooks, congrArg Disk.directories hdisk⟩

theorem Stores.meanwhile (h : j.Stores context start entries written)
    (hmeanwhile : j.Meanwhile j') : j'.Stores context start entries written ∧ j.Moves j' := by
  obtain ⟨refs, metrics, rfl⟩ := hmeanwhile
  exact ⟨h.of_lasting (s := { j.session with refs, metrics }) rfl h.cache j.sinks,
    .inl ⟨rfl, rfl⟩⟩

/-- A call that leaves the file alone and reads nothing but entries of the segment. -/
theorem Stores.of_leaves (h : j.Stores context start entries written)
    (htakes : ∀ e ∈ written, Reader.Takes context.maxEntrySize e) (hsink : call.sink? = none)
    (hfile : ∀ c : Client, call.align? j ⟨c, j.writer⟩ = some ⟨c, j.writer⟩)
    (hleaves : ∀ s : Session, s.Coherent entries →
      Leaves (fun t => t.lasting = s.lasting ∧ t.segment.cache.Recalls entries) call.step s)
    (hcall : call.record? j = some j') :
    j'.Stores context start entries written ∧ j.Moves j' := by
  obtain ⟨c, hmake, hj'⟩ := Option.bind_eq_some_iff.mp hcall
  rw [hfile] at hj'
  cases hj'
  obtain ⟨s, hs, rfl⟩ := Client.make?_of_no_sink hsink hmake
  have hstep := hleaves { j.session with sink := .absent }
    ((h.coherent htakes).of_lasting rfl h.cache)
  rcases Session.returned?_eq_some.mp hs with hok | ⟨cause, herror⟩
  · obtain ⟨hlasting, hcache⟩ := hstep.of_ok hok
    exact ⟨h.of_lasting hlasting hcache j.sinks, moves_of_lasting hlasting j.sinks⟩
  · obtain ⟨hlasting, hcache⟩ := hstep.of_error herror
    exact ⟨h.of_lasting hlasting hcache j.sinks, moves_of_lasting hlasting j.sinks⟩

/-! ## Calls that write -/

theorem written_of_carries {id : FileId} {image : Bytes}
    (h : Writer.Carries j.disk id image (j.writer, j.disk)) (e : LogEntry) :
    (j.written e).disk = j.disk.setContent id (image ++ Frame.ofEntry e) ∧
      Writer.Carries (j.written e).disk id (image ++ Frame.ofEntry e)
        ((j.written e).writer, (j.written e).disk) :=
  ⟨(h.write e).disk_flush, (h.write e).flush.1.rebase⟩

theorem stores_of_append {purpose : SizePurpose} {r : EntryRef} {sink? : Option Nat}
    (h : j.Stores context start entries written)
    (hcall : (Call.append purpose r sink?).record? j = some j') :
    j'.Stores context start (entries ++ [r.entry]) (written ++ [r.entry]) ∧ j.Moves j' := by
  obtain ⟨c, hmake, hj'⟩ := Option.bind_eq_some_iff.mp hcall
  cases hj'
  obtain ⟨s, hs, rfl⟩ := Option.map_eq_some_iff.mp hmake
  have happend := Session.ok_of_returned (Session.append_within purpose r) hs
  have hbefore : ({ j.session with sink := (sink?.map j.sinks).getD .absent } :
    Session).segment.Spans headerSize entries := h.spans
  have hspans := (Session.append_of_spans hbefore happend).1
  obtain ⟨hopen, hnext, hbound, cache, refs, hput, rfl⟩ :=
    Session.taken_of_append hbefore happend
  obtain ⟨id, hfile, hcontent, hwriter⟩ := h.file
  obtain ⟨rfl, hcarries⟩ := hwriter hopen
  obtain ⟨hdisk, hcarries'⟩ := written_of_carries hcarries r.entry
  have himage : fileImage entries ++ Frame.ofEntry r.entry = fileImage (entries ++ [r.entry]) := by
    simp [fileImage_append]
  rw [himage] at hdisk hcarries'
  have hrange : (Session.taken { j.session with sink := (sink?.map j.sinks).getD .absent } r cache
      refs).segment.range = j.segment.range := by
    have hbefore : j.segment.range = .opening j.segment.start := Segment.range_of_open hopen
    rw [hbefore]
    exact Segment.range_of_open hopen
  refine ⟨⟨h.belongs, h.starts, hspans, (h.cache.mono (by simp)).put (by simp) (.inl rfl) hput,
    h.starts ▸ hspans.consecutive, hspans.holds.bound, List.prefix_rfl, ?_, id, ⟨?_, ?_⟩, ?_,
    fun _ => ⟨rfl, hcarries'⟩⟩, .inl ⟨hrange, ?_⟩⟩
  · change (j.written r.entry).disk.WellFormed
    rw [hdisk]
    exact h.disk.setContent id _
  · change (j.written r.entry).disk.find _ = _
    rw [hdisk]
    exact (congrArg j.disk.find (congrArg j.segment.context.file hrange)).trans hfile.find
  · exact hcarries'.bound
  · change (j.written r.entry).disk.content id = _
    rw [hdisk, Disk.content_setContent hfile.bound]
  · change (j.written r.entry).disk.directories = _
    rw [hdisk]
    rfl

/-- A closed segment needs no writer, and finds its file under the new name. -/
theorem Stores.renamed {sinks : Nat → Sink} (h : j.Stores context start entries written)
    (hrename : renamed? ⟨⟨s, sinks⟩, j.writer⟩ j.segment.file = some j')
    (hbelongs : s.segment.context = context) (hstarts : s.segment.start = start)
    (hspans : s.segment.Spans headerSize more) (hcache : s.segment.cache.Recalls more)
    (hinitial : more <+: entries) (hclosed : s.segment.isOpen = false) (hdisk : s.disk = j.disk) :
    j'.Stores context start more written ∧ j.Moves j' := by
  obtain ⟨id, hfile, hcontent, -⟩ := h.file
  unfold renamed? at hrename
  split at hrename
  · next disk hmoved =>
    cases hrename
    change Disk.rename j.segment.file s.segment.file s.disk = _ at hmoved
    rw [hdisk] at hmoved
    obtain ⟨hfile', hcontents, hwell⟩ := hfile.rename h.disk hmoved
    refine ⟨⟨hbelongs, hstarts, hspans, hcache, h.indices, h.bound, hinitial.trans h.initial, hwell,
      id, hfile', ?_, fun hopen => ?_⟩, .inr hmoved⟩
    · rw [← hcontent]
      exact congrArg (fun contents : Array Bytes => contents.getD id.number []) hcontents
    · exact absurd (hopen.symm.trans hclosed) Bool.false_ne_true.symm
  · cases hrename

theorem stores_of_close (h : j.Stores context start entries written)
    (hcall : Call.close.record? j = some j') :
    j'.Stores context start entries written ∧ j.Moves j' := by
  obtain ⟨c, hmake, hj'⟩ := Option.bind_eq_some_iff.mp hcall
  obtain ⟨s, hs, rfl⟩ := Client.make?_of_no_sink rfl hmake
  obtain ⟨-, rfl⟩ := Session.close_eq_ok.mp (Session.ok_of_returned Session.close_within hs)
  exact h.renamed hj' h.belongs h.starts h.spans.closed h.cache List.prefix_rfl rfl rfl

theorem stores_of_truncate {first : UInt64} (h : j.Stores context start entries written)
    (hcall : (Call.truncate first).record? j = some j') :
    ∃ kept, j'.Stores context start kept written ∧ j.Moves j' := by
  obtain ⟨c, hmake, hj'⟩ := Option.bind_eq_some_iff.mp hcall
  obtain ⟨s, hs, rfl⟩ := Client.make?_of_no_sink rfl hmake
  have hbefore : ({ j.session with sink := .absent } : Session).segment.Spans headerSize entries :=
    h.spans
  obtain ⟨hfirst, rfl⟩ := Session.truncated_of_returned hbefore hs
  exact ⟨_, h.renamed hj' h.belongs h.starts (Session.spans_truncated hbefore hfirst)
    (Session.recalls_trimmed hbefore h.cache _) (List.take_prefix _ _) rfl rfl⟩

/-! ## Runs -/

theorem stores_of_record (h : j.Stores context start entries written)
    (htakes : ∀ e ∈ written, Reader.Takes context.maxEntrySize e) (hclear : call ≠ .clear)
    (hcall : call.record? j = some j') :
    ∃ kept, j'.Stores context start kept (written ++ [call].filterMap Call.entry?) ∧
      j.Moves j' := by
  have hsame (hentry : call.entry? = none)
      (hstores : ∃ kept, j'.Stores context start kept written ∧ j.Moves j') :
      ∃ kept, j'.Stores context start kept (written ++ [call].filterMap Call.entry?) ∧
        j.Moves j' := by
    rw [List.filterMap_cons_none hentry, List.filterMap_nil, List.append_nil]
    exact hstores
  cases call with
  | append purpose r sink? => exact ⟨_, stores_of_append h hcall⟩
  | clear => exact absurd rfl hclear
  | close => exact hsame rfl ⟨entries, stores_of_close h hcall⟩
  | truncate first => exact hsame rfl (stores_of_truncate h hcall)
  | evict =>
    refine hsame rfl ⟨entries, h.of_leaves htakes rfl (fun _ => rfl) (fun s _ => ?_) hcall⟩
    exact (⟨rfl, Cache.recalls_evict entries⟩ : _ ∧ _)
  | lookUp key =>
    refine hsame rfl ⟨entries, h.of_leaves htakes rfl (fun _ => rfl) (fun s hs => ?_) hcall⟩
    exact (hs.leaves_cached? key).bind fun _ _ _ ht => ht
  | load key =>
    refine hsame rfl ⟨entries, h.of_leaves htakes rfl (fun _ => rfl) (fun s hs => ?_) hcall⟩
    exact (hs.leaves_load key).bind fun _ _ _ ht => ht

/-- Whatever is done, the file holds what was written, and the segment has the first of it. What
besides depends on the name of the file alone is kept if it is kept as the name moves. -/
theorem stores_of_run {I : Journal → Prop} (h : j.Stores context start entries entries) (hI : I j)
    (hmoves : ∀ j j' entries written, Stores context start j entries written → j.Moves j' →
      j'.segment.context = context → I j → I j')
    (hclear : Call.clear ∉ calls) (hrun : j.Run calls j')
    (htakes : ∀ e ∈ entries ++ calls.filterMap Call.entry?,
      Reader.Takes context.maxEntrySize e) :
    ∃ kept, j'.Stores context start kept (entries ++ calls.filterMap Call.entry?) ∧ I j' := by
  induction hrun with
  | nil => exact ⟨entries, by simpa using h, hI⟩
  | act hrun hcall ih =>
    rw [List.filterMap_append, ← List.append_assoc] at htakes ⊢
    obtain ⟨kept, hkept, hI⟩ := ih (fun hmem => hclear (List.mem_append_left _ hmem))
      fun e he => htakes e (List.mem_append_left _ he)
    obtain ⟨kept', hkept', hmoved⟩ := stores_of_record hkept
      (fun e he => htakes e (List.mem_append_left _ he)) (fun heq => hclear (by simp [heq])) hcall
    exact ⟨kept', hkept', hmoves _ _ _ _ hkept hmoved hkept'.belongs hI⟩
  | env _ hmeanwhile ih =>
    obtain ⟨kept, hkept, hI⟩ := ih hclear htakes
    obtain ⟨hkept', hmoved⟩ := hkept.meanwhile hmeanwhile
    exact ⟨kept, hkept', hmoves _ _ _ _ hkept hmoved hkept'.belongs hI⟩

/-- Whatever was appended, evicted, read, closed or truncated before, each record is read as the
entry that was written for it, and no entry is read under any other key. -/
theorem run_reads_records (h : j.Stores context start entries entries)
    (hclear : Call.clear ∉ calls) (hrun : j.Run calls j')
    (hlimit : ∀ e ∈ entries ++ calls.filterMap Call.entry?,
      e.stripped.encodedSize ≤ context.maxEntrySize)
    (hfits : (fileImage (entries ++ calls.filterMap Call.entry?)).length < Disk.lengthLimit) :
    (∀ (i : Nat) (record : LogRecord), j'.segment.records[i]? = some record →
      ∃ e, (entries ++ calls.filterMap Call.entry?)[i]? = some e ∧ record.key = e.key ∧
        j'.session.Reads record.key e) ∧
    ∀ key, (∀ record ∈ j'.segment.records, record.key ≠ key) → j'.session.Misses key := by
  have htakes := Host.takes_of_fits hlimit hfits
  obtain ⟨kept, hkept, -⟩ := stores_of_run (I := fun _ => True) h trivial
    (fun _ _ _ _ _ _ _ _ => trivial) hclear hrun htakes
  have hcoherent := hkept.coherent htakes
  refine ⟨fun i record hrecord => ?_, fun key hkey => hcoherent.misses fun e he heq => ?_⟩
  · rw [hkept.spans.records, LogRecord.getElem?_layout] at hrecord
    obtain ⟨e, he, rfl⟩ := Option.map_eq_some_iff.mp hrecord
    obtain ⟨rest, hrest⟩ := hkept.initial
    refine ⟨e, ?_, rfl, hcoherent.reads (List.mem_of_getElem? he)⟩
    rw [← hrest, List.getElem?_append_left (List.getElem?_eq_some_iff.mp he).1]
    exact he
  · have hmem : e.key ∈ j'.segment.records.map (·.key) := by
      rw [hkept.spans.records, LogRecord.map_key_layout]
      exact List.mem_map_of_mem he
    obtain ⟨record, hrecord, hkey'⟩ := List.mem_map.mp hmem
    exact hkey record hrecord (hkey'.trans heq)

def sample (start : UInt64) : Journal :=
  opening ⟨".", .strict, 64⟩ start
    { disk := (({} : Disk).create ⟨.root, (SegmentRange.opening start).name⟩).2.setContent ⟨0⟩ magic
      refs := ⟨#[1, 1]⟩ }
    (fun _ => .absent)
    { file := ⟨0⟩
      path := SegmentContext.file ⟨".", .strict, 64⟩ (.opening start)
      sync := .everyWrite
      offset := headerSize
      position := headerSize }

theorem openOn_sample : Writer.openOn (SegmentContext.file ⟨".", .strict, 64⟩ (.opening 5))
    .everyWrite {} = .ok (sample 5).writer (sample 5).disk := rfl

theorem stores_sample : (sample 5).Stores ⟨".", .strict, 64⟩ 5 [] [] := by
  have hvacant : Disk.Vacant {} (SegmentContext.file ⟨".", .strict, 64⟩ (.opening 5)) :=
    ⟨⟨[], "log_inprogress_5", false⟩, rfl, by decide, rfl, rfl⟩
  have hdisk : ({ refs := ⟨#[1, 1]⟩ } : Host).disk.WellFormed := Disk.wellFormed_empty
  exact stores_opening hdisk (.inr hvacant) openOn_sample fun _ => .absent

def sampleCalls : List Call :=
  [.append .wholeAppend ⟨0, .sample 5⟩ none, .append .wholeAppend ⟨1, .sample 6⟩ none, .evict,
    .truncate 6]

theorem exists_sampleRun : ∃ j', (sample 5).Run sampleCalls j' ∧
    j'.segment.records = [.of headerSize (.sample 5)] := by
  have hcalls : (sampleCalls.foldlM (fun j (call : Call) => call.record? j) (sample 5)).map
      (·.segment.records) = some [LogRecord.of headerSize (.sample 5)] := by decide +kernel
  obtain ⟨j', hj', hrecords⟩ := Option.map_eq_some_iff.mp hcalls
  exact ⟨j', .of_foldlM hj', hrecords⟩

theorem sampleCalls_read_records : ∃ j', (sample 5).Run sampleCalls j' ∧
    j'.session.Reads ⟨1, 5⟩ (.sample 5) ∧ j'.session.Misses ⟨1, 6⟩ := by
  obtain ⟨j', hrun, hrecords⟩ := exists_sampleRun
  have hclear : Call.clear ∉ sampleCalls := by simp [sampleCalls]
  have hlimit : ∀ e ∈ [] ++ sampleCalls.filterMap Call.entry?,
      e.stripped.encodedSize ≤ (SegmentContext.mk "." .strict 64).maxEntrySize := by decide
  have hfits : (fileImage ([] ++ sampleCalls.filterMap Call.entry?)).length <
      Disk.lengthLimit := by
    rw [length_fileImage]
    decide
  obtain ⟨hreads, hmisses⟩ := run_reads_records stores_sample hclear hrun hlimit hfits
  obtain ⟨e, he, -, hread⟩ := hreads 0 _ (by rw [hrecords]; rfl)
  cases he
  exact ⟨j', hrun, hread, hmisses _ (by rw [hrecords]; decide)⟩

end Journal

end SegmentedLog
