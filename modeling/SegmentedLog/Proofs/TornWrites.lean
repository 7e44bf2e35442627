import SegmentedLog.Proofs.RoundTrip

/-! # Files that break off

A crash may leave any prefix of what was written. The whole frames in it are read back; whether the
rest is accepted is up to the policy, unless there is none. Once the rest is cut off, writing goes
on as if the crash had not been.
-/

namespace SegmentedLog

open Stepwise

def wholeFrames (k : Nat) (entries : List LogEntry) : Nat :=
  Nat.count (fun j => (fileImage (entries.take (j + 1))).length ≤ k) entries.length

/-- Whether the first `k` bytes of an image end with the header or a frame. -/
def OnBoundary (k : Nat) (entries : List LogEntry) : Prop :=
  ∃ j ≤ entries.length, k = (fileImage (entries.take j)).length

instance (k : Nat) (entries : List LogEntry) : Decidable (OnBoundary k entries) :=
  inferInstanceAs (Decidable (∃ j ≤ entries.length, _))

variable {entries : List LogEntry} {k : Nat}

/-! ## Where a cut falls -/

/-- Of numbers that do not go down, those up to a bound come first. -/
theorem count_le_of_monotone {f : Nat → Nat} (hf : Monotone f) (k n : Nat) :
    (∀ j < Nat.count (f · ≤ k) n, f j ≤ k) ∧
      ∀ j, Nat.count (f · ≤ k) n ≤ j → j < n → k < f j := by
  induction n with
  | zero => simp
  | succ n ih =>
    rcases ih with ⟨hbelow, habove⟩
    rw [Nat.count_succ]
    by_cases hn : f n ≤ k
    · have hall : Nat.count (f · ≤ k) n = n := by
        refine le_antisymm (Nat.count_le _) (not_lt.mp fun hlt => ?_)
        exact absurd (habove _ le_rfl hlt) (not_lt.mpr ((hf hlt.le).trans hn))
      rw [if_pos hn, hall]
      refine ⟨fun j hj => (hf (by omega)).trans hn, fun j hj hlt => by omega⟩
    · rw [if_neg hn, Nat.add_zero]
      refine ⟨hbelow, fun j hj hlt => ?_⟩
      rcases Nat.lt_succ_iff_lt_or_eq.mp hlt with hlt | rfl
      · exact habove j hj hlt
      · exact not_le.mp hn

theorem length_fileImage_take_mono (entries : List LogEntry) :
    Monotone fun j => (fileImage (entries.take j)).length := by
  intro i j hij
  have hsplit : fileImage (entries.take j) =
      fileImage (entries.take i) ++ ((entries.take j).drop i).flatMap Frame.ofEntry := by
    rw [← fileImage_append]
    conv_lhs => rw [← List.take_append_drop i (entries.take j), List.take_take, Nat.min_eq_left hij]
  dsimp only
  rw [hsplit, List.length_append]
  exact Nat.le_add_right _ _

theorem length_ofEntry_pos (e : LogEntry) : 0 < (Frame.ofEntry e).length := by
  have hpos := LogEntry.encodedSize_pos e.stripped
  rw [Frame.length_ofEntry, LogEntry.footprint, frameSize]
  omega

theorem length_fileImage_take_succ (hk : k < entries.length) :
    (fileImage (entries.take (k + 1))).length =
      (fileImage (entries.take k)).length + (Frame.ofEntry entries[k]).length := by
  rw [List.take_succ_eq_append_getElem hk, fileImage_append, List.length_append]
  simp

theorem wholeFrames_le (k : Nat) (entries : List LogEntry) :
    wholeFrames k entries ≤ entries.length := Nat.count_le _

theorem wholeFrames_spec (k : Nat) (entries : List LogEntry) :
    (∀ j < wholeFrames k entries, (fileImage (entries.take (j + 1))).length ≤ k) ∧
      ∀ j, wholeFrames k entries ≤ j → j < entries.length →
        k < (fileImage (entries.take (j + 1))).length :=
  count_le_of_monotone (fun _ _ hij => length_fileImage_take_mono entries (Nat.succ_le_succ hij))
    k entries.length

theorem length_wholeFrames_le (hheader : headerSize ≤ k) :
    (fileImage (entries.take (wholeFrames k entries))).length ≤ k := by
  cases hm : wholeFrames k entries with
  | zero => exact hheader
  | succ m => exact (wholeFrames_spec k entries).1 m (by omega)

theorem wholeFrames_of_short (h : k < headerSize) : wholeFrames k entries = 0 := by
  by_contra hne
  have hfirst := (wholeFrames_spec k entries).1 0 (Nat.pos_of_ne_zero hne)
  have hheader := headerSize_le_fileImage (entries.take (0 + 1))
  omega

theorem take_wholeFrames_ne_nil (h : wholeFrames k entries ≠ 0) :
    entries.take (wholeFrames k entries) ≠ [] := by
  intro hnil
  rw [List.take_eq_nil_iff] at hnil
  rcases hnil with hzero | hnil
  · exact h hzero
  · apply h
    rw [hnil]
    rfl

/-- A cut on a boundary is one behind the last whole frame. -/
theorem onBoundary_iff (entries : List LogEntry) (hheader : headerSize ≤ k) : OnBoundary k entries ↔
    k = (fileImage (entries.take (wholeFrames k entries))).length := by
  constructor
  · rintro ⟨j, hj, hk⟩
    have hlast : (fileImage (entries.take (wholeFrames k entries))).length ≤ k :=
      length_wholeFrames_le hheader
    rcases lt_trichotomy j (wholeFrames k entries) with hlt | heq | hgt
    · have hj : j < entries.length := lt_of_lt_of_le hlt (wholeFrames_le k entries)
      have hnext := length_fileImage_take_succ hj
      have hframe := length_ofEntry_pos entries[j]
      have hspec := (wholeFrames_spec k entries).1 j hlt
      omega
    · rw [← heq]
      exact hk
    · have hspec := (wholeFrames_spec k entries).2 _ le_rfl (by omega)
      have hmono : (fileImage (entries.take (wholeFrames k entries + 1))).length ≤
          (fileImage (entries.take j)).length :=
        length_fileImage_take_mono entries (Nat.succ_le_of_lt hgt)
      omega
  · intro hk
    exact ⟨_, wholeFrames_le k entries, hk⟩

/-- What a cut leaves of an image: the whole frames, and the start of the next one. -/
theorem take_fileImage (hheader : headerSize ≤ k) : (fileImage entries).take k =
    fileImage (entries.take (wholeFrames k entries)) ++
      ((entries.drop (wholeFrames k entries)).flatMap Frame.ofEntry).take
        (k - (fileImage (entries.take (wholeFrames k entries))).length) := by
  have himage : fileImage entries = fileImage (entries.take (wholeFrames k entries)) ++
      (entries.drop (wholeFrames k entries)).flatMap Frame.ofEntry := by
    rw [← fileImage_append, List.take_append_drop]
  conv_lhs => rw [himage]
  rw [List.take_append, List.take_of_length_le (length_wholeFrames_le hheader)]

/-! ## What is read back -/

/-- How a scan of a file that breaks off ends: well on a boundary, else with corruption. -/
def EndsTorn (k : Nat) (entries : List LogEntry) (failure : Option Failure) : Prop :=
  ((k < headerSize ∨ OnBoundary k entries) ∧ failure = none) ∨
    (¬ (k < headerSize ∨ OnBoundary k entries) ∧
      ∃ cause, failure = some (.error (.corruption cause)))

def AcceptsTorn (policy : CorruptionPolicy) (k : Nat) (entries : List LogEntry) : Prop :=
  policy = .tolerant ∨ k < headerSize ∨ OnBoundary k entries

instance (policy : CorruptionPolicy) (k : Nat) (entries : List LogEntry) :
    Decidable (AcceptsTorn policy k entries) :=
  inferInstanceAs (Decidable (_ ∨ _ ∨ _))

theorem EndsTorn.settle_of_accepts {failure : Option Failure} {policy : CorruptionPolicy}
    (h : EndsTorn k entries failure) (haccepts : AcceptsTorn policy k entries)
    (read : List LogEntry) : (⟨read, failure⟩ : Scan).settle policy = .ok read.length := by
  rcases h with ⟨-, rfl⟩ | ⟨hcut, cause, rfl⟩
  · rfl
  · rcases haccepts with rfl | haccepts
    · rfl
    · exact absurd haccepts hcut

theorem EndsTorn.settle_of_not_accepts {failure : Option Failure} {policy : CorruptionPolicy}
    (h : EndsTorn k entries failure) (hrefuses : ¬ AcceptsTorn policy k entries)
    (read : List LogEntry) :
    ∃ cause, (⟨read, failure⟩ : Scan).settle policy = .error (.error (.corruption cause)) := by
  rcases h with ⟨hwell, -⟩ | ⟨-, cause, rfl⟩
  · exact absurd (.inr hwell) hrefuses
  · cases policy with
    | strict => exact ⟨cause, rfl⟩
    | tolerant => exact absurd (.inl rfl) hrefuses

namespace Disk

variable {disk : Disk} {path : String} {id : FileId} {range : SegmentRange} {limit : Nat}

theorem scan_torn (range : SegmentRange) (hfile : disk.HasFile path id)
    (hcontent : disk.content id = (fileImage entries).take k)
    (hk : k ≤ (fileImage entries).length) (hopen : range.isOpen = true)
    (htakes : ∀ e ∈ entries, Reader.Takes limit e)
    (hindices : Consecutive range.start.toNat (entries.map (·.index))) :
    ∃ failure, disk.scan path range limit =
        ⟨(entries.take (wholeFrames k entries)).map (·.stripped), failure⟩ ∧
      EndsTorn k entries failure := by
  have hscan : disk.scan path range limit =
      Scan.ofSource path range limit { pending := (fileImage entries).take k } := by
    rw [scan_of_find range limit hfile.find, hcontent]
  rw [hscan]
  by_cases hheader : k < headerSize
  · have hshort : ((fileImage entries).take k).length < headerSize := by
      rw [List.length_take]
      omega
    refine ⟨none, ?_, .inl ⟨.inl hheader, rfl⟩⟩
    rw [wholeFrames_of_short hheader, Scan.ofSource_short path range limit hshort]
    rfl
  · have hheader' : headerSize ≤ k := not_lt.mp hheader
    have hlast : (fileImage (entries.take (wholeFrames k entries))).length ≤ k :=
      length_wholeFrames_le hheader'
    have hnext := (wholeFrames_spec k entries).2 _ le_rfl
    have hboundary := onBoundary_iff entries hheader'
    have hle := wholeFrames_le k entries
    rw [take_fileImage hheader']
    generalize wholeFrames k entries = m at *
    have htakes' : ∀ e ∈ entries.take m, Reader.Takes limit e :=
      fun e he => htakes e (List.mem_of_mem_take he)
    have hindices' : Consecutive range.start.toNat ((entries.take m).map (·.index)) := by
      rw [List.map_take]
      exact hindices.take m
    have hadmitted : ∀ e ∈ entries.take m, ¬ range.EndsBefore e.index := by
      intro e _ hends
      exact absurd hends.1 (by simp [hopen])
    by_cases hwhole : k = (fileImage (entries.take m)).length
    · refine ⟨none, ?_, .inl ⟨.inr (hboundary.mpr hwhole), rfl⟩⟩
      rw [← hwhole, Nat.sub_self, List.take_zero]
      exact Scan.ofSource_zeros htakes' hindices' hadmitted path 0
    · have hlt : m < entries.length := by
        by_contra hall
        apply hwhole
        rw [List.take_of_length_le (not_lt.mp hall)] at hlast ⊢
        omega
      have hframe := length_fileImage_take_succ hlt
      have hcut := hnext hlt
      obtain ⟨cause, htorn⟩ := Scan.ofSource_torn htakes' hindices' hadmitted path
        (htakes _ (List.getElem_mem hlt))
        (k := k - (fileImage (entries.take m)).length) (by omega) (by omega)
      refine ⟨_, ?_, .inr ⟨?_, cause, rfl⟩⟩
      · rw [List.drop_eq_getElem_cons hlt, List.flatMap_cons,
          List.take_append_of_le_length (by omega)]
        exact htorn
      · rintro (hshort | hon)
        · exact hheader hshort
        · exact hwhole (hboundary.mp hon)

end Disk

namespace Host

variable {host after : Host} {path : String} {runs : List (SyncPolicy × List LogEntry)}
  {start : UInt64} {context : SegmentContext} {seg : Segment} {id : FileId}

/-- Whether writing goes on behind a segment of `entries`: a writer opens its file at the offset the
segment accounts for, and whatever is written there is read back behind the entries. -/
def GoesOn (context : SegmentContext) (path : String) (start : UInt64) (entries : List LogEntry)
    (seg : Segment) (after : Host) : Prop :=
  (∀ sync, ∃ w, Writer.openOn path sync after.disk = .ok w after.disk ∧
    w.position = seg.fileSize) ∧
  ∀ (runs : List (SyncPolicy × List LogEntry)) (more : List LogEntry) (keep : Bool),
    runs.flatMap (·.2) = more →
    Consecutive (start.toNat + entries.length) (more.map (·.index)) →
    (∀ e ∈ more, e.index.toNat + 1 < UInt64.size) →
    (∀ e ∈ more, e.stripped.encodedSize ≤ context.maxEntrySize) →
    (fileImage (entries ++ more)).length < Disk.lengthLimit →
    ∃ grown seg' after', Writer.sessions path runs after.disk = .ok () grown ∧
      loadSegment context path (.opening start) keep { after with disk := grown } =
        .ok (some seg') after' ∧
      seg'.Mirrors start (entries ++ more) ∧
      after'.disk.read path = .ok (fileImage (entries ++ more))

theorem goesOn_of_content (hfile : after.disk.HasFile path id)
    (hcontent : after.disk.content id = fileImage entries)
    (hsize : seg.fileSize = (fileImage entries).length) (hne : entries ≠ [])
    (hindices : Consecutive start.toNat (entries.map (·.index)))
    (hbound : ∀ e ∈ entries, e.index.toNat + 1 < UInt64.size)
    (hlimit : ∀ e ∈ entries, e.stripped.encodedSize ≤ context.maxEntrySize) :
    GoesOn context path start entries seg after := by
  have hheader : headerSize ≤ (after.disk.content id).length := by
    rw [hcontent]
    exact headerSize_le_fileImage entries
  refine ⟨fun sync => ?_, fun runs more keep hsplit hmore hmoreBound hmoreLimit hfits => ?_⟩
  · obtain ⟨w, hopen, hposition, -⟩ := Writer.openOn_of_file hfile hheader sync
    exact ⟨w, hopen, by rw [hposition, hcontent, hsize]⟩
  · have hsessions := Writer.sessions_of_file hfile hheader runs
    rw [hsplit, hcontent, ← fileImage_append] at hsessions
    have hgrown := hfile.setContent (fileImage (entries ++ more))
    have hwritten := Disk.content_setContent hfile.bound (fileImage (entries ++ more))
    have hall {P : LogEntry → Prop} (hentries : ∀ e ∈ entries, P e) (hmore : ∀ e ∈ more, P e) :
        ∀ e ∈ entries ++ more, P e := by
      intro e he
      rcases List.mem_append.mp he with he | he
      · exact hentries e he
      · exact hmore e he
    obtain ⟨-, seg', after', hload, hrestores⟩ := loadSegment_of_content
      (.opening start) { after with disk := after.disk.setContent id (fileImage (entries ++ more)) }
      keep (z := 0) hgrown
      (by rw [hwritten]; simp) (by simp [hne]) (by simp [SegmentRange.Proper, SegmentRange.opening])
      (by
        rw [List.map_append, Consecutive.append_iff, List.length_map]
        exact ⟨hindices, hmore⟩)
      (hall hbound hmoreBound) (hall hlimit hmoreLimit) hfits
    change Restores _ id _ keep ((entries ++ more).take (entries ++ more).length) seg' after'
      at hrestores
    rw [List.take_length] at hrestores
    exact ⟨_, seg', after', hsessions, hload, hrestores.mirrors (by simp [hne]),
      hrestores.read hgrown⟩

/-- However a file of written entries breaks off, a policy that accepts the rest gets the segment of
the whole frames, or no segment and no file if there are none, and writing can go on. A rest that is
not accepted is reported as corruption and stays where it is. -/
theorem loadSegment_of_torn (hdisk : host.disk.WellFormed) (hblank : host.disk.Blank path)
    (hruns : runs ≠ []) (hsplit : runs.flatMap (·.2) = entries)
    (hindices : Consecutive start.toNat (entries.map (·.index)))
    (hbound : ∀ e ∈ entries, e.index.toNat + 1 < UInt64.size)
    (hlimit : ∀ e ∈ entries, e.stripped.encodedSize ≤ context.maxEntrySize)
    (hfits : (fileImage entries).length < Disk.lengthLimit) (hk : k ≤ (fileImage entries).length)
    (keep : Bool) :
    ∃ written torn, Writer.sessions path runs host.disk = .ok () written ∧
      Disk.setLength path k written = .ok () torn ∧
      torn.read path = .ok ((fileImage entries).take k) ∧
      if AcceptsTorn context.policy k entries then
        if wholeFrames k entries = 0 then
          ∃ after, loadSegment context path (.opening start) keep { host with disk := torn } =
            .ok none after ∧ after.disk.find path = .error .notFound
        else
          ∃ seg after, loadSegment context path (.opening start) keep { host with disk := torn } =
              .ok (some seg) after ∧
            seg.Mirrors start (entries.take (wholeFrames k entries)) ∧
            after.disk.read path = .ok (fileImage (entries.take (wholeFrames k entries))) ∧
            GoesOn context path start (entries.take (wholeFrames k entries)) seg after
      else
        ∃ cause after, loadSegment context path (.opening start) keep { host with disk := torn } =
          .error (.error (.corruption cause)) after ∧ after.disk = torn := by
  obtain ⟨id, blank, hfile, hsessions⟩ := Writer.sessions_of_blank hdisk hblank hruns
  rw [hsplit] at hsessions
  have hcut : Disk.setLength path k (blank.setContent id (fileImage entries)) =
      .ok () (blank.setContent id ((fileImage entries).take k)) := by
    rw [Disk.setLength_of_file (hfile.setContent _).find (by omega),
      Disk.resize_of_le (by rw [Disk.content_setContent hfile.bound]; exact hk),
      Disk.content_setContent hfile.bound, Disk.setContent_setContent]
  refine ⟨_, _, hsessions, hcut, hfile.read, ?_⟩
  have htorn := hfile.setContent ((fileImage entries).take k)
  have hcontent := Disk.content_setContent hfile.bound ((fileImage entries).take k)
  generalize blank.setContent id ((fileImage entries).take k) = torn at *
  obtain ⟨failure, hscan, hends⟩ := Disk.scan_torn (.opening start) htorn hcontent hk rfl
    (takes_of_fits hlimit hfits) hindices
  have hproper : (SegmentRange.opening start).Proper := nofun
  have hmem : ∀ e ∈ entries.take (wholeFrames k entries), e ∈ entries :=
    fun e he => List.mem_of_mem_take he
  have hindices' : Consecutive start.toNat
      ((entries.take (wholeFrames k entries)).map (·.index)) := by
    rw [List.map_take]
    exact hindices.take _
  have hbound' := fun e he => hbound e (hmem e he)
  split
  · next haccepts =>
    have hsettle := hends.settle_of_accepts haccepts
    split
    · next hzero =>
      exact loadSegment_of_nothing { host with disk := torn } keep hproper hscan hindices' hbound'
        (by rw [hzero, List.take_zero]) (hsettle _) htorn
    · next hsome =>
      have hheader : headerSize ≤ k := not_lt.mp fun hshort => hsome (wholeFrames_of_short hshort)
      have hlast : (fileImage (entries.take (wholeFrames k entries))).length ≤ k :=
        length_wholeFrames_le hheader
      have htaken := take_wholeFrames_ne_nil hsome
      rw [take_fileImage hheader] at hcontent
      obtain ⟨seg, after, hload, hrestores⟩ := loadSegment_of_image { host with disk := torn } keep
        hproper hscan hindices' hbound' htaken (hsettle _) htorn hcontent (by omega)
      have hafter : after.disk = torn.setContent id _ := hrestores.disk
      have hmirrors := hrestores.mirrors htaken
      refine ⟨seg, after, hload, hmirrors, hrestores.read htorn, ?_⟩
      exact goesOn_of_content (by rw [hafter]; exact htorn.setContent _)
        (by rw [hafter]; exact Disk.content_setContent htorn.bound _) hmirrors.fileSize htaken
        hindices' hbound' fun e he => hlimit e (hmem e he)
  · next hrefuses =>
    obtain ⟨cause, hsettle⟩ := hends.settle_of_not_accepts hrefuses
      ((entries.take (wholeFrames k entries)).map (·.stripped))
    obtain ⟨after, hload, hafter⟩ := loadSegment_of_refusal { host with disk := torn } keep hproper
      hscan hindices' hbound' hsettle
    exact ⟨cause, after, hload, hafter⟩

/-- A file of two entries that breaks off inside the second. -/
theorem loadSegment_of_torn_second : ∃ written torn seg after,
    Writer.sessions "log" [(.everyWrite, [.sample 5, .sample 6])] {} = .ok () written ∧
    Disk.setLength "log" 50 written = .ok () torn ∧
    loadSegment ⟨"data", .tolerant, 64⟩ "log" (.opening 5) false { disk := torn } =
      .ok (some seg) after ∧
    seg.Mirrors 5 [.sample 5] ∧ GoesOn ⟨"data", .tolerant, 64⟩ "log" 5 [.sample 5] seg after := by
  have hdisk : ({} : Host).disk.WellFormed := Disk.wellFormed_empty
  have hblank : ({} : Host).disk.Blank "log" := .inr Disk.vacant_empty
  have hruns : [(SyncPolicy.everyWrite, [LogEntry.sample 5, .sample 6])] ≠ [] := by simp
  have hsplit : [(SyncPolicy.everyWrite, [LogEntry.sample 5, .sample 6])].flatMap (·.2) =
      [.sample 5, .sample 6] := rfl
  have hindices : Consecutive (5 : UInt64).toNat
      ([LogEntry.sample 5, .sample 6].map (·.index)) := by decide
  have hlimit : ∀ e ∈ [LogEntry.sample 5, .sample 6],
      e.stripped.encodedSize ≤ (SegmentContext.mk "data" .tolerant 64).maxEntrySize := by decide
  have hframes : wholeFrames 50 [.sample 5, .sample 6] = 1 := by
    simp only [wholeFrames, length_fileImage]
    decide
  obtain ⟨written, torn, hwritten, hcut, -, hload⟩ := loadSegment_of_torn (k := 50) hdisk hblank
    hruns hsplit hindices (by decide) hlimit (by rw [length_fileImage]; decide)
    (by rw [length_fileImage]; decide) false
  rw [if_pos (.inl rfl), if_neg (by rw [hframes]; decide), hframes] at hload
  rcases hload with ⟨seg, after, hload, hmirrors, -, hgoesOn⟩
  exact ⟨written, torn, seg, after, hwritten, hcut, hload, hmirrors, hgoesOn⟩

end Host

end SegmentedLog
