import SegmentedLog.Proofs.Acceptance

/-! # Scans of the first bytes of a file

What a scan hands over is determined by the bytes it consumed on the way. So a scan of more bytes,
with a larger limit or a range that ends later, hands over the same entries first, however either of
them ends, and no others if nothing it consumed was missing or refused.
-/

namespace SegmentedLog

open Stepwise

/-- What a reader consumes for one entry: the length as it is written and the data, of which the
entry is the first part. A checksum stands behind them. -/
structure Portion where
  number : Bytes
  data : Bytes
  entry : LogEntry

namespace Portion

def bytes (p : Portion) : Bytes := p.number ++ (p.data ++ Checksum.trailer p.data)

structure Readable (limit : Nat) (p : Portion) : Prop where
  isNumber : Varint.IsNumber p.number
  number_le : p.number.length ≤ Varint.maxSize
  value_eq : Varint.value p.number % UInt64.size = p.data.length
  data_ne : p.data ≠ []
  data_le : p.data.length ≤ limit
  capacity : p.data.length < Reader.capacityLimit
  decode : LogEntry.decode p.data = .ok p.entry

variable {p : Portion} {limit limit' : Nat}

theorem Readable.of_le (h : p.Readable limit) (hle : p.data.length ≤ limit') :
    p.Readable limit' := { h with data_le := hle }

end Portion

/-- Whether a file is the magic, these portions with entries that a scan of the range hands over,
and a tail. -/
structure Starts (range : SegmentRange) (limit : Nat) (content : Bytes) (portions : List Portion)
    (tail : Bytes) : Prop where
  content_eq : content = magic ++ (portions.flatMap Portion.bytes ++ tail)
  readable : ∀ p ∈ portions, p.Readable limit
  consecutive : Consecutive range.start.toNat (portions.map (·.entry.index))
  last : ∀ p ∈ portions, ¬ range.EndsBefore p.entry.index

namespace Reader

variable {r r' : Reader} {range : SegmentRange} {limit : Nat} {rest bytes : Bytes} {p : Portion}
  {e : LogEntry}

theorem next_of_portion (h : r.Awaits range limit (p.bytes ++ rest)) (hp : p.Readable limit)
    (hstart : range.start ≤ p.entry.index) (hlast : ¬ range.EndsBefore p.entry.index) :
    ∃ r', next r = .ok (some p.entry) r' ∧ r'.Awaits range limit rest := by
  rw [Portion.bytes, List.append_assoc, List.append_assoc] at h
  obtain ⟨r', hnext, hr'⟩ := next_numbered h hp.isNumber hp.number_le hp.value_eq hp.data_ne
    hp.data_le hp.capacity
  rw [← hr'.range] at hstart hlast
  exact ⟨_, hnext.trans (accept_admitted hp.decode hstart hlast), hr'.1, hr'.2, hr'.3, hr'.4⟩

theorem portion_of_next (h : r.Awaits range limit bytes) (hnext : next r = .ok (some e) r') :
    ∃ (p : Portion) (rest : Bytes), bytes = p.bytes ++ rest ∧ p.entry = e ∧ p.Readable limit ∧
      r'.Awaits range limit rest := by
  obtain ⟨number, data, hyields⟩ := next_eq_some hnext
  have hne : data ≠ [] := by
    rintro rfl
    cases hyields.decode
  have hreadable : (Portion.mk number data e).Readable limit :=
    ⟨hyields.isNumber, hyields.number_le, hyields.length.symm, hne, h.limit ▸ hyields.limit,
      hyields.capacity, hyields.decode⟩
  have hbytes : bytes = (Portion.mk number data e).bytes ++ r'.source.unread := by
    rw [← h.source.unread, hyields.unread, Portion.bytes, List.append_assoc, List.append_assoc]
  have hstart := hyields.start
  have hlast := hyields.last
  rw [h.range] at hstart hlast
  rw [hbytes] at h
  obtain ⟨t, hagain, ht⟩ := next_of_portion h hreadable hstart hlast
  cases hnext.symm.trans hagain
  exact ⟨_, _, hbytes, rfl, hreadable, ht⟩

end Reader

namespace Scan

variable {r : Reader} {range range' : SegmentRange} {limit limit' k k' : Nat}
  {bytes content tail : Bytes} {portions : List Portion} {path : String}

/-- The entries of portions are handed over one by one, and the scan goes on behind them. -/
theorem ofReader_portions (previous : Option UInt64)
    (h : r.Awaits range limit (portions.flatMap Portion.bytes ++ tail))
    (hreadable : ∀ p ∈ portions, p.Readable limit)
    (hindices : Consecutive (expected range.start previous) (portions.map (·.entry.index)))
    (hstart : range.start.toNat ≤ expected range.start previous)
    (hlast : ∀ p ∈ portions, ¬ range.EndsBefore p.entry.index) :
    ∃ previous' r', ofReader previous r =
        ⟨portions.map (·.entry) ++ (ofReader previous' r').entries,
          (ofReader previous' r').failure⟩ ∧
      expected range.start previous' = expected range.start previous + portions.length ∧
      r'.Awaits range limit tail := by
  have hyielding : ∀ piece ∈ portions.map fun p => (p.bytes, p.entry),
      Yielding range limit piece := by
    rintro _ hpiece
    obtain ⟨p, hp, rfl⟩ := List.mem_map.mp hpiece
    exact fun r rest h hfirst => Reader.next_of_portion h (hreadable p hp) hfirst (hlast p hp)
  have hbytes : r.Awaits range limit
      ((portions.map fun p => (p.bytes, p.entry)).flatMap (·.1) ++ tail) := by
    rwa [List.flatMap_map]
  have hpieces := ofReader_pieces previous hbytes hyielding (by rwa [List.map_map]) hstart
  rwa [List.map_map, List.length_map] at hpieces

/-- What is handed over are the entries of portions, and the scan stops behind them. -/
theorem portions_of_ofReader (previous : Option UInt64) (h : r.Awaits range limit bytes) :
    ∃ (portions : List Portion) (tail : Bytes), bytes = portions.flatMap Portion.bytes ++ tail ∧
      portions.map (·.entry) = (ofReader previous r).entries ∧
      (∀ p ∈ portions, p.Readable limit) ∧
      ∃ previous' r', r'.Awaits range limit tail ∧
        ofReader previous' r' = ⟨[], (ofReader previous r).failure⟩ := by
  fun_induction ofReader previous r generalizing bytes with
  | case1 previous r cause r' hnext =>
    exact ⟨[], bytes, rfl, rfl, by simp, previous, r, h, ofReader_of_error hnext⟩
  | case2 previous r r' hnext =>
    exact ⟨[], bytes, rfl, rfl, by simp, previous, r, h, ofReader_of_none hnext⟩
  | case3 previous r e r' hnext _ cause horder =>
    refine ⟨[], bytes, rfl, rfl, by simp, previous, r, h, ?_⟩
    rw [ofReader_of_some hnext, horder]
    rfl
  | case4 previous r e r' hnext _ horder ih =>
    obtain ⟨p, rest, rfl, rfl, hp, hr'⟩ := Reader.portion_of_next h hnext
    obtain ⟨portions, tail, rfl, hentries, hreadable, hstops⟩ := ih hr'
    refine ⟨p :: portions, tail, ?_, ?_, List.forall_mem_cons.mpr ⟨hp, hreadable⟩, hstops⟩
    · rw [List.flatMap_cons, List.append_assoc]
    · rw [List.map_cons, hentries, cons]

theorem ofSource_starts (path : String) (h : Starts range limit content portions tail) :
    ∃ previous r, ofSource path range limit { pending := content } =
        ⟨portions.map (·.entry) ++ (ofReader previous r).entries,
          (ofReader previous r).failure⟩ ∧
      expected range.start previous = range.start.toNat + portions.length ∧
      r.Awaits range limit tail := by
  obtain ⟨r, hopen, hr⟩ :=
    Reader.openOn_magic path range limit (portions.flatMap Portion.bytes ++ tail)
  rw [ofSource, h.content_eq, hopen]
  exact ofReader_portions none hr h.readable h.consecutive le_rfl h.last

theorem ofSource_of_starts (path : String) (h : Starts range limit content portions tail) :
    portions.map (·.entry) <+: (ofSource path range limit { pending := content }).entries := by
  obtain ⟨previous, r, hscan, -⟩ := ofSource_starts path h
  rw [hscan]
  exact List.prefix_append _ _

/-- A scan of a file with a header hands over the entries of the portions it starts with, and stops
behind them. -/
theorem starts_of_magic (path : String) (range : SegmentRange) (limit : Nat) (body : Bytes) :
    ∃ portions tail, Starts range limit (magic ++ body) portions tail ∧
      portions.map (·.entry) =
        (ofSource path range limit { pending := magic ++ body }).entries ∧
      ∃ previous r, r.Awaits range limit tail ∧ ofReader previous r =
        ⟨[], (ofSource path range limit { pending := magic ++ body }).failure⟩ := by
  obtain ⟨hindices, hlast, -⟩ := ofSource_sound path range limit { pending := magic ++ body }
  obtain ⟨r, hopen, hr⟩ := Reader.openOn_magic path range limit body
  have hscan : ofSource path range limit { pending := magic ++ body } = ofReader none r := by
    rw [ofSource, hopen]
  obtain ⟨portions, tail, rfl, hentries, hreadable, hstops⟩ := portions_of_ofReader none hr
  rw [hscan] at hindices hlast ⊢
  refine ⟨portions, tail, ⟨rfl, hreadable, ?_, fun p hp => ?_⟩, hentries, hstops⟩
  · rw [← hentries, List.map_map] at hindices
    exact hindices
  · refine hlast p.entry ?_
    rw [← hentries]
    exact List.mem_map_of_mem hp

/-- A file that entries are read from starts with their portions. -/
theorem starts_of_ofSource (h : (ofSource path range limit { pending := content }).entries ≠ []) :
    ∃ portions tail, Starts range limit content portions tail ∧
      portions.map (·.entry) = (ofSource path range limit { pending := content }).entries := by
  obtain ⟨body, rfl⟩ : ∃ body, content = magic ++ body := by
    cases hopen : Reader.openOn path range limit { pending := content } with
    | error cause =>
      rw [ofSource, hopen] at h
      exact absurd rfl h
    | ok r =>
      rw [ofSource, hopen] at h
      rcases (Reader.openOn_eq_ok hopen).2 with hdone | hmagic
      · dsimp only at h
        rw [ofReader_of_done hdone] at h
        exact absurd rfl h
      · exact ⟨_, hmagic⟩
  obtain ⟨portions, tail, hstarts, hentries, -⟩ := starts_of_magic path range limit body
  exact ⟨portions, tail, hstarts, hentries⟩

end Scan

structure SegmentRange.EndsBy (range range' : SegmentRange) : Prop where
  start : range.start = range'.start
  last : range'.isOpen = false → range.isOpen = false ∧ range.last ≤ range'.last

theorem SegmentRange.EndsBy.endsBefore {range range' : SegmentRange} {index : UInt64}
    (h : range.EndsBy range') (hindex : range'.EndsBefore index) : range.EndsBefore index := by
  obtain ⟨hclosed, hlast⟩ := h.last hindex.1
  exact ⟨hclosed, UInt64.lt_of_le_of_lt hlast hindex.2⟩

namespace Starts

variable {range range' : SegmentRange} {limit limit' k k' : Nat} {f content tail : Bytes}
  {portions : List Portion}

theorem grow (h : Starts range limit (f.take k) portions tail) (hk : k ≤ k')
    (hlimit : limit ≤ limit') (hrange : range.EndsBy range') :
    ∃ tail', Starts range' limit' (f.take k') portions tail' := by
  obtain ⟨more, hmore⟩ : f.take k <+: f.take k' := List.take_prefix_take_left hk
  refine ⟨tail ++ more, ?_, fun p hp => ?_, ?_, fun p hp hends => ?_⟩
  · rw [← hmore, h.content_eq]
    simp only [List.append_assoc]
  · exact (h.readable p hp).of_le ((h.readable p hp).data_le.trans hlimit)
  · rw [← hrange.start]
    exact h.consecutive
  · exact h.last p hp (hrange.endsBefore hends)

theorem shrink (h : Starts range' limit' (f.take k') portions tail) (hk : k ≤ k')
    (hreach : headerSize + (portions.flatMap Portion.bytes).length ≤ k)
    (hrange : range.EndsBy range')
    (hfits : ∀ p ∈ portions, p.data.length ≤ limit ∧ ¬ range.EndsBefore p.entry.index) :
    ∃ tail', Starts range limit (f.take k) portions tail' := by
  refine ⟨tail.take (k - (headerSize + (portions.flatMap Portion.bytes).length)), ?_,
    fun p hp => (h.readable p hp).of_le (hfits p hp).1, ?_, fun p hp => (hfits p hp).2⟩
  · have hcut : f.take k = (f.take k').take k := by rw [List.take_take, Nat.min_eq_left hk]
    have hmagic : magic.length = headerSize := rfl
    rw [hcut, h.content_eq, List.take_append, List.take_append, hmagic,
      List.take_of_length_le (by omega), List.take_of_length_le (by omega), Nat.sub_sub]
  · rw [hrange.start]
    exact h.consecutive

end Starts

/-- A scan of the first bytes of a file hands over what a scan of more of them hands over first,
where its limit and range admit no more than those of the other. The other one consumed portions at
the start of the file; if the scan gets to see all of them and may take them, it hands over the same
entries. -/
theorem Disk.scan_monotone {disk disk' : Disk} {path path' : String} {id id' : FileId}
    {range range' : SegmentRange} {limit limit' k k' : Nat} {f : Bytes}
    (hfind : disk.find path = .ok (.file id)) (hcontent : disk.content id = f.take k)
    (hfind' : disk'.find path' = .ok (.file id')) (hcontent' : disk'.content id' = f.take k')
    (hk : k ≤ k') (hlimit : limit ≤ limit') (hrange : range.EndsBy range') :
    (disk.scan path range limit).entries <+: (disk'.scan path' range' limit').entries ∧
    ((disk'.scan path' range' limit').entries ≠ [] →
      ∃ portions tail, Starts range' limit' (f.take k') portions tail ∧
        portions.map (·.entry) = (disk'.scan path' range' limit').entries) ∧
    ∀ portions tail, Starts range' limit' (f.take k') portions tail →
      portions.map (·.entry) = (disk'.scan path' range' limit').entries →
      headerSize + (portions.flatMap Portion.bytes).length ≤ k →
      (∀ p ∈ portions, p.data.length ≤ limit ∧ ¬ range.EndsBefore p.entry.index) →
      (disk.scan path range limit).entries = (disk'.scan path' range' limit').entries := by
  rw [scan_of_find _ _ hfind, hcontent, scan_of_find _ _ hfind', hcontent']
  have hfront : (Scan.ofSource path range limit { pending := f.take k }).entries <+:
      (Scan.ofSource path' range' limit' { pending := f.take k' }).entries := by
    by_cases hne : (Scan.ofSource path range limit { pending := f.take k }).entries = []
    · rw [hne]
      exact List.nil_prefix
    · obtain ⟨portions, tail, hstarts, hentries⟩ := Scan.starts_of_ofSource hne
      obtain ⟨tail', hstarts'⟩ := hstarts.grow hk hlimit hrange
      rw [← hentries]
      exact Scan.ofSource_of_starts path' hstarts'
  refine ⟨hfront, Scan.starts_of_ofSource, fun portions tail hstarts hentries hreach hfits => ?_⟩
  obtain ⟨tail', hstarts'⟩ := hstarts.shrink hk hreach hrange hfits
  have hback := Scan.ofSource_of_starts path hstarts'
  rw [hentries] at hback
  exact hfront.eq_of_length_le hback.length_le

/-- The image of two entries, cut within the second frame, and read with the least limit and up to
the first entry, begins like the whole image. -/
theorem Disk.scan_of_cut_image :
    ((Host.singleFile ((fileImage [.sample 5, .sample 6]).take 60)).disk.scan "log"
      (.closed 5 5) 31).entries <+:
    ((Host.singleFile (fileImage [.sample 5, .sample 6])).disk.scan "log"
      (.opening 5) 64).entries := by
  have hwhole : fileImage [.sample 5, .sample 6] = (fileImage [.sample 5, .sample 6]).take
      (60 + (fileImage [.sample 5, .sample 6]).length) :=
    (List.take_of_length_le (Nat.le_add_left _ 60)).symm
  have hrange : (SegmentRange.closed 5 5).EndsBy (.opening 5) :=
    ⟨rfl, fun hclosed => absurd hclosed (by decide)⟩
  have hlimit : 31 ≤ 64 := by decide
  exact (scan_monotone (Host.singleFile_hasFile _).find rfl (Host.singleFile_hasFile _).find hwhole
    (Nat.le_add_right 60 _) hlimit hrange).1

end SegmentedLog
