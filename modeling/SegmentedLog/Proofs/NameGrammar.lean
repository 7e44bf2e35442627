import SegmentedLog.Proofs.FileNames

/-! # The grammar of file names

A name stands for an open range if a number follows its mark, and for a closed one if two numbers in
order do, with a dash between them. A number may have a plus sign and leading zeros, so a range has
other names beside its own; but from its own name, in whatever directory, it is read back.
-/

namespace SegmentedLog

namespace Decimal

/-- Whether characters write a number: one or more digits, behind an optional plus sign. -/
def Writes (cs : List Char) (n : UInt64) : Prop := ∃ digits : List Char,
  (cs = digits ∨ cs = '+' :: digits) ∧ digits ≠ [] ∧ (∀ c ∈ digits, c.isDigit) ∧
    Nat.ofDigitChars 10 digits 0 = n.toNat

variable {cs : List Char} {c : Char} {value value' : Nat} {n : UInt64}

theorem isDigit_of_digit? {d : Nat} (h : digit? c = some d) : c.isDigit := by
  unfold digit? at h
  split at h
  · next hbounds => simpa [Char.isDigit, Char.le_def] using hbounds
  · cases h

theorem valueFrom_eq_some_iff : valueFrom value cs = some value' ↔
    (∀ c ∈ cs, c.isDigit) ∧ Nat.ofDigitChars 10 cs value = value' := by
  constructor
  · intro h
    have hdigits : ∀ c ∈ cs, c.isDigit := by
      induction cs generalizing value with
      | nil => simp
      | cons c cs ih =>
        obtain ⟨d, hd, hrest⟩ := Option.bind_eq_some_iff.mp h
        exact List.forall_mem_cons.mpr ⟨isDigit_of_digit? hd, ih hrest⟩
    rw [valueFrom_of_digits hdigits] at h
    exact ⟨hdigits, Option.some.inj h⟩
  · rintro ⟨hdigits, rfl⟩
    exact valueFrom_of_digits hdigits

theorem unsigned?_eq_some_iff : unsigned? cs = some value ↔
    cs ≠ [] ∧ (∀ c ∈ cs, c.isDigit) ∧ Nat.ofDigitChars 10 cs 0 = value := by
  cases cs with
  | nil => simp [unsigned?]
  | cons c cs =>
    rw [unsigned?, valueFrom_eq_some_iff]
    · simp
    · simp

/-- The value of an unsigned number is read if it has no more than 64 bits. -/
theorem ofValue_eq_some_iff :
    (if value < UInt64.size then some (UInt64.ofNat value) else none) = some n ↔
      value = n.toNat := by
  constructor
  · intro h
    split at h
    · next hlt =>
      cases h
      exact (UInt64.toNat_ofNat_of_lt hlt).symm
    · cases h
  · rintro rfl
    rw [if_pos n.toNat_lt, UInt64.ofNat_toNat]

theorem parse?_eq_some_iff : parse? cs = some n ↔ Writes cs n := by
  have hparse : parse? cs = some n ↔
      unsigned? (if cs.head? = some '+' then cs.tail else cs) = some n.toNat := by
    unfold parse?
    simp only [Option.bind_eq_bind, Option.bind_eq_some_iff, ofValue_eq_some_iff, exists_eq_right]
  rw [hparse, unsigned?_eq_some_iff]
  constructor
  · intro h
    split at h
    · next hplus =>
      obtain ⟨digits, rfl⟩ := List.head?_eq_some_iff.mp hplus
      exact ⟨digits, .inr rfl, h⟩
    · exact ⟨cs, .inl rfl, h⟩
  · rintro ⟨digits, rfl | rfl, hdigits⟩
    · rw [if_neg]
      · exact hdigits
      · intro hplus
        have hdigit := hdigits.2.1 '+' (List.mem_of_head? hplus)
        cases hdigit
    · exact hdigits

theorem Writes.mem (h : Writes cs n) (hc : c ∈ cs) : c = '+' ∨ c.isDigit := by
  obtain ⟨digits, rfl | rfl, -, hdigits, -⟩ := h
  · exact .inr (hdigits c hc)
  · rcases List.mem_cons.mp hc with hplus | hc
    · exact .inl hplus
    · exact .inr (hdigits c hc)

theorem Writes.not_mem (h : Writes cs n) (hplus : c ≠ '+') (hdigit : c.isDigit = false) :
    c ∉ cs := by
  intro hc
  rcases h.mem hc with heq | hdigit'
  · exact hplus heq
  · rw [hdigit] at hdigit'
    cases hdigit'

theorem Writes.ne_nil (h : Writes cs n) : cs ≠ [] := by
  obtain ⟨digits, rfl | rfl, hne, -⟩ := h
  · exact hne
  · exact List.cons_ne_nil _ _

end Decimal

namespace Path

variable {name : String}

theorem name?_join (dir : String) (h : Plain name) : name? (join dir name) = some name := by
  have hlast : (components (join dir name)).getLast? = some name := by
    have hdot : name ≠ "." := fun hdot => h.dots (.inl hdot)
    rw [components, names_join dir h]
    simp [hdot]
  unfold name?
  rw [hlast]
  split
  · next hup => exact absurd (.inr (Option.some.inj hup)) h.dots
  · rfl

end Path

namespace SegmentRange

variable {name : String} {range range' : SegmentRange} {cs ds : List Char} {start last : UInt64}

/-- The names that stand for a range. -/
inductive Denotes : String → SegmentRange → Prop
  | opening (number : String) (start : UInt64) :
    Decimal.Writes number.toList start → Denotes ("log_inprogress_" ++ number) (.opening start)
  | closed (first second : String) (start last : UInt64) :
    Decimal.Writes first.toList start → Decimal.Writes second.toList last → start ≤ last →
      Denotes ("log_" ++ first ++ "-" ++ second) (.closed start last)

def Canonical (range : SegmentRange) : Prop :=
  range = .opening range.start ∨ range = .closed range.start range.last ∧ range.start ≤ range.last

theorem parseClosed?_eq_some_iff : parseClosed? cs = some range ↔ ∃ first second start last,
    cs = first ++ '-' :: second ∧ Decimal.Writes first start ∧ Decimal.Writes second last ∧
      start ≤ last ∧ range = .closed start last := by
  unfold parseClosed?
  constructor
  · intro h
    obtain ⟨⟨first, second⟩, hdash, h⟩ := Option.bind_eq_some_iff.mp h
    obtain ⟨start, hstart, h⟩ := Option.bind_eq_some_iff.mp h
    obtain ⟨last, hlast, h⟩ := Option.bind_eq_some_iff.mp h
    split at h
    · next hle =>
      cases h
      exact ⟨first, second, start, last, splitDash?_eq_some hdash,
        Decimal.parse?_eq_some_iff.mp hstart, Decimal.parse?_eq_some_iff.mp hlast, hle, rfl⟩
    · cases h
  · rintro ⟨first, second, start, last, rfl, hstart, hlast, hle, rfl⟩
    rw [splitDash?_append (hstart.not_mem (by decide) (by decide))]
    change (Decimal.parse? first >>= fun start => Decimal.parse? second >>= fun last => _) = _
    rw [Decimal.parse?_eq_some_iff.mpr hstart, Decimal.parse?_eq_some_iff.mpr hlast]
    exact if_pos hle

/-- The name of a closed range does not have the mark of open ones: a sign or a digit stands where
that mark goes on. -/
theorem dropMark?_open_of_writes (h : Decimal.Writes cs start) :
    dropMark? openMark (closedMark ++ (cs ++ ds)) = none := by
  rw [Option.eq_none_iff_forall_ne_some]
  intro rest hrest
  obtain ⟨c, cs', hcs⟩ := List.exists_cons_of_ne_nil h.ne_nil
  rw [dropMark?_eq_some, hcs] at hrest
  have hi : c = 'i' := Option.some.inj (congrArg (·[4]?) hrest)
  exact h.not_mem (c := 'i') (by decide) (by decide) (by simp [hcs, hi])

theorem toList_open (number : String) :
    ("log_inprogress_" ++ number).toList = openMark ++ number.toList := String.toList_append

theorem toList_closed (first second : String) : ("log_" ++ first ++ "-" ++ second).toList =
    closedMark ++ (first.toList ++ '-' :: second.toList) := by
  simp only [String.toList_append, List.append_assoc]
  rfl

theorem parse?_eq_some_iff : parse? name = some range ↔ Denotes name range := by
  unfold parse?
  constructor
  · intro h
    unfold parseChars? at h
    split at h
    · next number hmark =>
      obtain ⟨start, hstart, rfl⟩ := Option.map_eq_some_iff.mp h
      have hname : name = "log_inprogress_" ++ String.ofList number := by
        rw [← String.toList_inj, toList_open, dropMark?_eq_some.mp hmark, String.toList_ofList]
      rw [hname]
      refine .opening _ start ?_
      rwa [String.toList_ofList, ← Decimal.parse?_eq_some_iff]
    · obtain ⟨numbers, hmark, hclosed⟩ := Option.bind_eq_some_iff.mp h
      obtain ⟨first, second, start, last, rfl, hstart, hlast, hle, rfl⟩ :=
        parseClosed?_eq_some_iff.mp hclosed
      have hname : name = "log_" ++ String.ofList first ++ "-" ++ String.ofList second := by
        rw [← String.toList_inj, toList_closed, dropMark?_eq_some.mp hmark, String.toList_ofList,
          String.toList_ofList]
      rw [hname]
      exact .closed _ _ start last (by rwa [String.toList_ofList])
        (by rwa [String.toList_ofList]) hle
  · rintro (⟨number, start, hstart⟩ | ⟨first, second, start, last, hstart, hlast, hle⟩)
    · rw [toList_open, parseChars?, dropMark?_append]
      dsimp only
      rw [Decimal.parse?_eq_some_iff.mpr hstart]
      rfl
    · rw [toList_closed, parseChars?, dropMark?_open_of_writes hstart]
      dsimp only
      rw [dropMark?_append]
      exact parseClosed?_eq_some_iff.mpr
        ⟨first.toList, second.toList, start, last, rfl, hstart, hlast, hle, rfl⟩

theorem Canonical.parse?_name (h : range.Canonical) : parse? range.name = some range := by
  rw [SegmentRange.parse?_name]
  rcases h with h | ⟨h, hle⟩
  · rw [h]
    rfl
  · rw [h]
    exact if_pos hle

/-- A range is read back from its own name, in every directory, so no other range has that name.
The names that stand for a range at all are just those of the grammar. -/
theorem names_read_back :
    (∀ range, Canonical range → parse? range.name = some range ∧
      (∀ dir, ofPath? (range.fileIn dir) = some range) ∧
      ∀ range', Canonical range' → range'.name = range.name → range' = range) ∧
    ∀ name range, parse? name = some range ↔ Denotes name range := by
  refine ⟨fun range h => ⟨h.parse?_name, fun dir => ?_, fun range' h' heq => ?_⟩,
    fun name range => parse?_eq_some_iff⟩
  · rw [ofPath?, fileIn, Path.name?_join dir (plain_name range)]
    exact h.parse?_name
  · have hparse := h'.parse?_name
    rw [heq, h.parse?_name] at hparse
    exact (Option.some.inj hparse).symm

theorem odd_name_read : (opening 7).Canonical ∧
    ofPath? ((opening 7).fileIn "d") = some (.opening 7) ∧
    parse? ("log_inprogress_" ++ "+007") = some (.opening 7) := by
  have hcanonical : (opening 7).Canonical := .inl rfl
  have hnumber : Decimal.Writes "+007".toList 7 :=
    ⟨['0', '0', '7'], by simp, by simp, by simp, by decide⟩
  exact ⟨hcanonical, (names_read_back.1 _ hcanonical).2.1 "d",
    (names_read_back.2 _ _).mpr (.opening _ 7 hnumber)⟩

end SegmentRange

end SegmentedLog
