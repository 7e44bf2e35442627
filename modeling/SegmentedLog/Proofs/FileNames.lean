import Mathlib
import SegmentedLog.Range

/-! # Reading the names of segment files

The digits of a number read back as the number. So a range is read back from its name, unless it is
closed and ends before it starts: such a name stands for no range. A name that stands for a range
has no slash in it, so joined to a directory it is the last name on the path.
-/

namespace SegmentedLog

namespace Decimal

variable {cs : List Char} {c : Char} {value value' : Nat} {n : UInt64}

theorem digit?_of_isDigit (h : c.isDigit) : digit? c = some (c.toNat - '0'.toNat) := by
  have hbounds : '0' ≤ c ∧ c ≤ '9' := by
    simpa [Char.isDigit, Char.le_def] using h
  exact if_pos hbounds

theorem valueFrom_of_digits (h : ∀ c ∈ cs, c.isDigit) :
    valueFrom value cs = some (Nat.ofDigitChars 10 cs value) := by
  induction cs generalizing value with
  | nil => rfl
  | cons c cs ih =>
    rw [valueFrom, digit?_of_isDigit (h c (by simp)), Nat.ofDigitChars_cons]
    exact ih fun c hc => h c (by simp [hc])

theorem isDigit_print (n : UInt64) : ∀ c ∈ print n, c.isDigit := fun _ hc =>
  Nat.isDigit_of_mem_toDigits (by decide) (by decide) hc

theorem not_mem_print (n : UInt64) (hc : c.isDigit = false) : c ∉ print n := by
  intro hmem
  rw [isDigit_print n c hmem] at hc
  cases hc

theorem print_ne_nil (n : UInt64) : print n ≠ [] := Nat.toDigits_ne_nil

theorem parse?_print (n : UInt64) : parse? (print n) = some n := by
  have hhead : (print n).head? ≠ some '+' := fun hhead =>
    not_mem_print n (by decide) (List.mem_of_head? hhead)
  have hvalue : unsigned? (print n) = some n.toNat := by
    unfold unsigned?
    split
    · next hnil => exact absurd hnil (print_ne_nil n)
    · rw [valueFrom_of_digits (isDigit_print n), print, Nat.ofDigitChars_ten_toDigits]
  rw [parse?, if_neg hhead, hvalue]
  change (if n.toNat < UInt64.size then some (UInt64.ofNat n.toNat) else none) = some n
  rw [if_pos n.toNat_lt, UInt64.ofNat_toNat]

theorem slash_not_mem_of_valueFrom (h : valueFrom value cs = some value') : '/' ∉ cs := by
  induction cs generalizing value with
  | nil => simp
  | cons c cs ih =>
    obtain ⟨digit, hdigit, hrest⟩ := Option.bind_eq_some_iff.mp h
    rw [List.mem_cons, not_or]
    refine ⟨?_, ih hrest⟩
    rintro rfl
    cases hdigit

theorem slash_not_mem_of_parse? (h : parse? cs = some n) : '/' ∉ cs := by
  obtain ⟨value, hvalue, -⟩ := Option.bind_eq_some_iff.mp h
  have hunsigned : '/' ∉ (if cs.head? = some '+' then cs.tail else cs) := by
    unfold unsigned? at hvalue
    split at hvalue
    · cases hvalue
    · exact slash_not_mem_of_valueFrom hvalue
  split at hunsigned
  · next hhead =>
    obtain ⟨rest, rfl⟩ := List.head?_eq_some_iff.mp hhead
    simpa using hunsigned
  · exact hunsigned

end Decimal

/-! ## Names on a path -/

namespace Path

structure Plain (name : String) : Prop where
  slash : '/' ∉ name.toList
  nonempty : name ≠ ""
  dots : ¬ (name = "." ∨ name = "..")

variable {cs ds : List Char} {name : String}

theorem split_ne_nil (cs : List Char) : split cs ≠ [] := by
  unfold split
  split
  · simp
  · simp
  · split <;> simp

theorem split_append_slash (cs ds : List Char) :
    split (cs ++ '/' :: ds) = split cs ++ split ds := by
  induction cs with
  | nil => rfl
  | cons c cs ih =>
    by_cases hc : c = '/'
    · subst hc
      rw [List.cons_append, split, ih, split, List.cons_append]
    · obtain ⟨part, parts, hparts⟩ := List.exists_cons_of_ne_nil (split_ne_nil cs)
      rw [List.cons_append, split, ih, split, hparts, List.cons_append]
      · rfl
      · exact hc
      · exact hc

theorem split_of_not_mem (h : '/' ∉ cs) : split cs = [cs] := by
  induction cs with
  | nil => rfl
  | cons c cs ih =>
    rw [List.mem_cons, not_or] at h
    rw [split, ih h.2]
    exact Ne.symm h.1

theorem Plain.toList_ne_nil (h : Plain name) : name.toList ≠ [] := by
  intro hnil
  exact h.nonempty (String.toList_eq_nil_iff.mp hnil)

/-- The text of a path into a directory, up to the name at its end. -/
theorem toList_join (dir name : String) : ∃ front : List Char,
    (join dir name).toList = front ++ name.toList ∧
      (front = [] ∧ dir = "" ∨ ∃ cs, front = cs ++ ['/'] ∧
        (dir.toList = cs ∨ dir.toList = cs ++ ['/'])) := by
  unfold join
  split
  · next hopen =>
    refine ⟨dir.toList, String.toList_append, ?_⟩
    unfold EndsOpen at hopen
    cases hlast : dir.toList.getLast? with
    | none =>
      have hnil := List.getLast?_eq_none_iff.mp hlast
      exact .inl ⟨hnil, String.toList_eq_nil_iff.mp hnil⟩
    | some c =>
      rw [hlast] at hopen
      change c = '/' at hopen
      rw [hopen] at hlast
      obtain ⟨cs, hcs⟩ := List.getLast?_eq_some_iff.mp hlast
      exact .inr ⟨cs, hcs, .inr hcs⟩
  · exact ⟨dir.toList ++ ['/'], by simp, .inr ⟨dir.toList, rfl, .inl rfl⟩⟩

theorem names_join (dir : String) (h : Plain name) :
    names (join dir name) = names dir ++ [name] := by
  have hname : split name.toList = [name.toList] := split_of_not_mem h.slash
  obtain ⟨front, hjoin, ⟨rfl, rfl⟩ | ⟨cs, rfl, hdir | hdir⟩⟩ := toList_join dir name
  · rw [names, hjoin]
    simp [names, split, hname, h.toList_ne_nil]
  · rw [names, hjoin, List.append_assoc]
    change ((split (cs ++ '/' :: name.toList)).filter _).map _ = _
    rw [split_append_slash, hname, names, hdir]
    simp [h.toList_ne_nil]
  · rw [names, hjoin, List.append_assoc]
    change ((split (cs ++ '/' :: name.toList)).filter _).map _ = _
    rw [split_append_slash, hname, names, hdir, split_append_slash]
    simp [split, h.toList_ne_nil]

theorem join_inj {dir name' : String} : join dir name = join dir name' ↔ name = name' := by
  unfold join
  split
  · exact String.append_right_inj _
  · exact String.append_right_inj _

theorem not_endsOpen_join (dir : String) (h : Plain name) : ¬ EndsOpen (join dir name) := by
  obtain ⟨front, hjoin, -⟩ := toList_join dir name
  unfold EndsOpen
  rw [hjoin, List.getLast?_append, List.getLast?_eq_some_getLast h.toList_ne_nil]
  intro hlast
  apply h.slash
  rw [← hlast]
  exact List.getLast_mem _

end Path

namespace SegmentRange

variable {mark cs ds : List Char} {range : SegmentRange} {name : String}

/-! ## Marks and dashes -/

theorem dropMark?_append (mark cs : List Char) : dropMark? mark (mark ++ cs) = some cs := by
  induction mark with
  | nil => rfl
  | cons m mark ih =>
    rw [List.cons_append, dropMark?, if_pos rfl]
    exact ih

theorem dropMark?_eq_some : dropMark? mark cs = some ds ↔ cs = mark ++ ds := by
  constructor
  · intro h
    induction mark generalizing cs with
    | nil =>
      cases h
      rfl
    | cons m mark ih =>
      cases cs with
      | nil => cases h
      | cons c cs =>
        unfold dropMark? at h
        split at h
        · next heq => rw [heq, ih h, List.cons_append]
        · cases h
  · rintro rfl
    exact dropMark?_append mark ds

theorem splitDash?_append (h : '-' ∉ cs) (ds : List Char) :
    splitDash? (cs ++ '-' :: ds) = some (cs, ds) := by
  induction cs with
  | nil => rfl
  | cons c cs ih =>
    rw [List.mem_cons, not_or] at h
    rw [List.cons_append, splitDash?, if_neg (Ne.symm h.1), ih h.2]
    rfl

theorem splitDash?_eq_some {parts : List Char × List Char} (h : splitDash? cs = some parts) :
    cs = parts.1 ++ '-' :: parts.2 := by
  induction cs generalizing parts with
  | nil => cases h
  | cons c cs ih =>
    unfold splitDash? at h
    split at h
    · next hdash =>
      cases h
      rw [hdash]
      rfl
    · obtain ⟨rest, hrest, rfl⟩ := Option.map_eq_some_iff.mp h
      rw [ih hrest]
      rfl

/-! ## Reading a name back -/

theorem parse?_name (range : SegmentRange) : parse? range.name =
    if range.isOpen = true then some (.opening range.start)
    else if range.start ≤ range.last then some (.closed range.start range.last) else none := by
  rw [parse?, name, String.toList_ofList, nameChars]
  split
  · rw [parseChars?, dropMark?_append]
    dsimp only
    rw [Decimal.parse?_print]
    rfl
  · obtain ⟨c, digits, hdigits⟩ := List.exists_cons_of_ne_nil (Decimal.print_ne_nil range.start)
    have hmark : dropMark? openMark (closedMark ++ Decimal.print range.start ++
        '-' :: Decimal.print range.last) = none := by
      rw [Option.eq_none_iff_forall_ne_some]
      intro rest hrest
      rw [dropMark?_eq_some, hdigits] at hrest
      have hc : c.isDigit := Decimal.isDigit_print range.start c (by simp [hdigits])
      have hi : c = 'i' := Option.some.inj (congrArg (·[4]?) hrest)
      rw [hi] at hc
      cases hc
    have hdash : '-' ∉ Decimal.print range.start := Decimal.not_mem_print _ (by decide)
    rw [parseChars?, hmark]
    dsimp only
    rw [List.append_assoc, dropMark?_append]
    change parseClosed? _ = _
    unfold parseClosed?
    rw [splitDash?_append hdash]
    change (Decimal.parse? _ >>= fun start => Decimal.parse? _ >>= fun last => _) = _
    rw [Decimal.parse?_print, Decimal.parse?_print]
    rfl

/-! ## Plain names -/

/-- A name that starts with the mark of segment files is plain unless a slash follows. -/
theorem plain_of_mark (h : name.toList = closedMark ++ cs) (hcs : '/' ∉ cs) : Path.Plain name := by
  refine ⟨?_, ?_, ?_⟩
  · rw [h, List.mem_append, not_or]
    exact ⟨by decide, hcs⟩
  · rintro rfl
    cases h
  · rintro (rfl | rfl)
    · cases h
    · cases h

theorem plain_name (range : SegmentRange) : Path.Plain range.name := by
  have hslash (n : UInt64) : '/' ∉ Decimal.print n := Decimal.not_mem_print n (by decide)
  have hname : range.name.toList = range.nameChars := String.toList_ofList
  unfold nameChars at hname
  split at hname
  · rw [openMark, List.append_assoc] at hname
    exact plain_of_mark hname (by simp [hslash])
  · rw [List.append_assoc] at hname
    exact plain_of_mark hname (by simp [hslash])

theorem plain_of_parse? (h : parse? name = some range) : Path.Plain name := by
  unfold parse? parseChars? at h
  split at h
  · next start hmark =>
    obtain ⟨n, hstart, -⟩ := Option.map_eq_some_iff.mp h
    have hname := dropMark?_eq_some.mp hmark
    rw [openMark, List.append_assoc] at hname
    exact plain_of_mark hname (by simp [Decimal.slash_not_mem_of_parse? hstart])
  · obtain ⟨numbers, hmark, hclosed⟩ := Option.bind_eq_some_iff.mp h
    obtain ⟨⟨start, last⟩, hdash, hnumbers⟩ := Option.bind_eq_some_iff.mp hclosed
    obtain ⟨n, hstart, hnumbers⟩ := Option.bind_eq_some_iff.mp hnumbers
    obtain ⟨n', hlast, -⟩ := Option.bind_eq_some_iff.mp hnumbers
    refine plain_of_mark (dropMark?_eq_some.mp hmark) ?_
    rw [splitDash?_eq_some hdash]
    simp [Decimal.slash_not_mem_of_parse? hstart, Decimal.slash_not_mem_of_parse? hlast]

end SegmentRange

end SegmentedLog
