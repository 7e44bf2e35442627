import SegmentedLog.Proofs.Listing

/-! # Paths without detours

The directory a path lies in is named by the components before the last one, so repeated slashes and
single dots are gone from it. Still the last name in that directory is what the path names, and no
path gets longer that way.
-/

namespace SegmentedLog

open Stepwise

namespace Path

variable {path name : String} {front : List String} {cs : List Char}
  {parts parts' : List (List Char)}

/-! ## Splitting and joining -/

theorem split_eq_splitOn (cs : List Char) : split cs = cs.splitOn '/' := by
  induction cs with
  | nil => rfl
  | cons c cs ih =>
    rw [List.splitOn, List.splitOnP_cons_eq_if_modifyHead]
    change split (c :: cs) = if (c == '/') = true then [] :: cs.splitOn '/'
      else (cs.splitOn '/').modifyHead (List.cons c)
    rw [← ih]
    by_cases hc : c = '/'
    · subst hc
      rfl
    · obtain ⟨part, parts, hparts⟩ := List.exists_cons_of_ne_nil (split_ne_nil cs)
      rw [if_neg (by simpa using hc), split, hparts]
      · rfl
      · exact hc

theorem intercalate_split (cs : List Char) : ['/'].intercalate (split cs) = cs := by
  rw [split_eq_splitOn, List.intercalate_splitOn]

theorem slash_not_mem_of_split {part : List Char} (h : part ∈ split cs) : '/' ∉ part := by
  induction cs generalizing part with
  | nil => simp_all [split]
  | cons c cs ih =>
    by_cases hc : c = '/'
    · subst hc
      rcases List.mem_cons.mp h with rfl | h
      · exact List.not_mem_nil
      · exact ih h
    · obtain ⟨first, parts, hparts⟩ := List.exists_cons_of_ne_nil (split_ne_nil cs)
      rw [split, hparts] at h
      · rw [hparts] at ih
        rcases List.mem_cons.mp h with rfl | h
        · rw [List.mem_cons, not_or]
          exact ⟨Ne.symm hc, ih List.mem_cons_self⟩
        · exact ih (List.mem_cons_of_mem _ h)
      · exact hc

theorem intercalate_sublist (sep : List Char) (h : parts.Sublist parts') :
    (sep.intercalate parts).Sublist (sep.intercalate parts') := by
  induction h with
  | slnil => exact List.Sublist.refl _
  | @cons parts parts' part h ih =>
    cases parts' with
    | nil =>
      rw [List.sublist_nil.mp h]
      exact List.nil_sublist _
    | cons next parts' =>
      rw [List.intercalate_cons_cons]
      exact ih.trans (List.sublist_append_right _ _)
  | @cons_cons parts parts' part h ih =>
    cases parts' with
    | nil =>
      rw [List.sublist_nil.mp h]
    | cons next parts' =>
      rw [List.intercalate_cons_cons]
      cases parts with
      | nil =>
        rw [List.intercalate_singleton, List.append_assoc]
        exact List.sublist_append_left _ _
      | cons next' parts =>
        rw [List.intercalate_cons_cons]
        exact (List.Sublist.refl _).append ih

/-! ## The names of a parent -/

theorem map_toList_names (path : String) :
    (names path).map String.toList = (split path.toList).filter (· ≠ []) := by
  rw [names, List.map_map]
  exact (List.map_congr_left fun part _ => String.toList_ofList).trans (List.map_id _)

theorem mem_names (h : name ∈ names path) : name ≠ "" ∧ '/' ∉ name.toList := by
  have hpart := List.mem_map_of_mem (f := String.toList) h
  rw [map_toList_names, List.mem_filter] at hpart
  refine ⟨?_, slash_not_mem_of_split hpart.1⟩
  rintro rfl
  simp at hpart

theorem names_intercalate (h : ∀ name ∈ front, name ≠ "" ∧ '/' ∉ name.toList) :
    names ("/".intercalate front) = front := by
  have hinjective : Function.Injective (List.map String.toList) :=
    List.map_injective_iff.mpr fun _ _ => String.toList_inj.mp
  apply hinjective
  rw [map_toList_names]
  cases front with
  | nil => rfl
  | cons first front =>
    have hslash : ∀ part ∈ (first :: front).map String.toList, '/' ∉ part := by
      intro part hpart
      obtain ⟨name, hname, rfl⟩ := List.mem_map.mp hpart
      exact (h name hname).2
    rw [String.toList_intercalate, split_eq_splitOn]
    change (List.splitOn '/' (['/'].intercalate _)).filter _ = _
    rw [List.splitOn_intercalate '/' hslash (by simp), List.filter_eq_self]
    intro part hpart
    obtain ⟨name, hname, rfl⟩ := List.mem_map.mp hpart
    simpa using (h name hname).1

theorem names_base_append (path text : String) : names (base path ++ text) = names text := by
  unfold base
  split
  · have htext : ("/" ++ text).toList = '/' :: text.toList := String.toList_append
    rw [names, htext]
    rfl
  · rw [String.empty_append]

theorem names_parent (path : String) : names (parent path) = (components path).dropLast := by
  rw [parent, names_base_append]
  apply names_intercalate
  intro name hname
  have hmem := List.mem_of_mem_dropLast hname
  exact mem_names (List.mem_of_mem_filter hmem)

theorem components_of_name? (h : name? path = some name) :
    components path = (components path).dropLast ++ [name] := by
  have hlast : (components path).getLast? = some name := by
    unfold name? at h
    split at h
    · cases h
    · exact h
  obtain ⟨front, hfront⟩ := List.getLast?_eq_some_iff.mp hlast
  rw [hfront, List.dropLast_concat]

theorem plain_of_name? (h : name? path = some name) : Plain name := by
  have hmem : name ∈ components path := by
    rw [components_of_name? h]
    simp
  have hnames := List.mem_filter.mp hmem
  obtain ⟨hne, hslash⟩ := mem_names hnames.1
  refine ⟨hslash, hne, ?_⟩
  rintro (rfl | rfl)
  · simp at hnames
  · have hlast : (components path).getLast? = some ".." := by
      rw [components_of_name? h, List.getLast?_concat]
    rw [name?, hlast] at h
    cases h

/-! ## Going back to the file -/

theorem endsOpen_base (path : String) : EndsOpen (base path) := by
  unfold base
  split <;> decide

theorem not_endsOpen_append {text : String} (hne : name ≠ "") (hslash : '/' ∉ name.toList) :
    ¬ EndsOpen (text ++ name) := by
  have hlist : name.toList ≠ [] := fun hnil => hne (String.toList_eq_nil_iff.mp hnil)
  unfold EndsOpen
  rw [String.toList_append, List.getLast?_append, List.getLast?_eq_some_getLast hlist]
  intro hlast
  apply hslash
  rw [← hlast]
  exact List.getLast_mem _

/-- The last name in the directory a path lies in gives the path again, without detours. -/
theorem join_parent (h : name? path = some name) :
    join (parent path) name = base path ++ "/".intercalate (components path) := by
  have hcomponents := components_of_name? h
  have hnames (part : String) (hpart : part ∈ (components path).dropLast) :
      part ≠ "" ∧ '/' ∉ part.toList :=
    mem_names (List.mem_of_mem_filter (List.mem_of_mem_dropLast hpart))
  rw [hcomponents, parent]
  generalize (components path).dropLast = front at hnames
  rcases List.eq_nil_or_concat' front with rfl | ⟨outer, last, rfl⟩
  · rw [String.intercalate_nil, String.append_empty, join, if_pos (endsOpen_base path),
      List.nil_append, String.intercalate_singleton]
  · have hopen : ¬ EndsOpen (base path ++ "/".intercalate (outer ++ [last])) := by
      obtain ⟨hne, hslash⟩ := hnames last (by simp)
      cases outer with
      | nil => exact not_endsOpen_append hne hslash
      | cons first outer =>
        rw [String.intercalate_append_of_ne_nil (by simp) (by simp), String.intercalate_singleton,
          ← String.append_assoc]
        exact not_endsOpen_append hne hslash
    have hne : outer ++ [last] ≠ [] := by simp
    rw [join, if_neg hopen,
      String.intercalate_append_of_ne_nil hne (List.cons_ne_nil name []),
      String.intercalate_singleton]
    simp only [String.append_assoc]

theorem map_toList_components (path : String) :
    ((components path).map String.toList).Sublist ((split path.toList).filter (· ≠ [])) := by
  rw [← map_toList_names]
  exact List.filter_sublist.map _

theorem join_parent_sublist (h : name? path = some name) :
    (join (parent path) name).toList.Sublist path.toList := by
  rw [join_parent h, String.toList_append, String.toList_intercalate]
  change ((base path).toList ++ ['/'].intercalate _).Sublist _
  have hparts := map_toList_components path
  unfold base
  split
  · next habsolute =>
    obtain ⟨cs, hcs⟩ := List.head?_eq_some_iff.mp (of_decide_eq_true habsolute)
    rw [hcs] at hparts ⊢
    have hblank : (split ('/' :: cs)).filter (· ≠ []) = (split cs).filter (· ≠ []) := rfl
    have hrest : ((components path).map String.toList).Sublist (split cs) :=
      (hblank ▸ hparts).trans List.filter_sublist
    have hjoined := intercalate_sublist ['/'] hrest
    rw [intercalate_split] at hjoined
    exact hjoined.cons_cons _
  · have hjoined := intercalate_sublist ['/'] (hparts.trans List.filter_sublist)
    rwa [intercalate_split] at hjoined

theorem utf8Len_le_of_sublist {cs cs' : List Char} (h : cs.Sublist cs') :
    String.utf8Len cs ≤ String.utf8Len cs' := by
  induction h with
  | slnil => exact le_rfl
  | cons c _ ih =>
    rw [String.utf8Len_cons]
    omega
  | cons_cons c _ ih =>
    rw [String.utf8Len_cons, String.utf8Len_cons]
    omega

theorem check_eq_ok : check path = .ok () ↔
    '\x00' ∉ path.toList ∧ path.utf8ByteSize ≤ maxPathSize ∧ path ≠ "" := by
  unfold check checkText
  by_cases hnul : '\x00' ∈ path.toList
  · simp [hnul, bind, Except.bind]
  · simp [hnul, bind, Except.bind]
    split <;> simp_all

/-- A path without detours can be followed if the path itself can. -/
theorem check_join_parent (h : name? path = some name) (hcheck : check path = .ok ()) :
    check (join (parent path) name) = .ok () := by
  have hsublist := join_parent_sublist h
  obtain ⟨hnul, hsize, -⟩ := check_eq_ok.mp hcheck
  refine check_eq_ok.mpr ⟨fun hmem => hnul (hsublist.subset hmem), ?_, ?_⟩
  · have hle := utf8Len_le_of_sublist hsublist
    rw [← String.utf8ByteSize_ofList, ← String.utf8ByteSize_ofList, String.ofList_toList,
      String.ofList_toList] at hle
    exact hle.trans hsize
  · intro hempty
    have hnames := names_join (parent path) (plain_of_name? h)
    rw [hempty] at hnames
    have hlength := congrArg List.length hnames
    simp [names, split] at hlength

end Path

namespace Disk

variable {disk : Disk} {path name : String} {names : List String} {trail trail' : Trail}
  {id : FileId}

theorem foldlM_enter_filter (disk : Disk) (names : List String) (trail : Trail) :
    (names.filter (· ≠ ".")).foldlM disk.enter trail = names.foldlM disk.enter trail := by
  induction names generalizing trail with
  | nil => rfl
  | cons name names ih =>
    by_cases hdot : name = "."
    · rw [List.filter_cons_of_neg (by simp [hdot]), ih, List.foldlM_cons, enter, if_pos hdot]
      rfl
    · rw [List.filter_cons_of_pos (by simp [hdot]), List.foldlM_cons, List.foldlM_cons]
      congr 1
      funext next
      exact ih next

/-- The file a path names has its name in the directory the path lies in. -/
theorem find_join_parent (hname : Path.name? path = some name)
    (hfind : disk.find path = .ok (.file id)) :
    disk.find (Path.join (Path.parent path) name) = .ok (.file id) := by
  obtain ⟨spot, hfollow, hdots, -, hunder⟩ := find_eq_file.mp hfind
  obtain ⟨_, hcheck, hwalk⟩ := exceptBind_eq_ok.mp hfollow
  obtain ⟨trail, htrail, hspot⟩ := exceptBind_eq_ok.mp hwalk
  cases hspot
  obtain ⟨front, last, hnames⟩ : ∃ front last, Path.names path = front ++ [last] := by
    rcases List.eq_nil_or_concat' (Path.names path) with hnil | hlast
    · rw [hnil] at hdots
      exact absurd (.inl rfl) hdots
    · exact hlast
  rw [hnames, List.dropLast_concat] at htrail
  rw [hnames, List.getLast?_concat] at hdots hunder
  have hcomponents : Path.components path = front.filter (· ≠ ".") ++ [last] := by
    have hdot : last ≠ "." := fun hdot => hdots (.inl hdot)
    rw [Path.components, hnames, List.filter_append]
    simp [hdot]
  have hlast := Path.components_of_name? hname
  rw [hcomponents, List.dropLast_concat] at hlast
  obtain rfl : last = name := by simpa using hlast
  have hparent : disk.walk (Path.names (Path.parent path)) = .ok trail := by
    rw [Path.names_parent, hcomponents, List.dropLast_concat, walk, foldlM_enter_filter]
    exact htrail
  exact (find_join (Path.plain_of_name? hname) hparent).mpr
    ⟨Path.check_join_parent hname hcheck, under?_eq_ok.mp hunder⟩

end Disk

end SegmentedLog
