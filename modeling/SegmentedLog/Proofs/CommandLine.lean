import SegmentedLog.Inspect.Arguments
import SegmentedLog.Proofs.FileNames
import SegmentedLog.Stepwise

/-! # One option more

An index to load again may be put in front of a command line that has none. The rest is read as
before: no option and no file is read differently because of another one that was read before it,
unless it is the same option.
-/

namespace SegmentedLog.Inspect

open Stepwise

namespace Draft

variable {d d' : Draft} {name : OptionName} {text : String}

def loading (d : Draft) (i : UInt64) : Draft := { d with load? := some i }

theorem once_ne_none {α : Type} {there : Option α} {value : Except UsageError α} :
    once name there value ≠ .ok none := by
  unfold once
  split
  · nofun
  · cases value <;> nofun

theorem setFile_eq_ok : d.setFile text = .ok d' ↔
    d.file?.isSome = false ∧ text.isEmpty = false ∧ { d with file? := some text } = d' := by
  unfold setFile
  cases d.file?.isSome <;> cases text.isEmpty <;>
    simp [bind, Except.bind, pure, Except.pure, throw, throwThe, MonadExceptOf.throw]

theorem finish_eq_ok {arguments : Arguments} : d.finish = .ok arguments ↔
    ∃ file, d.file? = some file ∧ (d.last?.isSome && d.start?.isNone) = false ∧ arguments = {
      file
      start? := d.start?
      last? := d.last?
      policy := d.policy?.getD .tolerant
      maxEntrySize := d.maxEntrySize?.getD (UInt64.ofNat defaultMaxEntrySize)
      keepCached := d.keepCached
      load? := d.load? } := by
  unfold finish
  cases d.file? with
  | none => simp [throw, throwThe, MonadExceptOf.throw]
  | some file =>
    cases d.last?.isSome && d.start?.isNone <;>
      simp [bind, Except.bind, pure, Except.pure, throw, throwThe, MonadExceptOf.throw, eq_comm]

/-! ## One argument -/

/-- A value that is read leaves the index alone, and is read in the same way whatever that is,
unless it is the index. -/
theorem setValue_loading (h : d.setValue name text = .ok d') (hload : d'.load? = none)
    (i : UInt64) : d.load? = none ∧ (d.loading i).setValue name text = .ok (d'.loading i) := by
  cases name with
  | start | last | policy | maxEntrySize =>
    obtain ⟨value, hvalue, hd⟩ := exceptBind_eq_ok.mp h
    cases hd
    exact ⟨hload, exceptBind_eq_ok.mpr ⟨value, hvalue, rfl⟩⟩
  | load =>
    obtain ⟨value, hvalue, hd⟩ := exceptBind_eq_ok.mp h
    cases hd
    change value = none at hload
    exact absurd (hload ▸ hvalue) once_ne_none
  | keepCached | help | version => cases h

theorem setFile_loading (h : d.setFile text = .ok d') (hload : d'.load? = none) (i : UInt64) :
    d.load? = none ∧ (d.loading i).setFile text = .ok (d'.loading i) := by
  obtain ⟨hfile, htext, rfl⟩ := setFile_eq_ok.mp h
  exact ⟨hload, setFile_eq_ok.mpr ⟨hfile, htext, rfl⟩⟩

theorem setFiles_loading {texts : List String} (h : texts.foldlM setFile d = .ok d')
    (hload : d'.load? = none) (i : UInt64) :
    d.load? = none ∧ texts.foldlM setFile (d.loading i) = .ok (d'.loading i) := by
  induction texts generalizing d with
  | nil =>
    cases h
    exact ⟨hload, rfl⟩
  | cons text texts ih =>
    rw [List.foldlM_cons] at h ⊢
    obtain ⟨next, hfile, hrest⟩ := exceptBind_eq_ok.mp h
    obtain ⟨hnext, hrest'⟩ := ih hrest
    obtain ⟨hd, hfile'⟩ := setFile_loading hfile hnext i
    exact ⟨hd, exceptBind_eq_ok.mpr ⟨_, hfile', hrest'⟩⟩

theorem finish_loading {arguments : Arguments} (h : d.finish = .ok arguments)
    (hload : arguments.load? = none) (i : UInt64) :
    d.load? = none ∧ (d.loading i).finish = .ok { arguments with load? := some i } := by
  obtain ⟨file, hfile, hlast, rfl⟩ := finish_eq_ok.mp h
  exact ⟨hload, finish_eq_ok.mpr ⟨file, hfile, hlast, rfl⟩⟩

end Draft

/-- Whether reading never gives an index where there was one, and otherwise does the same with an
index as without. -/
structure IgnoresIndex (reading : Draft → Except UsageError Effect) : Prop where
  draft : ∀ {d d' : Draft} {rest : List String}, reading d = .ok (.draft d' rest) →
    d'.load? = none → ∀ i, d.load? = none ∧ reading (d.loading i) = .ok (.draft (d'.loading i) rest)
  request : ∀ {d : Draft} {arguments : Arguments},
    reading d ≠ .ok (.request (.inspect arguments))

variable {d : Draft} {name : OptionName}

theorem map_draft_eq_ok {read : Except UsageError Draft} {effect : Effect} {rest : List String} :
    (Effect.draft · rest) <$> read = .ok effect ↔ ∃ d, read = .ok d ∧ .draft d rest = effect := by
  cases read <;> simp [Functor.map, Except.map]

/-- What reads a value and goes on ignores the index if the value does. -/
theorem ignoresIndex_map {read : Draft → Except UsageError Draft} (rest : List String)
    (h : ∀ {d d'}, read d = .ok d' → d'.load? = none →
      ∀ i, d.load? = none ∧ read (d.loading i) = .ok (d'.loading i)) :
    IgnoresIndex fun d => (Effect.draft · rest) <$> read d := by
  constructor
  · intro d d' rest' hread hload i
    obtain ⟨_, hd, heffect⟩ := map_draft_eq_ok.mp hread
    cases heffect
    obtain ⟨hnone, hd'⟩ := h hd hload i
    exact ⟨hnone, map_draft_eq_ok.mpr ⟨_, hd', rfl⟩⟩
  · intro d arguments hread
    obtain ⟨_, -, heffect⟩ := map_draft_eq_ok.mp hread
    cases heffect

theorem ignoresIndex_error (cause : UsageError) : IgnoresIndex fun _ => .error cause :=
  ⟨nofun, nofun⟩

theorem valued_ignoresIndex (rest : List String) (name : OptionName) (attached : Option String) :
    IgnoresIndex fun d => valued d rest name attached := by
  unfold valued
  split
  · exact ignoresIndex_map _ fun h hload i => Draft.setValue_loading h hload i
  · exact ignoresIndex_error _
  · split
    · exact ignoresIndex_error _
    · exact ignoresIndex_map _ fun h hload i => Draft.setValue_loading h hload i

theorem switch_ignoresIndex (rest : List String) (name : OptionName) :
    IgnoresIndex fun d => switch d rest name := by
  unfold switch
  split
  · exact ⟨nofun, nofun⟩
  · exact ⟨nofun, nofun⟩
  · constructor
    · intro d d' rest' h hload i
      split at h
      · cases h
      · next hkept =>
        cases h
        exact ⟨hload, if_neg hkept⟩
    · intro d arguments h
      split at h <;> cases h

theorem long_ignoresIndex (rest : List String) (argument : List Char) :
    IgnoresIndex fun d => long d rest argument := by
  unfold long
  dsimp only
  split
  · exact ignoresIndex_error _
  · split
    · exact valued_ignoresIndex _ _ _
    · split
      · exact ignoresIndex_error _
      · exact switch_ignoresIndex _ _

/-- In a run of options one after the other ignores the index. -/
theorem short_ignoresIndex (rest : List String) (run : List Char) :
    IgnoresIndex fun d => short d rest run := by
  induction run generalizing rest with
  | nil =>
    constructor
    · intro d d' rest' h hload i
      cases h
      exact ⟨hload, rfl⟩
    · nofun
  | cons c cs ih =>
    simp only [short]
    split
    · exact ignoresIndex_error _
    · split
      · exact valued_ignoresIndex _ _ _
      · next name _ _ =>
        have hswitch := switch_ignoresIndex rest name
        constructor
        · intro d d' rest' h hload i
          split at h
          · next hfirst =>
            obtain ⟨hnone, hrest⟩ := (ih _).draft h hload i
            obtain ⟨hd, hfirst'⟩ := hswitch.draft hfirst hnone i
            exact ⟨hd, by rw [hfirst']; exact hrest⟩
          · next hresult => exact absurd h (hresult _ _)
        · intro d arguments h
          split at h
          · exact (ih _).request h
          · exact hswitch.request h

theorem one_ignoresIndex (argument : String) (rest : List String) :
    IgnoresIndex fun d => one d argument rest := by
  unfold one
  split
  · exact long_ignoresIndex _ _
  · exact short_ignoresIndex _ _
  · exact ignoresIndex_map _ fun h hload i => Draft.setFile_loading h hload i

/-! ## All arguments -/

theorem inspect_eq_ok {read : Except UsageError Arguments} {arguments : Arguments} :
    Request.inspect <$> read = .ok (.inspect arguments) ↔ read = .ok arguments := by
  cases read <;> simp [Functor.map, Except.map]

theorem readFrom_loading {fuel : Nat} {line : List String} {arguments : Arguments}
    (h : readFrom fuel d line = .ok (.inspect arguments)) (hload : arguments.load? = none)
    (i : UInt64) : d.load? = none ∧
      readFrom fuel (d.loading i) line = .ok (.inspect { arguments with load? := some i }) := by
  induction fuel generalizing d line with
  | zero =>
    rw [readFrom, inspect_eq_ok] at h ⊢
    exact Draft.finish_loading h hload i
  | succ fuel ih =>
    cases line with
    | nil =>
      rw [readFrom, inspect_eq_ok] at h ⊢
      · exact Draft.finish_loading h hload i
      · simp
      · simp
    | cons argument rest =>
      rw [readFrom] at h ⊢
      split at h
      · next hfiles =>
        rw [if_pos hfiles]
        obtain ⟨d', hd', hfinish⟩ := exceptBind_eq_ok.mp h
        obtain ⟨hnone, hfinish'⟩ := Draft.finish_loading (inspect_eq_ok.mp hfinish) hload i
        obtain ⟨hd, hfiles'⟩ := Draft.setFiles_loading hd' hnone i
        exact ⟨hd, exceptBind_eq_ok.mpr ⟨_, hfiles', inspect_eq_ok.mpr hfinish'⟩⟩
      · next hfiles =>
        rw [if_neg hfiles]
        have hone := one_ignoresIndex argument rest
        split at h
        · cases h
        · next hrequest =>
          cases h
          exact absurd hrequest hone.request
        · next hdraft =>
          obtain ⟨hnone, hrest⟩ := ih h
          obtain ⟨hd, hdraft'⟩ := hone.draft hdraft hnone i
          exact ⟨hd, by rw [hdraft']; exact hrest⟩

def withLoad (i : UInt64) (line : List String) : List String :=
  ("--load=" ++ String.ofList (Decimal.print i)) :: line

theorem one_withLoad (i : UInt64) (rest : List String) :
    one {} ("--load=" ++ String.ofList (Decimal.print i)) rest =
      .ok (.draft (Draft.loading {} i) rest) := by
  have htext : ("--load=" ++ String.ofList (Decimal.print i)).toList =
      '-' :: '-' :: (['l', 'o', 'a', 'd'] ++ '=' :: Decimal.print i) := by
    rw [String.toList_append]
    change ['-', '-', 'l', 'o', 'a', 'd', '='] ++ _ = _
    rw [String.toList_ofList]
    rfl
  have hvalue : Draft.number .load (String.ofList (Decimal.print i)) = .ok i := by
    rw [Draft.number, String.toList_ofList, Decimal.parse?_print]
  have hset : (({} : Draft).setValue .load (String.ofList (Decimal.print i))) =
      .ok (Draft.loading {} i) := by
    refine exceptBind_eq_ok.mpr ⟨some i, ?_, rfl⟩
    rw [hvalue]
    rfl
  unfold one
  rw [htext]
  change long {} rest (['l', 'o', 'a', 'd'] ++ '=' :: Decimal.print i) = _
  have hname : (['l', 'o', 'a', 'd'] ++ '=' :: Decimal.print i).takeWhile (· ≠ '=') =
      ['l', 'o', 'a', 'd'] := by simp
  have hattached : ((['l', 'o', 'a', 'd'] ++ '=' :: Decimal.print i).dropWhile (· ≠ '=')).tail =
      Decimal.print i := by simp
  have hequals : (['l', 'o', 'a', 'd'] ++ '=' :: Decimal.print i).contains '=' = true := by simp
  have hoption : OptionName.ofLong? (String.ofList ['l', 'o', 'a', 'd']) = some .load := by decide
  unfold long
  dsimp only
  rw [hname, hattached, hequals, hoption]
  dsimp only
  rw [if_pos rfl, if_pos rfl, valued, hset]
  rfl

theorem read_withLoad {line : List String} {arguments : Arguments}
    (h : read line = .ok (.inspect arguments)) (hload : arguments.load? = none) (i : UInt64) :
    read (withLoad i line) = .ok (.inspect { arguments with load? := some i }) := by
  have hoption : "--load=" ++ String.ofList (Decimal.print i) ≠ "--" := by
    intro heq
    have hlength := congrArg (fun text : String => text.toList.length) heq
    simp at hlength
  rw [read, withLoad, List.length_cons, readFrom, if_neg hoption, one_withLoad]
  exact (readFrom_loading h hload i).2

end SegmentedLog.Inspect
