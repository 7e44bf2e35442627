import SegmentedLog.Proofs.Grammar

/-! # Readers come to an end

A reader may be called on after a failure, and then goes on in the middle of a frame. Still every
call that does not find the end of the data consumes bytes, and one that hands out an entry consumes
the frame of it, so the length of the file bounds both. The position follows the entries alone, and
the bytes consumed are never behind it.
-/

namespace SegmentedLog

open Stepwise

namespace Source

structure AtMost (n : Nat) (s : Source) : Prop where
  ending : s.ending = none
  unread : s.unread.length ≤ n

variable {s : Source} {n : Nat} {b : UInt8} {rest : Bytes}

theorem AtMost.request (h : s.AtMost n) (k : Nat) : (s.request k).2.AtMost n := by
  refine ⟨(request_ending s k).trans h.ending, ?_⟩
  rw [(request_eq s k).2, List.length_drop]
  exact (Nat.sub_le _ _).trans h.unread

theorem leaves_take? (h : s.AtMost n) (k : Nat) : Leaves (AtMost n) (take? k) s := by
  have hleft := h.request k
  unfold Leaves
  rw [take?_eq, atEnd_of_ending hleft.ending]
  by_cases hshort : s.unread.length < k
  · rw [if_pos hshort]
    exact hleft
  · rw [if_neg hshort]
    exact hleft

theorem leaves_next? (h : s.AtMost n) : Leaves (AtMost n) next? s :=
  (leaves_take? h 1).bind fun _ _ _ ht => ht

theorem leaves_numberFrom (h : s.AtMost n) (room taken sum : Nat) :
    Leaves (AtMost n) (numberFrom room taken sum) s := by
  induction room generalizing taken sum s with
  | zero => exact h
  | succ room ih =>
    refine (leaves_next? h).bind fun b? t _ ht => ?_
    cases b? with
    | none => exact Leaves.ite (fun _ => ht) fun _ => ht
    | some b => exact Leaves.ite (fun _ => ht) fun _ => ih ht _ _

/-- Reading a number takes a byte if there is one, be it that the number is malformed. -/
theorem leaves_number? (h : s.Has (b :: rest)) : Leaves (AtMost rest.length) number? s := by
  obtain ⟨t, hnext, ht⟩ := next?_cons h
  have hleft : t.AtMost rest.length := ⟨ht.ending, by rw [ht.unread]⟩
  have hfirst : number? s = _ := bind_of_ok hnext
  unfold Leaves
  rw [hfirst]
  exact Leaves.ite (fun _ => hleft) fun _ => leaves_numberFrom hleft _ _ _

end Source

namespace Reader

variable {r r' : Reader} {range : SegmentRange} {limit n : Nat} {content : Bytes}

/-! ## One call -/

def outlook (r : Reader) : SegmentRange × Nat × Nat := (r.range, r.maxEntrySize, r.position)

/-- Whether a reader has moved on in its input only, with at most `n` bytes left. -/
structure MovedOn (r : Reader) (n : Nat) (r' : Reader) : Prop where
  outlook : r'.outlook = r.outlook
  source : r'.source.AtMost n

/-- What a call may come to that does not fail: without an entry the data is at its end, and the
reader has only moved on. -/
structure Gives (r : Reader) (n : Nat) (result : Option LogEntry) (r' : Reader) : Prop where
  source : r'.source.AtMost n
  none : result = none → r.MovedOn n r' ∧ r'.done = true

/-- What follows a move in the input alone is told from where the reader was before. -/
theorem MovedOn.ends {m : Nat} {call : Step (Option LogEntry)} (h : r.MovedOn m r')
    (hcall : Ends (r'.Gives n) (r'.MovedOn n) call r') :
    Ends (r.Gives n) (r.MovedOn n) call r' := by
  have htrans {t : Reader} (ht : r'.MovedOn n t) : r.MovedOn n t :=
    ⟨ht.outlook.trans h.outlook, ht.source⟩
  constructor
  · intro result t hok
    have hgives := hcall.ok hok
    exact ⟨hgives.source, fun hnone => ⟨htrans (hgives.none hnone).1, (hgives.none hnone).2⟩⟩
  · intro cause t herror
    exact htrans (hcall.error herror)

theorem ends_input {α : Type} {read : Source.Reading α}
    (h : Leaves (Source.AtMost n) read r.source) :
    Ends (fun _ => r.MovedOn n) (r.MovedOn n) (input read) r := by
  refine Ends.of_leaves ?_
  unfold Leaves input
  cases hread : read r.source with
  | ok a s => exact ⟨rfl, h.of_ok hread⟩
  | error cause s => exact ⟨rfl, h.of_error hread⟩

theorem ends_finish (h : r.source.AtMost n) : Ends (r.Gives n) (r.MovedOn n) finish r :=
  .of_ok rfl ⟨h, fun _ => ⟨⟨rfl, h⟩, rfl⟩⟩

theorem ends_corrupted (cause : Corruption) (h : r.source.AtMost n) :
    Ends (r.Gives n) (r.MovedOn n) (corrupted cause) r :=
  .of_error rfl ⟨rfl, h⟩

theorem ends_accept (data : Bytes) (h : r.source.AtMost n) :
    Ends (r.Gives n) (r.MovedOn n) (accept data) r := by
  refine .get_bind ?_
  cases LogEntry.decode data with
  | error cause => exact .of_error rfl ⟨rfl, h⟩
  | ok e =>
    dsimp only
    split
    · exact ends_corrupted _ h
    · split
      · exact ends_finish h
      · exact .of_ok rfl ⟨h, nofun⟩

theorem ends_frame (size : Nat) (h : r.source.AtMost n) :
    Ends (r.Gives n) (r.MovedOn n) (frame size) r := by
  refine .get_bind ?_
  split
  · exact ends_corrupted _ h
  split
  · exact .of_error rfl ⟨rfl, h⟩
  refine (ends_input (Source.leaves_take? h size)).bind fun data? t ht => ht.ends ?_
  cases data? with
  | none => exact ends_corrupted _ ht.source
  | some data =>
    refine (ends_input (Source.leaves_take? ht.source _)).bind fun trailer? u hu => hu.ends ?_
    cases trailer? with
    | none => exact ends_corrupted _ hu.source
    | some trailer =>
      dsimp only
      split
      · exact ends_accept data hu.source
      · exact ends_corrupted _ hu.source

theorem ends_padding (h : r.source.AtMost n) : Ends (r.Gives n) (r.MovedOn n) padding r := by
  obtain ⟨s, hread, hs⟩ := Source.onlyZeros_eq ⟨rfl, h.ending⟩
  have hleft : s.AtMost n := ⟨hs.ending, by simp [hs.unread]⟩
  have hinput : Ends (fun _ t => t = { r with source := s, done := true }) (r.MovedOn n)
      (input Source.onlyZeros) { r with done := true } :=
    .of_ok (input_of_ok (r := { r with done := true }) hread) rfl
  refine .modify_bind (.get_bind (hinput.bind fun clean t ht => ?_))
  subst ht
  split
  · exact .of_ok rfl ⟨hleft, fun _ => ⟨⟨rfl, hleft⟩, rfl⟩⟩
  · exact .of_error rfl ⟨rfl, hleft⟩

/-- A call with a byte before it takes one, unless the reader is done. -/
theorem ends_next {b : UInt8} {rest : Bytes} (hactive : r.done = false)
    (h : r.source.Has (b :: rest)) :
    Ends (r.Gives rest.length) (r.MovedOn rest.length) next r := by
  refine .get_bind ?_
  rw [if_neg (by simp [hactive])]
  refine (ends_input (Source.leaves_number? h)).bind fun size? t ht => ht.ends ?_
  match size? with
  | none => exact ends_finish ht.source
  | some 0 => exact ends_padding ht.source
  | some (size + 1) => exact ends_frame _ ht.source

theorem next_of_empty (hactive : r.done = false) (h : r.source.Has []) :
    ∃ r', next r = .ok none r' ∧ r.MovedOn 0 r' ∧ r'.done = true := by
  obtain ⟨s, hread, hs⟩ := Source.number?_nil h
  refine ⟨{ r with source := s, done := true }, ?_, ⟨rfl, hs.ending, by simp [hs.unread]⟩, rfl⟩
  rw [next, get_bind, if_neg (by simp [hactive]), bind_of_ok (input_of_ok hread)]
  rfl

theorem next_of_done (hdone : r.done = true) : next r = .ok none r := by
  rw [next, get_bind, if_pos hdone]
  rfl

/-- The whole frame of an entry was consumed, and no frame is smaller than that of an entry without
a payload. -/
theorem Yields.frameSize_le {e : LogEntry} {number data : Bytes} (h : r.Yields e r' number data) :
    34 ≤ frameSize data.length ∧
      frameSize data.length + r'.source.unread.length ≤ r.source.unread.length := by
  have hnumber := h.size_le
  have htrailer := Checksum.length_trailer data
  have hdecoded := LogEntry.encodedSize_le_of_decode h.decode
  have hleast : frameSize 29 ≤ frameSize data.length := frameSize_mono <| by
    have hstripped := e.encodedSize_stripped_le
    rw [LogEntry.encodedSize_stripped] at hstripped
    omega
  refine ⟨(by decide : 34 ≤ frameSize 29).trans hleast, ?_⟩
  rw [h.unread]
  simp only [List.length_append, frameSize]
  omega

inductive Answer where
  | entry (e : LogEntry)
  | ended
  | failed (cause : Failure)
deriving DecidableEq

namespace Answer

def of : EStateM.Result Failure Reader (Option LogEntry) → Answer
  | .ok (some e) _ => entry e
  | .ok none _ => ended
  | .error cause _ => failed cause

def entry? : Answer → Option LogEntry
  | entry e => some e
  | ended | failed _ => none

/-- The bytes that a call consumes at least. -/
def cost : Answer → Nat
  | entry _ => 34
  | ended => 0
  | failed _ => 1

theorem of_eq_failed {result : EStateM.Result Failure Reader (Option LogEntry)} {cause : Failure}
    (h : of result = failed cause) : ∃ r, result = .error cause r := by
  match result, h with
  | .error _ r, rfl => exact ⟨r, rfl⟩

end Answer

/-- What a call does: it consumes what its answer costs, and the position follows the entries. -/
structure Progress (r : Reader) (answer : Answer) (r' : Reader) : Prop where
  range : r'.range = r.range
  maxEntrySize : r'.maxEntrySize = r.maxEntrySize
  ending : r'.source.ending = none
  cost : answer.cost + r'.source.unread.length ≤ r.source.unread.length
  position_le : r.position ≤ r'.position
  consumed : r'.position + r'.source.unread.length ≤ r.position + r.source.unread.length
  moved : r'.position ≠ r.position → ∃ e, answer = .entry e
  admitted : ∀ e, answer = .entry e → r.range.start ≤ e.index ∧ ¬ r.range.EndsBefore e.index
  done : answer = .ended → r'.done = true

theorem MovedOn.progress {answer : Answer} (h : r.MovedOn n r')
    (hcost : answer.cost + n ≤ r.source.unread.length) (hentry : ∀ e, answer ≠ .entry e)
    (hdone : answer = .ended → r'.done = true) : r.Progress answer r' := by
  have hunread := h.source.unread
  obtain ⟨hrange, hlimit, hposition⟩ : r'.range = r.range ∧ r'.maxEntrySize = r.maxEntrySize ∧
      r'.position = r.position := by simpa [Reader.outlook] using h.outlook
  refine ⟨hrange, hlimit, h.source.ending, by omega, hposition.ge, by omega,
    fun hne => absurd hposition hne, fun e he => absurd he (hentry e), hdone⟩

/-- A call consumes what its answer costs, wherever the reader stands. -/
theorem progress_next (h : r.source.ending = none) :
    r.Progress (.of (next r)) (left next r) := by
  cases hactive : r.done with
  | true =>
    simp only [left, next_of_done hactive]
    have hstays : r.MovedOn r.source.unread.length r := ⟨rfl, h, le_rfl⟩
    exact hstays.progress (by simp [Answer.of, Answer.cost]) nofun fun _ => hactive
  | false =>
    cases hunread : r.source.unread with
    | nil =>
      obtain ⟨r', hnext, hmoved, hdone⟩ := next_of_empty hactive ⟨hunread, h⟩
      simp only [left, hnext]
      exact hmoved.progress (Nat.zero_le _) nofun fun _ => hdone
    | cons b rest =>
      have hends := ends_next hactive ⟨hunread, h⟩
      have hlength : r.source.unread.length = rest.length + 1 := by rw [hunread]; rfl
      cases hnext : next r with
      | error cause r' =>
        simp only [left, hnext]
        refine (hends.error hnext).progress ?_ nofun nofun
        simp only [Answer.of, Answer.cost]
        omega
      | ok result r' =>
        have hgives := hends.ok hnext
        simp only [left, hnext]
        cases result with
        | none =>
          obtain ⟨hmoved, hdone⟩ := hgives.none rfl
          exact hmoved.progress (by simp [Answer.of, Answer.cost, hlength]) nofun fun _ => hdone
        | some e =>
          obtain ⟨number, data, hyields⟩ := next_eq_some hnext
          obtain ⟨hleast, hframe⟩ := hyields.frameSize_le
          have hposition := hyields.position
          refine ⟨hyields.range, hyields.maxEntrySize, hgives.source.ending, ?_, by omega, by omega,
            fun _ => ⟨e, rfl⟩, ?_, nofun⟩
          · simp only [Answer.of, Answer.cost]
            omega
          · rintro _ ⟨rfl⟩
            exact ⟨hyields.start, hyields.last⟩

/-- A reader whose buffers can be allocated fails with errors only. -/
theorem error_of_next {failure : Failure} (h : r.source.ending = none)
    (hlimit : r.maxEntrySize < capacityLimit) (hnext : next r = .error failure r') :
    ∃ cause, failure = .error cause := by
  cases hactive : r.done with
  | true =>
    rw [next_of_done hactive] at hnext
    cases hnext
  | false =>
    have hawaits : r.Awaits r.range r.maxEntrySize r.source.unread := ⟨hactive, rfl, rfl, rfl, h⟩
    obtain ⟨cause, hcause, -⟩ := malformed_of_next hawaits hlimit hnext
    exact ⟨cause, hcause⟩

/-! ## Calls one after the other -/

def after (call : Step (Option LogEntry)) (r : Reader) : Nat → Reader
  | 0 => r
  | n + 1 => left call (after call r n)

def answerAt (call : Step (Option LogEntry)) (r : Reader) (k : Nat) : Answer :=
  .of (call (r.after call k))

def answers (call : Step (Option LogEntry)) (r : Reader) (n : Nat) : List Answer :=
  (List.range n).map (r.answerAt call)

variable {call : Step (Option LogEntry)}

theorem answers_succ (n : Nat) :
    r.answers call (n + 1) = r.answers call n ++ [r.answerAt call n] := by
  rw [answers, List.range_succ, List.map_append]
  rfl

theorem after_add (k n : Nat) : r.after call (k + n) = (r.after call k).after call n := by
  induction n with
  | zero => rfl
  | succ n ih =>
    rw [← Nat.add_assoc, after, ih]
    rfl

theorem answers_succ' (n : Nat) : r.answers call (n + 1) =
    .of (call r) :: (left call r).answers call n := by
  have hlater (k : Nat) : r.answerAt call (k + 1) = (left call r).answerAt call k := by
    rw [answerAt, Nat.add_comm, after_add]
    rfl
  rw [answers, List.range_succ_eq_map, List.map_cons, List.map_map]
  exact congrArg (_ :: ·) (List.map_congr_left fun k _ => hlater k)

/-- Once a call changes nothing and hands out nothing, neither do those after it. -/
theorem after_of_idle (h : call r = .ok none r) (n : Nat) : r.after call n = r := by
  induction n with
  | zero => rfl
  | succ n ih =>
    rw [after, ih, left, h]

theorem answerAt_of_idle (h : call r = .ok none r) (k : Nat) : r.answerAt call k = .ended := by
  rw [answerAt, after_of_idle h, h]
  rfl

theorem answers_of_idle (h : call r = .ok none r) (n : Nat) :
    r.answers call n = List.replicate n .ended := by
  rw [List.eq_replicate_iff, answers, List.length_map, List.length_range]
  refine ⟨rfl, fun answer hanswer => ?_⟩
  obtain ⟨k, -, rfl⟩ := List.mem_map.mp hanswer
  exact answerAt_of_idle h k

structure Advanced (r : Reader) (answers : List Answer) (r' : Reader) : Prop where
  range : r'.range = r.range
  maxEntrySize : r'.maxEntrySize = r.maxEntrySize
  ending : r'.source.ending = none
  cost : (answers.map Answer.cost).sum + r'.source.unread.length ≤ r.source.unread.length
  consumed : r'.position + r'.source.unread.length ≤ r.position + r.source.unread.length

theorem advanced_after (h : r.source.ending = none) (n : Nat) :
    r.Advanced (r.answers next n) (r.after next n) := by
  induction n with
  | zero => exact ⟨rfl, rfl, h, by simp [answers, after], le_rfl⟩
  | succ n ih =>
    have hstep : (r.after next n).Progress (r.answerAt next n) (r.after next (n + 1)) :=
      progress_next ih.ending
    have hcost := ih.cost
    have hcost' := hstep.cost
    refine ⟨hstep.range.trans ih.range, hstep.maxEntrySize.trans ih.maxEntrySize, hstep.ending, ?_,
      hstep.consumed.trans ih.consumed⟩
    rw [answers_succ, List.map_append, List.sum_append, List.map_singleton, List.sum_singleton]
    omega

theorem progress_after (h : r.source.ending = none) (k : Nat) :
    (r.after next k).Progress (r.answerAt next k) (r.after next (k + 1)) :=
  progress_next (advanced_after h k).ending

theorem countP_le_cost (answers : List Answer) :
    answers.countP (· ≠ .ended) ≤ (answers.map Answer.cost).sum := by
  induction answers with
  | nil => rfl
  | cons answer answers ih =>
    rw [List.countP_cons, List.map_cons, List.sum_cons]
    cases answer with
    | entry e =>
      rw [if_pos (by simp), Answer.cost]
      omega
    | ended =>
      rw [if_neg (by simp), Answer.cost]
      omega
    | failed cause =>
      rw [if_pos (by simp), Answer.cost]
      omega

theorem entries_le_cost (answers : List Answer) :
    34 * (answers.filterMap Answer.entry?).length ≤ (answers.map Answer.cost).sum := by
  induction answers with
  | nil => rfl
  | cons answer answers ih =>
    rw [List.map_cons, List.sum_cons]
    cases answer with
    | entry e =>
      have hentry : Answer.entry? (.entry e) = some e := rfl
      rw [List.filterMap_cons_some hentry, List.length_cons, Answer.cost]
      omega
    | ended => exact ih.trans (Nat.le_add_left _ _)
    | failed cause => exact ih.trans (Nat.le_add_left _ _)

/-- From the first end of the data on nothing is handed out. -/
theorem ended_of_le (h : r.source.ending = none) {k j : Nat} (hended : r.answerAt next k = .ended)
    (hle : k ≤ j) : r.answerAt next j = .ended := by
  rcases Nat.eq_or_lt_of_le hle with rfl | hlt
  · exact hended
  obtain ⟨m, rfl⟩ := Nat.exists_eq_add_of_le hlt
  have hidle := next_of_done ((progress_after h k).done hended)
  have hlater := answerAt_of_idle hidle m
  rw [answerAt, ← after_add] at hlater
  exact hlater

/-! ## Iterators -/

theorem nextOrStop_of_ok {result : Option LogEntry} (h : next r = .ok result r') :
    nextOrStop r = .ok result r' := by
  rw [nextOrStop, h]

theorem nextOrStop_of_error {cause : SegmentError} (h : next r = .error (.error cause) r') :
    nextOrStop r = .error (.error cause) { r' with done := true } := by
  rw [nextOrStop, h]
  rfl

theorem nextOrStop_of_done (hdone : r.done = true) : nextOrStop r = .ok none r :=
  nextOrStop_of_ok (next_of_done hdone)

/-- Whether the answers of an iterator are entries, those that other calls hand out too, then at
most one error, and then nothing more. -/
def Iterated (r : Reader) (answers : List Answer) : Prop :=
  ∃ (entries : List LogEntry) (cause? : Option SegmentError) (m : Nat),
    answers = entries.map .entry ++
      (cause?.toList.map (.failed <| .error ·) ++ List.replicate m .ended) ∧
    entries.map .entry = r.answers next entries.length

theorem answers_nextOrStop (h : r.source.ending = none) (hlimit : r.maxEntrySize < capacityLimit)
    (n : Nat) : r.Iterated (r.answers nextOrStop n) := by
  induction n generalizing r with
  | zero => exact ⟨[], none, 0, rfl, rfl⟩
  | succ n ih =>
    have hstep := progress_next h
    cases hnext : next r with
    | error failure r' =>
      obtain ⟨cause, rfl⟩ := error_of_next h hlimit hnext
      have hstop := nextOrStop_of_error hnext
      refine ⟨[], some cause, n, ?_, rfl⟩
      rw [answers_succ', left, hstop, answers_of_idle (nextOrStop_of_done rfl)]
      rfl
    | ok result r' =>
      have hcall := nextOrStop_of_ok hnext
      rw [left, hnext] at hstep
      cases result with
      | none =>
        refine ⟨[], none, n + 1, ?_, rfl⟩
        rw [answers_succ', left, hcall, answers_of_idle (nextOrStop_of_done (hstep.done rfl))]
        rfl
      | some e =>
        obtain ⟨entries, cause?, m, hrest, hsame⟩ := ih hstep.ending (hstep.maxEntrySize ▸ hlimit)
        refine ⟨e :: entries, cause?, m, ?_, ?_⟩
        · rw [answers_succ', left, hcall, hrest]
          rfl
        · rw [List.length_cons, answers_succ', left, hnext, ← hsame]
          rfl

/-! ## Files -/

/-- A reader that was opened is behind the header, if there is one. -/
theorem openOn_plain {path : String}
    (hopen : openOn path range limit { pending := content } = .ok r) :
    r.range = range ∧ r.maxEntrySize = limit ∧ r.position = headerSize ∧
      r.source.Has (content.drop headerSize) ∧
      (content.length < headerSize → r.done = true) := by
  by_cases hshort : content.length < headerSize
  · obtain ⟨s, htake, hs⟩ := Source.take?_short (Source.has_pending content) hshort
    simp only [openOn, htake] at hopen
    cases hopen
    rw [List.drop_of_length_le hshort.le]
    exact ⟨rfl, rfl, rfl, hs, fun _ => rfl⟩
  · have hfirst : (content.take headerSize).length = headerSize :=
      List.length_take_of_le (not_lt.mp hshort)
    obtain ⟨s, htake, hs⟩ := Source.take?_append
      (Source.has_pending (content.take headerSize ++ content.drop headerSize))
    rw [hfirst, List.take_append_drop] at htake
    simp only [openOn, htake] at hopen
    split at hopen
    · cases hopen
      exact ⟨rfl, rfl, rfl, hs, fun h => absurd h hshort⟩
    · split at hopen
      · cases hopen
        exact ⟨rfl, rfl, rfl, hs, fun h => absurd h hshort⟩
      · cases hopen

/-- What calls on a reader of a file of so many bytes come to, be they made after failures. -/
structure ComesToEnd (range : SegmentRange) (length : Nat) (r : Reader) : Prop where
  busy : ∀ n, (r.answers next n).countP (· ≠ .ended) ≤ max length headerSize - headerSize
  entries : ∀ n, ((r.answers next n).filterMap Answer.entry?).length ≤
    (max length headerSize - headerSize) / 34
  ended : ∀ k, r.answerAt next k = .ended → ∀ j, k ≤ j → r.answerAt next j = .ended
  /-- No call breaks a rule of use. -/
  returns : ∀ k cause, r.answerAt next k = .failed cause → ∃ error, cause = .error error
  forward : ∀ k, (r.after next k).position ≤ (r.after next (k + 1)).position
  moved : ∀ k, (r.after next (k + 1)).position ≠ (r.after next k).position →
    ∃ e, r.answerAt next k = .entry e
  /-- The bytes consumed are those that are not unread any more. -/
  consumed : ∀ k, if length < headerSize then (r.after next k).position = headerSize
    else (r.after next k).position ≤ length - (r.after next k).source.unread.length
  admitted : ∀ k e, r.answerAt next k = .entry e → range.start ≤ e.index ∧
    ¬ range.EndsBefore e.index
  iterated : ∀ n, r.Iterated (r.answers nextOrStop n)

/-- Whatever a file holds, a reader of it comes to its end after at most as many calls as it has
bytes behind the header, and from then on hands out nothing. -/
theorem comesToEnd_of_openOn {path : String} (hlimit : limit < capacityLimit)
    (hopen : openOn path range limit { pending := content } = .ok r) :
    r.ComesToEnd range content.length := by
  obtain ⟨rfl, rfl, hposition, hsource, hshort⟩ := openOn_plain hopen
  have hunread : r.source.unread.length = content.length - headerSize := by
    rw [hsource.unread, List.length_drop]
  have hlength : max content.length headerSize - headerSize = content.length - headerSize := by
    omega
  have hadvanced := advanced_after hsource.ending
  have hprogress := progress_after hsource.ending
  refine
    { busy := fun n => ?_
      entries := fun n => ?_
      ended := fun k hended j hle => ended_of_le hsource.ending hended hle
      returns := fun k cause hfailed => ?_
      forward := fun k => (hprogress k).position_le
      moved := fun k => (hprogress k).moved
      consumed := fun k => ?_
      admitted := fun k e hentry => ?_
      iterated := answers_nextOrStop hsource.ending hlimit }
  · have hcount := countP_le_cost (r.answers next n)
    have hcost := (hadvanced n).cost
    omega
  · have hcount := entries_le_cost (r.answers next n)
    have hcost := (hadvanced n).cost
    rw [Nat.le_div_iff_mul_le (by decide)]
    omega
  · obtain ⟨r', hnext⟩ := Answer.of_eq_failed hfailed
    exact error_of_next (hadvanced k).ending ((hadvanced k).maxEntrySize ▸ hlimit) hnext
  · split
    · next hlt =>
      rw [after_of_idle (next_of_done (hshort hlt)), hposition]
    · have hconsumed := (hadvanced k).consumed
      omega
  · have hadmitted := (hprogress k).admitted e hentry
    rw [(hadvanced k).range] at hadmitted
    exact hadmitted

def tornFile : Bytes :=
  magic ++ (0x1F :: ((LogEntry.sample 5).stripped.encode ++
    (Checksum.trailer (LogEntry.sample 5).stripped.encode ++ [0x80])))

theorem tornFile_comesToEnd : ∃ r,
    openOn "log" (.opening 5) 64 { pending := tornFile } = .ok r ∧
    r.answers next 3 = [.entry (LogEntry.sample 5).stripped,
      .failed (.error (.corruption (.truncatedNumber 1))), .ended] ∧
    r.ComesToEnd (.opening 5) tornFile.length := by
  obtain ⟨r, hopen⟩ : ∃ r, openOn "log" (.opening 5) 64 { pending := tornFile } = .ok r := ⟨_, rfl⟩
  refine ⟨r, hopen, ?_, comesToEnd_of_openOn (by decide) hopen⟩
  cases hopen
  decide +kernel

end Reader

end SegmentedLog
