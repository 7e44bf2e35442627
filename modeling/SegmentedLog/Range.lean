import SegmentedLog.Text.Decimal
import SegmentedLog.Text.Path

/-! # Index ranges and file names

A segment file is named for the range of indices it holds: `log_<start>-<end>` when closed,
`log_inprogress_<start>` while open.
-/

namespace SegmentedLog

structure SegmentRange where
  start : UInt64
  /-- The last index, inclusive; without meaning while open. -/
  last : UInt64
  isOpen : Bool
deriving DecidableEq, Repr

namespace SegmentRange

def opening (start : UInt64) : SegmentRange := ⟨start, start, true⟩

def closed (start last : UInt64) : SegmentRange := ⟨start, last, false⟩

/-- Whether an index lies past the end. -/
def EndsBefore (range : SegmentRange) (index : UInt64) : Prop :=
  range.isOpen = false ∧ range.last < index

instance (range : SegmentRange) (index : UInt64) : Decidable (range.EndsBefore index) :=
  inferInstanceAs (Decidable (_ ∧ _))

def closedMark : List Char := ['l', 'o', 'g', '_']

def openMark : List Char := closedMark ++ ['i', 'n', 'p', 'r', 'o', 'g', 'r', 'e', 's', 's', '_']

def nameChars (range : SegmentRange) : List Char :=
  if range.isOpen then openMark ++ Decimal.print range.start
  else closedMark ++ Decimal.print range.start ++ '-' :: Decimal.print range.last

def name (range : SegmentRange) : String := String.ofList range.nameChars

instance : ToString SegmentRange := ⟨name⟩

/-- What follows `mark` in `cs`. -/
def dropMark? : (mark cs : List Char) → Option (List Char)
  | [], cs => some cs
  | _ :: _, [] => none
  | m :: mark, c :: cs => if m = c then dropMark? mark cs else none

def splitDash? : List Char → Option (List Char × List Char)
  | [] => none
  | c :: cs => if c = '-' then some ([], cs) else (splitDash? cs).map fun p => (c :: p.1, p.2)

/-- Reads `<start>-<last>`, whose numbers must be in order. -/
def parseClosed? (cs : List Char) : Option SegmentRange := do
  let (start, last) ← splitDash? cs
  let start ← Decimal.parse? start
  let last ← Decimal.parse? last
  if start ≤ last then some (closed start last) else none

/-- A name with the mark of open segments is never that of a closed one. -/
def parseChars? (cs : List Char) : Option SegmentRange :=
  match dropMark? openMark cs with
  | some start => (Decimal.parse? start).map opening
  | none => (dropMark? closedMark cs).bind parseClosed?

def parse? (name : String) : Option SegmentRange := parseChars? name.toList

/-- The range the last component of a path stands for. -/
def ofPath? (path : String) : Option SegmentRange := (Path.name? path).bind parse?

def fileIn (range : SegmentRange) (dir : String) : String := Path.join dir range.name

end SegmentRange

end SegmentedLog
