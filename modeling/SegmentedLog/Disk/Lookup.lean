import SegmentedLog.Disk.Basic
import SegmentedLog.Disk.Error
import SegmentedLog.Text.Path

/-! # What a path means on a disk

All names on a path but the last lead from one existing directory to the next. What the last one may
be depends on what is done with it.
-/

namespace SegmentedLog

/-- The directories a walk has entered below the root and not left again, innermost first. -/
abbrev Trail := List DirectoryId

def Trail.here (trail : Trail) : DirectoryId := trail.headD .root

/-- The last step of a path: a name in a directory that exists. -/
structure Spot where
  trail : Trail
  name : String
  /-- Whether a slash follows the name, which only a directory may have. -/
  slash : Bool
deriving DecidableEq, Repr

namespace Spot

def place (spot : Spot) : Place := ⟨Trail.here spot.trail, spot.name⟩

/-- Dots name a directory that is there under another name. -/
def IsDots (spot : Spot) : Prop := spot.name = "." ∨ spot.name = ".."

instance (spot : Spot) : Decidable spot.IsDots := inferInstanceAs (Decidable (_ ∨ _))

end Spot

def maxNameSize : Nat := 255

def maxPathSize : Nat := 4095

/-- Refuses a text that cannot be handed over as a path. -/
def Path.checkText (path : String) : Except IoError Unit :=
  if '\x00' ∈ path.toList then .error .nulInPath else .ok ()

def Path.check (path : String) : Except IoError Unit := do
  checkText path
  if maxPathSize < path.utf8ByteSize then .error .nameTooLong
  else if path = "" then .error .notFound
  else .ok ()

namespace Disk

/-- What stands at a place, if its name may stand anywhere. -/
def under? (disk : Disk) (place : Place) : Except IoError (Option Node) :=
  if maxNameSize < place.name.utf8ByteSize then .error .nameTooLong else .ok (disk.node? place)

def enter (disk : Disk) (trail : Trail) (name : String) : Except IoError Trail :=
  if name = "." then .ok trail
  else if name = ".." then .ok trail.tail
  else
    match disk.under? ⟨Trail.here trail, name⟩ with
    | .error cause => .error cause
    | .ok none => .error .notFound
    | .ok (some (.file _)) => .error .notDirectory
    | .ok (some (.directory id)) => .ok (id :: trail)

def walk (disk : Disk) (names : List String) : Except IoError Trail := names.foldlM disk.enter []

/-- Follows a path to its last name; a path without names is the directory it starts at. -/
def follow (disk : Disk) (path : String) : Except IoError Spot := do
  Path.check path
  let names := Path.names path
  let trail ← disk.walk names.dropLast
  pure ⟨trail, names.getLast?.getD ".", Path.EndsOpen path⟩

def find (disk : Disk) (path : String) : Except IoError Node := do
  let spot ← disk.follow path
  if spot.IsDots then
    let trail ← disk.enter spot.trail spot.name
    pure (.directory (Trail.here trail))
  else
    match ← disk.under? spot.place with
    | none => throw .notFound
    | some (.directory id) => pure (.directory id)
    | some (.file id) => if spot.slash then throw .notDirectory else pure (.file id)

def findFile (disk : Disk) (path : String) : Except IoError FileId := do
  match ← disk.find path with
  | .file id => pure id
  | .directory _ => throw .isDirectory

def read (disk : Disk) (path : String) : Except IoError Bytes :=
  disk.content <$> disk.findFile path

def isFile (disk : Disk) (path : String) : Bool := (disk.findFile path).toBool

def isDirectory (disk : Disk) (path : String) : Bool :=
  match disk.find path with
  | .ok (.directory _) => true
  | _ => false

/-- The names in the directory a path names, in the order of their characters. -/
def list (disk : Disk) (path : String) : Except IoError (List (String × Node)) := do
  Path.check path
  let trail ← disk.walk (Path.names path)
  pure ((disk.children (Trail.here trail)).mergeSort fun a b => a.1 ≤ b.1)

end Disk

end SegmentedLog
