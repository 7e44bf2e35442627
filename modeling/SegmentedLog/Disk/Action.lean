import SegmentedLog.Disk.Lookup

/-! # What is done to a disk by path

An action that fails leaves the disk as it was; only the making of several directories may stop
half-way.
-/

namespace SegmentedLog.Disk

/-- A result, and the disk it leaves; after a failure too. -/
abbrev Action := EStateM IoError Disk

def ask {α : Type} (question : Disk → Except IoError α) : Action α := fun disk =>
  match question disk with
  | .ok a => .ok a disk
  | .error cause => .error cause disk

def openOrCreate (path : String) : Action FileId := do
  let spot ← ask (·.follow path)
  if spot.IsDots ∨ spot.slash then throw .isDirectory
  else
    match ← ask (·.under? spot.place) with
    | some (.directory _) => throw .isDirectory
    | some (.file id) => pure id
    | none => modifyGet (·.create spot.place)

def write (path : String) (bytes : Bytes) : Action Unit := do
  let id ← openOrCreate path
  modify (·.setContent id bytes)

def update (path : String) (f : Bytes → Bytes) : Action Unit := do
  let id ← ask (·.findFile path)
  modify fun disk => disk.setContent id (f (disk.content id))

/-- No file is this long: a length is a signed number of 64 bits. -/
def lengthLimit : Nat := 0x8000000000000000

def setLength (path : String) (length : Nat) : Action Unit := do
  let id ← ask (·.findFile path)
  if lengthLimit ≤ length then throw .lengthOutOfRange
  else modify (·.resize id length)

def remove (path : String) : Action Unit := do
  let spot ← ask (·.follow path)
  if spot.IsDots then throw .isDirectory
  else
    match ← ask (·.under? spot.place) with
    | none => throw .notFound
    | some (.directory _) => throw .isDirectory
    | some (.file _) => if spot.slash then throw .notDirectory else modify (·.clear spot.place)

def makeDirectory (path : String) : Action Unit := do
  let spot ← ask (·.follow path)
  if spot.IsDots then throw .alreadyExists
  else
    match ← ask (·.under? spot.place) with
    | some _ => throw .alreadyExists
    | none => modify (·.createDirectory spot.place)

/-- Makes a directory unless it is there. -/
def ensureDirectory (path : String) : Action Unit := fun disk =>
  match makeDirectory path disk with
  | .ok () disk => .ok () disk
  | .error cause disk => if disk.isDirectory path then .ok () disk else .error cause disk

/-- Makes the first of some directories, each of which lies in the next. Those behind it are made
only if it has no place yet. -/
def makeWay : List String → Action Unit
  | [] => pure ()
  | path :: outer => fun disk =>
    match ensureDirectory path disk with
    | .error .notFound disk => (do makeWay outer; ensureDirectory path) disk
    | result => result

/-- Makes a directory and those it lies in. The empty path is the current directory. -/
def makeDirectories (path : String) : Action Unit :=
  if path = "" then pure () else makeWay (path :: (Path.way path).dropLast.reverse)

def checkReplace (disk : Disk) (node there : Node) : Except IoError Unit :=
  match node, there with
  | .directory _, .file _ => throw .notDirectory
  | .file _, .directory _ => throw .isDirectory
  | .directory _, .directory id => if disk.children id = [] then pure () else throw .notEmpty
  | .file _, .file _ => pure ()

/-- Whether a node is a directory that a spot lies in, however deep. -/
def Encloses (node : Node) (spot : Spot) : Prop :=
  match node with
  | .directory id => id ∈ spot.trail
  | .file _ => False

instance (node : Node) (spot : Spot) : Decidable (Encloses node spot) :=
  match node with
  | .directory id => inferInstanceAs (Decidable (id ∈ spot.trail))
  | .file _ => isFalse id

/-- Moves `node` from one spot to another, in place of `there?`. A directory goes neither into
itself nor over one it lies in. -/
def moveTo (old new : Spot) (node : Node) (there? : Option Node) : Action Unit := do
  if Encloses node new then throw .invalidArgument
  else
    match there? with
    | none => modify (·.move old.place new.place node)
    | some there =>
      if Encloses there old then throw .notEmpty
      else if old.place ≠ new.place then
        ask (·.checkReplace node there)
        modify (·.move old.place new.place node)

/-- Gives what `source` names the name `target`. Both are checked before either is followed. -/
def rename (source target : String) : Action Unit := do
  ask fun _ => Path.checkText source
  ask fun _ => Path.checkText target
  let old ← ask (·.follow source)
  let new ← ask (·.follow target)
  if old.IsDots ∨ new.IsDots then throw .busy
  else
    match ← ask (·.under? old.place) with
    | none => throw .notFound
    | some node =>
      let there? ← ask (·.under? new.place)
      if node.isFile && (old.slash || new.slash) then throw .notDirectory
      else moveTo old new node there?

end SegmentedLog.Disk
