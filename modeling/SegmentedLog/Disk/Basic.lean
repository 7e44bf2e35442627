import SegmentedLog.Bytes.LittleEndian

/-! # Directories and files

A disk holds directories, which give names to files and to other directories, and the bytes of the
files. Files and directories are known by their identities: whoever has a file open goes on with the
same bytes after the name is gone or means something else, and a directory that moves takes along
what is in it.
-/

namespace SegmentedLog

/-- The identity of a file, whatever it is called. -/
structure FileId where
  number : Nat
deriving DecidableEq, Repr

/-- The identity of a directory, wherever it lies. -/
structure DirectoryId where
  number : Nat
deriving DecidableEq, Repr

def DirectoryId.root : DirectoryId := ⟨0⟩

inductive Node where
  | directory (id : DirectoryId)
  | file (id : FileId)
deriving DecidableEq, Repr

def Node.isFile : Node → Bool
  | .file _ => true
  | .directory _ => false

structure Place where
  dir : DirectoryId
  name : String
deriving DecidableEq, Repr

structure Disk where
  directories : Array (List (String × Node)) := #[[]]
  contents : Array Bytes := #[]
deriving Repr

namespace Disk

/-- The names in a directory, each with what it names, in no particular order. -/
def children (disk : Disk) (id : DirectoryId) : List (String × Node) :=
  disk.directories.getD id.number []

def node? (disk : Disk) (place : Place) : Option Node :=
  (disk.children place.dir).lookup place.name

def content (disk : Disk) (id : FileId) : Bytes := disk.contents.getD id.number []

def setContent (disk : Disk) (id : FileId) (bytes : Bytes) : Disk :=
  { disk with contents := disk.contents.setIfInBounds id.number bytes }

/-- Writes `bytes` over a file's own from `offset` on; a hole before that reads as zeros. -/
def overwrite (disk : Disk) (id : FileId) (offset : Nat) (bytes : Bytes) : Disk :=
  let old := disk.content id
  disk.setContent id
    (old.take offset ++ (List.replicate (offset - old.length) 0 ++
      (bytes ++ old.drop (offset + bytes.length))))

/-- Cuts a file to `length` bytes, or pads it with zeros. -/
def resize (disk : Disk) (id : FileId) (length : Nat) : Disk :=
  let old := disk.content id
  disk.setContent id (old.take length ++ List.replicate (length - old.length) 0)

def clear (disk : Disk) (place : Place) : Disk :=
  { disk with
    directories := disk.directories.modify place.dir.number (·.filter (·.1 ≠ place.name)) }

/-- Makes a name mean `node`, whatever it meant. -/
def put (disk : Disk) (place : Place) (node : Node) : Disk :=
  { disk with
    directories := disk.directories.modify place.dir.number fun names =>
      (place.name, node) :: names.filter (·.1 ≠ place.name) }

def create (disk : Disk) (place : Place) : FileId × Disk :=
  let id : FileId := ⟨disk.contents.size⟩
  (id, { disk with contents := disk.contents.push [] }.put place (.file id))

def createDirectory (disk : Disk) (place : Place) : Disk :=
  let id : DirectoryId := ⟨disk.directories.size⟩
  { disk with directories := disk.directories.push [] }.put place (.directory id)

def move (disk : Disk) (old new : Place) (node : Node) : Disk := (disk.clear old).put new node

end Disk

end SegmentedLog
