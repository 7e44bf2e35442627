import SegmentedLog.Inspect.Report

/-! # The inspector as a program

The files an inspection may touch are taken into a disk. The inspection runs on that disk, and what
it removed or cut off there is then removed or cut off in the file system.
-/

namespace SegmentedLog.Inspect

def readIfThere (path : String) : IO (Option Bytes) := do
  try
    let bytes ← IO.FS.readBinFile path
    return some bytes.toList
  catch _ => return none

def directoryThere (path : String) : IO Bool := do
  try
    let _ ← IO.FS.realPath (Path.join path ".")
    return true
  catch _ => return false

/-- Takes the file at a path into a disk, and the directories it lies in as far as they exist. -/
def takeFile (disk : Disk) (path : String) : IO Disk := do
  let mut disk := disk
  for spot in Path.way path do
    match ← readIfThere spot with
    | some bytes =>
      if let .ok () next := Disk.write spot bytes disk then disk := next
    | none =>
      if ← directoryThere spot then
        if let .ok () next := Disk.makeDirectories spot disk then disk := next
  return disk

/-- Does to the file at a path what happened to it on a disk. -/
def settleFile (before after : Disk) (path : String) : IO Unit := do
  match before.read path, after.read path with
  | .ok _, .error _ => IO.FS.removeFile path
  | .ok old, .ok new => if old ≠ new then IO.FS.writeBinFile path ⟨new.toArray⟩
  | .error _, _ => pure ()

/-- Makes the directory of the file, which an inspection does before it looks for the file. -/
def openPlace (arguments : Arguments) : IO Unit := do
  if let .ok _ := arguments.range then
    try IO.FS.createDirAll arguments.config.dataDir catch _ => pure ()

def inspectFile (line : List String) (arguments : Arguments) : IO Outcome := do
  openPlace arguments
  let disk ← takeFile {} arguments.file
  let disk ←
    match arguments.load?, reloadFile? arguments disk with
    | some _, some file => takeFile disk file
    | _, _ => pure disk
  let outcome := run line disk
  settleFile disk outcome.disk arguments.file
  return outcome

def runInPlace (line : List String) : IO Outcome :=
  match read line with
  | .ok (.inspect arguments) => inspectFile line arguments
  | _ => pure (run line {})

end SegmentedLog.Inspect

def main (arguments : List String) : IO UInt32 := do
  let outcome ← SegmentedLog.Inspect.runInPlace arguments
  IO.print outcome.output
  if outcome.complaint ≠ "" then IO.eprintln outcome.complaint
  return outcome.code
