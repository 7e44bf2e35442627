import SegmentedLog.Segment.Reconstruction

/-! # Segment directories

The segment files of a log lie side by side in one directory.
-/

namespace SegmentedLog

structure Directory where
  config : Config
deriving DecidableEq, Repr

namespace Directory

/-- Opens the directory of a configuration, which is made if it is not there. -/
def openOn (config : Config) : EStateM SegmentError Disk Directory := fun disk =>
  match Disk.makeDirectories config.dataDir disk with
  | .ok () disk => .ok ⟨config⟩ disk
  | .error cause disk => .error (.io cause) disk

def context (d : Directory) : SegmentContext :=
  { dataDir := d.config.dataDir, policy := d.config.policy, maxEntrySize := d.config.maxEntrySize }

/-- The segment files there are, with their paths, by ascending start. -/
def segments (d : Directory) (disk : Disk) :
    Except SegmentError (List (SegmentRange × String)) :=
  match disk.list d.config.dataDir with
  | .error cause => .error (.io cause)
  | .ok names =>
    let found := names.filterMap fun (name, _) =>
      let path := Path.join d.config.dataDir name
      if disk.isFile path then (SegmentRange.parse? name).map (·, path) else none
    .ok (found.mergeSort fun a b => a.1.start ≤ b.1.start)

end Directory

end SegmentedLog
