import SegmentedLog.Directory
import SegmentedLog.Inspect.Arguments

/-! # Inspecting a segment file

The inspector reconstructs the segment of a file, prints its records and totals, and on request
loads one entry again from the file. What was printed before a failure stays printed.
-/

namespace SegmentedLog.Inspect

structure Desk extends Host where
  output : String := ""

abbrev Step := EStateM Failure Desk

def printLine (line : String) : Step Unit :=
  modify fun desk => { desk with output := desk.output ++ line ++ "\n" }

def onHost {α : Type} (m : Host.Step α) : Step α := fun desk =>
  match m desk.toHost with
  | .ok a host => .ok a { desk with toHost := host }
  | .error cause host => .error cause { desk with toHost := host }

/-- Works on a segment, and tells what became of it. -/
def onSegment {α : Type} (seg : Segment) (m : Session.Step α) : Step (α × Segment) := fun desk =>
  match m { desk.toHost with segment := seg } with
  | .ok a s => .ok (a, s.segment) { desk with toHost := s.toHost }
  | .error cause s => .error cause { desk with toHost := s.toHost }

def alignRight (width : Nat) (text : String) : String :=
  String.ofList (text.toList.leftpad width ' ')

def row (index term kind offset size : String) : String :=
  " ".intercalate [alignRight 12 index, alignRight 8 term, alignRight 14 kind,
    alignRight 12 offset, alignRight 10 size]

def recordRow (r : LogRecord) : String :=
  row (toString r.header.key.index) (toString r.header.key.term) r.header.kind.name
    (toString r.offset) (toString r.header.size)

/-- The range to read: as demanded, or as the name of the file says. -/
def Arguments.range (arguments : Arguments) : Except ConfigError SegmentRange :=
  match arguments.start?, arguments.last? with
  | some start, some last => .ok (.closed start last)
  | some start, none => .ok (.opening start)
  | none, _ =>
    match SegmentRange.ofPath? arguments.file with
    | some range => .ok range
    | none => .error (.underivableRange arguments.file)

def Arguments.config (arguments : Arguments) : Config :=
  { dataDir := Path.parent arguments.file
    policy := arguments.policy
    maxEntrySize := arguments.maxEntrySize.toNat
    keepCached := arguments.keepCached }

def openDirectory (config : Config) : Host.Step Directory := fun host =>
  match Directory.openOn config host.disk with
  | .ok directory disk => .ok directory { host with disk }
  | .error cause disk => .error (.error cause) { host with disk }

def printRecords (seg : Segment) : Step Unit := do
  printLine (row "INDEX" "TERM" "KIND" "OFFSET" "SIZE")
  seg.records.forM fun r => printLine (recordRow r)
  printLine ""
  printLine s!"segment:          {seg}"
  printLine s!"entries:          {seg.size}"
  printLine s!"total file size:  {seg.fileSize}"
  printLine s!"cache size:       {seg.cache.size}"

/-- Empties the cache and loads one entry again. -/
def reload (seg : Segment) (index : UInt64) : Step Unit := do
  match seg.record? index with
  | none => throw (.error (.config (.unknownIndex index seg.name)))
  | some r =>
    let (loaded, seg) ← onSegment seg (do Session.evict; Session.load r.key)
    printLine ""
    printLine s!"loaded {loaded.entry.key}: {loaded.entry.payload.length} payload bytes"
    printLine s!"cache entries:    {seg.cache.entries}"
    printLine s!"loading times:    {seg.loader.loadingTimes}"

def printStatistics : Step Unit := do
  let metrics := (← get).metrics
  printLine s!"entries read:     {metrics.entriesRead}"
  printLine s!"segment loads:    {metrics.segmentLoads}"

def reconstruct (arguments : Arguments) : Host.Step (SegmentRange × Option Segment) := do
  match arguments.range with
  | .error cause => throw (.error (.config cause))
  | .ok range =>
    let directory ← openDirectory arguments.config
    let seg? ← Host.loadSegment directory.context arguments.file range directory.config.keepCached
    pure (range, seg?)

def inspect (arguments : Arguments) : Step Unit := do
  let (range, seg?) ← onHost (reconstruct arguments)
  match seg? with
  | none => printLine s!"{range}: no entries (file deleted)"
  | some seg =>
    printRecords seg
    if let some index := arguments.load? then reload seg index
    printStatistics

/-- The file entries would be loaded from again, which the name of the inspected one need not be. -/
def reloadFile? (arguments : Arguments) (disk : Disk) : Option String :=
  match reconstruct arguments { disk } with
  | .ok (_, some seg) _ => some seg.file
  | _ => none

def versionText : String := "logsegment-dump 0.1.0\n"

def helpText : String :=
  "Inspect a write-ahead log segment file\n" ++
  "\n" ++
  "Usage: logsegment-dump [OPTIONS] <FILE>\n" ++
  "\n" ++
  "Arguments:\n" ++
  "  <FILE>  Segment file (log_<start>-<end> or log_inprogress_<start>)\n" ++
  "\n" ++
  "Options:\n" ++
  "      --start <START>\n" ++
  "          Start index, if the file name does not follow the naming scheme\n" ++
  "      --end <END>\n" ++
  "          End index of a closed segment (omit for an open segment)\n" ++
  "  -p, --policy <POLICY>\n" ++
  "          Corruption policy: exception | warn_and_return [default: warn_and_return]\n" ++
  "      --max-entry-size <MAX_ENTRY_SIZE>\n" ++
  "          Maximum serialized entry size in bytes [default: 33554432]\n" ++
  "  -k, --keep-cache\n" ++
  "          Keep closed segment entries cached while reading\n" ++
  "  -l, --load <LOAD>\n" ++
  "          After reading, evict the cache and reload this index from disk\n" ++
  "  -h, --help\n" ++
  "          Print help\n" ++
  "  -V, --version\n" ++
  "          Print version\n"

/-- How a run of the inspector ends. -/
structure Outcome where
  code : UInt32
  output : String
  complaint : String := ""
  disk : Disk

def run (arguments : List String) (disk : Disk) : Outcome :=
  match read arguments with
  | .error cause => { code := 2, output := "", complaint := cause.message, disk }
  | .ok .help => { code := 0, output := helpText, disk }
  | .ok .version => { code := 0, output := versionText, disk }
  | .ok (.inspect arguments) =>
    match inspect arguments { disk } with
    | .ok () desk => { code := 0, output := desk.output, disk := desk.disk }
    | .error cause desk =>
      let code :=
        match cause with
        | .error _ => 1
        | .fault _ => 101
      { code, output := desk.output, complaint := cause.message, disk := desk.disk }

end SegmentedLog.Inspect
