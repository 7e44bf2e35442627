import SegmentedLog.Config
import SegmentedLog.Text.Decimal

/-! # Command line of the inspector

Arguments are read from left to right. The first mistake ends the reading, and so does a request for
help or for the version; what the arguments demand of each other is checked at the end.
-/

namespace SegmentedLog.Inspect

structure Arguments where
  file : String
  start? : Option UInt64 := none
  last? : Option UInt64 := none
  policy : CorruptionPolicy := .tolerant
  maxEntrySize : UInt64 := UInt64.ofNat defaultMaxEntrySize
  keepCached : Bool := false
  load? : Option UInt64 := none
deriving DecidableEq, Repr

inductive Request where
  | help
  | version
  | inspect (arguments : Arguments)
deriving DecidableEq, Repr

inductive OptionName where
  | start
  | last
  | policy
  | maxEntrySize
  | keepCached
  | load
  | help
  | version
deriving DecidableEq, Repr

namespace OptionName

def long : OptionName → String
  | .start => "start"
  | .last => "end"
  | .policy => "policy"
  | .maxEntrySize => "max-entry-size"
  | .keepCached => "keep-cache"
  | .load => "load"
  | .help => "help"
  | .version => "version"

def short? : OptionName → Option Char
  | .policy => some 'p'
  | .keepCached => some 'k'
  | .load => some 'l'
  | .help => some 'h'
  | .version => some 'V'
  | .start | .last | .maxEntrySize => none

def all : List OptionName :=
  [.start, .last, .policy, .maxEntrySize, .keepCached, .load, .help, .version]

def ofLong? (text : String) : Option OptionName := all.find? (·.long = text)

def ofShort? (c : Char) : Option OptionName := all.find? (·.short? = some c)

def takesValue : OptionName → Bool
  | .start | .last | .policy | .maxEntrySize | .load => true
  | .keepCached | .help | .version => false

end OptionName

inductive UsageError where
  | unknown (argument : String)
  | repeated (name : OptionName)
  | missingValue (name : OptionName)
  | badValue (name : OptionName) (text : String)
  | needlessValue (name : OptionName)
  | tooMany (argument : String)
  | emptyFile
  | noFile
  | lastWithoutStart
deriving DecidableEq, Repr

def UsageError.message : UsageError → String
  | .unknown argument => s!"unexpected argument '{argument}'"
  | .repeated name => s!"--{name.long} is given more than once"
  | .missingValue name => s!"--{name.long} needs a value"
  | .badValue name text => s!"'{text}' is no value for --{name.long}"
  | .needlessValue name => s!"--{name.long} takes no value"
  | .tooMany argument => s!"one file can be inspected, '{argument}' is another"
  | .emptyFile => "the name of the file is empty"
  | .noFile => "no file is given"
  | .lastWithoutStart => "--end needs --start"

/-- What has been read so far. -/
structure Draft where
  file? : Option String := none
  start? : Option UInt64 := none
  last? : Option UInt64 := none
  policy? : Option CorruptionPolicy := none
  maxEntrySize? : Option UInt64 := none
  keepCached : Bool := false
  load? : Option UInt64 := none

namespace Draft

def number (name : OptionName) (text : String) : Except UsageError UInt64 :=
  match Decimal.parse? text.toList with
  | some n => .ok n
  | none => .error (.badValue name text)

/-- A value for an option that may be given once. -/
def once {α : Type} (name : OptionName) (there : Option α) (value : Except UsageError α) :
    Except UsageError (Option α) := do
  if there.isSome then throw (.repeated name)
  some <$> value

def setValue (d : Draft) (name : OptionName) (text : String) : Except UsageError Draft := do
  match name with
  | .start => return { d with start? := ← once name d.start? (number name text) }
  | .last => return { d with last? := ← once name d.last? (number name text) }
  | .maxEntrySize =>
    return { d with maxEntrySize? := ← once name d.maxEntrySize? (number name text) }
  | .load => return { d with load? := ← once name d.load? (number name text) }
  | .policy =>
    let value := (CorruptionPolicy.parse text).mapError fun _ => UsageError.badValue name text
    return { d with policy? := ← once name d.policy? value }
  | .keepCached | .help | .version => throw (.needlessValue name)

def setFile (d : Draft) (text : String) : Except UsageError Draft := do
  if d.file?.isSome then throw (.tooMany text)
  if text.isEmpty then throw .emptyFile
  return { d with file? := some text }

def finish (d : Draft) : Except UsageError Arguments := do
  let some file := d.file? | throw .noFile
  if d.last?.isSome && d.start?.isNone then throw .lastWithoutStart
  return {
    file
    start? := d.start?
    last? := d.last?
    policy := d.policy?.getD .tolerant
    maxEntrySize := d.maxEntrySize?.getD (UInt64.ofNat defaultMaxEntrySize)
    keepCached := d.keepCached
    load? := d.load? }

end Draft

/-- Whether an argument stands where an option does. -/
def looksLikeOption (argument : String) : Bool :=
  match argument.toList with
  | '-' :: _ :: _ => true
  | _ => false

/-- The arguments one option takes up, and the request it makes by itself. -/
inductive Effect where
  | request (r : Request)
  | draft (d : Draft) (rest : List String)

def switch (d : Draft) (rest : List String) (name : OptionName) : Except UsageError Effect :=
  match name with
  | .help => .ok (.request .help)
  | .version => .ok (.request .version)
  | _ =>
    if d.keepCached then .error (.repeated name)
    else .ok (.draft { d with keepCached := true } rest)

def valued (d : Draft) (rest : List String) (name : OptionName) (attached : Option String) :
    Except UsageError Effect :=
  match attached, rest with
  | some text, _ => (Effect.draft · rest) <$> d.setValue name text
  | none, [] => .error (.missingValue name)
  | none, text :: rest =>
    if looksLikeOption text then .error (.missingValue name)
    else (Effect.draft · rest) <$> d.setValue name text

/-- An option by its long name, with what follows the equals sign if there is one. -/
def long (d : Draft) (rest : List String) (argument : List Char) : Except UsageError Effect :=
  let name := argument.takeWhile (· ≠ '=')
  let attached := (argument.dropWhile (· ≠ '=')).tail
  let hasValue := argument.contains '='
  match OptionName.ofLong? (String.ofList name) with
  | none => .error (.unknown (String.ofList argument))
  | some name =>
    if name.takesValue then
      valued d rest name (if hasValue then some (String.ofList attached) else none)
    else if hasValue then .error (.needlessValue name)
    else switch d rest name

/-- A run of one-letter options; the first that takes a value takes what is left of the run. -/
def short (d : Draft) (rest : List String) : List Char → Except UsageError Effect
  | [] => .ok (.draft d rest)
  | c :: cs =>
    match OptionName.ofShort? c with
    | none => .error (.unknown (String.singleton c))
    | some name =>
      if name.takesValue then
        valued d rest name
          (match cs with
          | [] => none
          | '=' :: cs => some (String.ofList cs)
          | cs => some (String.ofList cs))
      else
        match switch d rest name with
        | .ok (.draft d rest) => short d rest cs
        | result => result

def one (d : Draft) (argument : String) (rest : List String) : Except UsageError Effect :=
  match argument.toList with
  | '-' :: '-' :: name => long d rest name
  | '-' :: c :: cs => short d rest (c :: cs)
  | _ => (Effect.draft · rest) <$> d.setFile argument

/-- Reads the arguments; none of them takes up more than all there are. -/
def readFrom : (fuel : Nat) → Draft → List String → Except UsageError Request
  | 0, d, _ | _, d, [] => Request.inspect <$> d.finish
  | fuel + 1, d, argument :: rest =>
    if argument = "--" then do
      let d ← rest.foldlM Draft.setFile d
      Request.inspect <$> d.finish
    else
      match one d argument rest with
      | .error cause => .error cause
      | .ok (.request r) => .ok r
      | .ok (.draft d rest) => readFrom fuel d rest

def read (arguments : List String) : Except UsageError Request :=
  readFrom arguments.length {} arguments

end SegmentedLog.Inspect
