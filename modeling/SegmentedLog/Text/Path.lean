/-! # Paths

A path is a text. The names on it are what stands between slashes, blanks left out; its components
are the names that are not a single dot.
-/

namespace SegmentedLog.Path

/-- What stands between slashes, blanks included; never empty. -/
def split : List Char → List (List Char)
  | [] => [[]]
  | '/' :: cs => [] :: split cs
  | c :: cs =>
    match split cs with
    | [] => [[c]]
    | part :: parts => (c :: part) :: parts

def names (path : String) : List String :=
  ((split path.toList).filter (· ≠ [])).map String.ofList

def components (path : String) : List String := (names path).filter (· ≠ ".")

/-- The last component, unless it leads upwards. -/
def name? (path : String) : Option String :=
  match (components path).getLast? with
  | some ".." => none
  | name? => name?

/-- Whether nothing stands behind the last slash; so of the empty path too. -/
def EndsOpen (path : String) : Prop := path.toList.getLast?.getD '/' = '/'

instance (path : String) : Decidable (EndsOpen path) :=
  inferInstanceAs (Decidable (_ = _))

/-- The path of `name` inside the directory `dir`; the empty path is the current directory. -/
def join (dir name : String) : String :=
  if EndsOpen dir then dir ++ name else dir ++ "/" ++ name

def isAbsolute (path : String) : Bool := path.toList.head? = some '/'

def base (path : String) : String := if isAbsolute path then "/" else ""

def parent (path : String) : String :=
  base path ++ "/".intercalate (components path).dropLast

/-- The path of each name, walked one after the other from `here`. -/
def wayFrom (here : String) : List String → List String
  | [] => []
  | name :: names => join here name :: wayFrom (join here name) names

def way (path : String) : List String := wayFrom (base path) (components path)

end SegmentedLog.Path
