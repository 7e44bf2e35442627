/-! # Why a file operation fails -/

namespace SegmentedLog

/-- The reasons the file system gives, and any other reason in its own words. -/
inductive IoError where
  | notFound
  | busy
  | alreadyExists
  | notDirectory
  | isDirectory
  | invalidArgument
  | nameTooLong
  | notEmpty
  /-- A path holds the character that would end it. -/
  | nulInPath
  | lengthOutOfRange
  | other (text : String)
deriving DecidableEq, Repr

def IoError.message : IoError → String
  | .notFound => "No such file or directory (os error 2)"
  | .busy => "Device or resource busy (os error 16)"
  | .alreadyExists => "File exists (os error 17)"
  | .notDirectory => "Not a directory (os error 20)"
  | .isDirectory => "Is a directory (os error 21)"
  | .invalidArgument => "Invalid argument (os error 22)"
  | .nameTooLong => "File name too long (os error 36)"
  | .notEmpty => "Directory not empty (os error 39)"
  | .nulInPath => "file name contained an unexpected NUL byte"
  | .lengthOutOfRange => "number too large to fit in target type"
  | .other text => text

end SegmentedLog
