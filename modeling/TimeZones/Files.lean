import TimeZones.Bytes

/-! A tree of files, and reading from it. -/
namespace TimeZones

/-- Files with their contents and directories, by the names on the way to them from the top. The
directories on the way to an entry need none of their own. -/
structure FileTree where
  entries : List (List String × Option Bytes)
  workingDirectory : List String

namespace FileTree

/-- Why a file cannot be read. -/
inductive Fault where
  | notFound
  | notDirectory
  | isDirectory
  | nameTooLong
  | nulInName
  | notText
  deriving DecidableEq

def Fault.message : Fault → String
  | .notFound => "No such file or directory (os error 2)"
  | .notDirectory => "Not a directory (os error 20)"
  | .isDirectory => "Is a directory (os error 21)"
  | .nameTooLong => "File name too long (os error 36)"
  | .nulInName => "file name contained an unexpected NUL byte"
  | .notText => "stream did not contain valid UTF-8"

/-- What is found at a place in the tree. -/
inductive Node where
  | file (contents : Bytes)
  | directory

/-- What is at the end of a way from the top. -/
def node? (t : FileTree) (names : List String) : Option Node :=
  match t.entries.lookup names with
  | some (some contents) => some (.file contents)
  | some none => some .directory
  | none => if names = [] ∨ t.entries.any (names.isPrefixOf ·.1) then some .directory else none

/-- Follows names from a place, which must be a directory if there are any. -/
def follow (t : FileTree) (place : List String) : List String → Except Fault Node
  | [] =>
    match t.node? place with
    | some n => .ok n
    | none => .error .notFound
  | name :: names =>
    match t.node? place with
    | none => .error .notFound
    | some (.file _) => .error .notDirectory
    | some .directory =>
      if name = "" ∨ name = "." then t.follow place names
      -- the top is above itself
      else if name = ".." then t.follow place.dropLast names
      else if 255 < name.utf8ByteSize then .error .nameTooLong
      else t.follow (place ++ [name]) names

/-- The names between the slashes of a path. -/
def names (path : String) : List String := (path.toList.splitOn '/').map String.ofList

/-- Finds what a path leads to: from the top if it starts with a slash, and otherwise from the
working directory. -/
def open? (t : FileTree) (path : String) : Except Fault Node :=
  if '\x00' ∈ path.toList then .error .nulInName
  else if 4096 ≤ path.utf8ByteSize then .error .nameTooLong
  else
    match names path with
    | [""] => .error .notFound
    | "" :: rest => t.follow [] rest
    | rest => t.follow t.workingDirectory rest

/-- The contents of a file. -/
def read (t : FileTree) (path : String) : Except Fault Bytes :=
  match t.open? path with
  | .error f => .error f
  | .ok .directory => .error .isDirectory
  | .ok (.file contents) => .ok contents

/-- The contents of a file as text. -/
def readText (t : FileTree) (path : String) : Except Fault String :=
  match t.read path with
  | .error f => .error f
  | .ok contents =>
    match String.fromUTF8? ⟨contents.toArray⟩ with
    | some s => .ok s
    | none => .error .notText

end FileTree

/-- What a process finds around it: files, and the variables that may name the file of a catalog and
that of a configuration. -/
structure Environment where
  files : FileTree
  catalogPath : Option String
  configurationPath : Option String

end TimeZones
