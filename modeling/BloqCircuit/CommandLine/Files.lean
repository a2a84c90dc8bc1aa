/-!
The files that a command sees. A path is walked from directory to directory, and the walk tells
what is found at its end.
-/
namespace BloqCircuit.CommandLine

/-- What is found under a path. -/
inductive Entry where
  | missing
  /-- The path goes on after a file. -/
  | beyondFile
  | nameTooLong
  | directory
  /-- A file that may not be read. -/
  | locked
  /-- A file that is no text. -/
  | binary
  | file (content : String)
deriving DecidableEq, Repr

/-- Whether something is there. -/
def Entry.isPresent : Entry → Bool
  | missing | beyondFile | nameTooLong => false
  | directory | locked | binary | file _ => true

/-- The text of a file, or why there is none. -/
def Entry.content : Entry → Except String String
  | missing => .error "No such file or directory (os error 2)"
  | beyondFile => .error "Not a directory (os error 20)"
  | nameTooLong => .error "File name too long (os error 36)"
  | directory => .error "Is a directory (os error 21)"
  | locked => .error "Permission denied (os error 13)"
  | binary => .error "stream did not contain valid UTF-8"
  | file content => .ok content

/-- The parts of a path between slashes, without empty ones and without dots that stay in place. -/
def parts (path : String) : List String :=
  (path.splitOn "/").filter fun p => p ≠ "" ∧ p ≠ "."

/-- A directory that a walk may pass. -/
inductive Folder where
  /-- The one that these names lead down to from the working directory. -/
  | working (names : List String)
  /-- The one that these names lead down to from the root. -/
  | rooted (names : List String)
deriving DecidableEq, Repr

/-- The working directory lies in the directory of temporary files. The root is its own parent. -/
def Folder.parent : Folder → Folder
  | working [] => rooted ["tmp"]
  | working names => working names.dropLast
  | rooted names => rooted names.dropLast

/-- The directories that every root holds. -/
def rootFolders : List String :=
  ["bin", "boot", "dev", "etc", "home", "lib", "media", "mnt", "opt", "proc", "root", "run", "sbin",
   "srv", "sys", "tmp", "usr", "var"]

/-- The files that every root holds, with a line as it may stand in them. -/
def rootFiles : List (List String × String) :=
  [(["dev", "null"], ""), (["etc", "passwd"], "root:x:0:0:root:/root:/bin/sh\n"),
   (["etc", "group"], "root:x:0:\n"), (["etc", "hosts"], "127.0.0.1 localhost\n"),
   (["etc", "hostname"], "localhost\n")]

/-- What a directory holds under a name: another directory, or a file and its text. The working
directory holds the given files, and of two files with one name the last. -/
def Folder.member? (files : List (String × String)) (name : String) :
    Folder → Option (Folder ⊕ String)
  | working names =>
    let wanted := names ++ [name]
    match files.reverse.find? fun f => parts f.1 = wanted with
    | some f => some (.inr f.2)
    | none =>
      if files.any fun f => wanted.isPrefixOf (parts f.1) then some (.inl (working wanted)) else none
  | rooted [] => if rootFolders.contains name then some (.inl (rooted [name])) else none
  | rooted names => (rootFiles.lookup (names ++ [name])).map .inr

/-- The greatest number of bytes in a name. -/
def maxNameBytes : Nat := 255

/-- The greatest number of bytes in a path. -/
def maxPathBytes : Nat := 4095

/-- What is at the end of a walk along names. -/
def Folder.walk (files : List (String × String)) : Folder → List String → Entry
  | _, [] => .directory
  | folder, name :: rest =>
    if name = "" ∨ name = "." then folder.walk files rest
    else if name = ".." then folder.parent.walk files rest
    else if maxNameBytes < name.utf8ByteSize then .nameTooLong
    else match folder.member? files name with
      | none => .missing
      | some (.inl inner) => inner.walk files rest
      | some (.inr content) => if rest.isEmpty then .file content else .beyondFile

/-- What a path leads to from a working directory with these files. -/
def find (files : List (String × String)) (path : String) : Entry :=
  if path = "" then .missing
  else if maxPathBytes < path.utf8ByteSize then .nameTooLong
  else
    let start : Folder := if path.startsWith "/" then .rooted [] else .working []
    start.walk files (path.splitOn "/")

/-- What follows the last dot of a name that does not only start with it. -/
def extension (path : String) : String :=
  let name := ((parts path).getLastD "").toList.reverse
  let after := name.takeWhile (· ≠ '.')
  match name.dropWhile (· ≠ '.') with
  | [] => ""
  | [_] => ""
  | _ => if name = ['.', '.'] then "" else String.ofList after.reverse

end BloqCircuit.CommandLine
