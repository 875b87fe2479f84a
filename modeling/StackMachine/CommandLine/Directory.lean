import StackMachine.Text.Blank

/-!
# Directories

A directory tree with files, and the errors that reading and writing them may end in. Paths are
relative to the root of the tree; what lies outside of it is not there.

* `Directory.read`, `Directory.write`;
* `FileError`: an error with its text and, if the system has one for it, its number.
-/

namespace StackMachine

/-- Why a file cannot be read or written. -/
structure FileError where
  text : String
  number : Option Nat
deriving DecidableEq, Inhabited

namespace FileError

def notFound : FileError := ⟨"No such file or directory", some 2⟩
def notDirectory : FileError := ⟨"Not a directory", some 20⟩
def isDirectory : FileError := ⟨"Is a directory", some 21⟩
def nameTooLong : FileError := ⟨"File name too long", some 36⟩
def nulInName : FileError := ⟨"file name contained an unexpected NUL byte", none⟩

end FileError

/-- A tree of files. A file is given by the names that lead to it; there is a directory wherever a
    file is below. -/
structure Directory where
  files : List (List String × List UInt8) := []
deriving DecidableEq, Inhabited

/-- Where a part of a path leads. -/
inductive Place
  /-- A directory of the tree. -/
  | inside (names : List String)
  /-- A directory that is not in the tree. -/
  | outside

namespace Directory

/-- The contents of the file with the given names. -/
def file? (d : Directory) (names : List String) : Option (List UInt8) :=
  d.files.lookup names

/-- Whether there is a directory with the given names. -/
def hasDirectory (d : Directory) (names : List String) : Bool :=
  names.isEmpty || d.files.any fun f => names.length < f.1.length && names.isPrefixOf f.1

/-- Go to the directory `name`. -/
def enter (d : Directory) (place : Place) (name : String) : Except FileError Place :=
  if name = "" ∨ name = "." then .ok place
  else
    match place with
    | .outside => if name = ".." then .ok .outside else .error .notFound
    | .inside names =>
      if name = ".." then
        .ok (if names.isEmpty then .outside else .inside names.dropLast)
      else if 255 < name.utf8ByteSize then .error .nameTooLong
      else if d.hasDirectory (names ++ [name]) then .ok (.inside (names ++ [name]))
      else if (d.file? (names ++ [name])).isSome then .error .notDirectory
      else .error .notFound

/-- Go through all directories of a list. -/
def enterAll (d : Directory) : Place → List String → Except FileError Place
  | place, [] => .ok place
  | place, name :: rest =>
    match d.enter place name with
    | .error err => .error err
    | .ok place => d.enterAll place rest

/-- The components of a path. -/
def components (path : String) : List String :=
  (path.toList.splitOnP (· == '/')).map String.ofList

/-- The place that a path starts at. -/
def start (path : String) : Place :=
  if path.toList.head? = some '/' then .outside else .inside []

/-- Whether a component can name nothing but a directory. -/
def isMark (name : String) : Bool :=
  name == "" || name == "." || name == ".."

/-- Why nothing can be found at a path, whatever the tree: a path is not empty, has no NUL in it
    and is shorter than 4096 bytes. -/
def badPath? (path : String) : Option FileError :=
  if path.toList.contains '\x00' then some .nulInName
  else if path = "" then some .notFound
  else if 4096 ≤ path.utf8ByteSize then some .nameTooLong
  else none

/-- The contents of the file at a path. -/
def read (d : Directory) (path : String) : Except FileError (List UInt8) :=
  let names := components path
  let last := names.getLastD ""
  match badPath? path with
  | some err => .error err
  | none =>
    match d.enterAll (start path) names.dropLast with
    | .error err => .error err
    | .ok place =>
      if isMark last then .error .isDirectory
      else
        match place with
        | .outside => .error .notFound
        | .inside names =>
          if 255 < last.utf8ByteSize then .error .nameTooLong
          else if d.hasDirectory (names ++ [last]) then .error .isDirectory
          else
            match d.file? (names ++ [last]) with
            | some bytes => .ok bytes
            | none => .error .notFound

/-- The tree with a file more, or with other contents of a file. -/
def put (d : Directory) (names : List String) (bytes : List UInt8) : Directory :=
  if (d.file? names).isSome then
    ⟨d.files.map fun f => if f.1 = names then (names, bytes) else f⟩
  else ⟨d.files ++ [(names, bytes)]⟩

/-- The components of a path without the empty ones at its end, and whether there were any. -/
def dropSlashes (names : List String) : List String × Bool :=
  let kept := (names.reverse.dropWhile (· == "")).reverse
  (kept, kept.length < names.length)

/-- The tree with other contents of the file at a path, which is made if it is not there. A slash
    at the end of the path asks for a directory. -/
def write (d : Directory) (path : String) (bytes : List UInt8) : Except FileError Directory :=
  let (names, slash) := dropSlashes (components path)
  let last := names.getLastD ""
  match badPath? path with
  | some err => .error err
  | none =>
    match d.enterAll (start path) names.dropLast with
    | .error err => .error err
    | .ok place =>
      if isMark last || slash then .error .isDirectory
      else
        match place with
        | .outside => .error .notFound
        | .inside names =>
          if 255 < last.utf8ByteSize then .error .nameTooLong
          else if d.hasDirectory (names ++ [last]) then .error .isDirectory
          else .ok (d.put (names ++ [last]) bytes)

/-- The files of `d` that are not in `old` with the same contents, each with its path. -/
def changes (d old : Directory) : List (String × List UInt8) :=
  (d.files.filter fun f => old.file? f.1 != some f.2).map fun f => ("/".intercalate f.1, f.2)

end Directory

end StackMachine
