/-!
# Paths

The name of the file that a path ends in, and the extension of that name. Slashes at the end of a
path, and a component `.` after a slash, do not count.

* `Path.extension?`: the part of the name after its last point, if there is something
  before that point;
* `Path.withExtension`: the path with another extension.
-/

namespace StackMachine

namespace Path

/-- A path, last character first, without the slashes and the components `.` that it ends in. -/
def dropMarks : List Char → List Char
  | '/' :: rest => dropMarks rest
  | '.' :: '/' :: rest => dropMarks rest
  | cs => cs

/-- What comes before the name of a path, and the name. A path that ends in `.` or `..`, or in no
    component at all, has none. -/
def split? (path : List Char) : Option (List Char × List Char) :=
  let cs := dropMarks path.reverse
  let name := (cs.takeWhile (· != '/')).reverse
  if name = [] ∨ name = ['.'] ∨ name = ['.', '.'] then none
  else some ((cs.dropWhile (· != '/')).reverse, name)

/-- The stem of a name and its extension. A point at the start of the name is part of the
    stem. -/
def splitName (name : List Char) : List Char × Option (List Char) :=
  let cs := name.reverse
  match (cs.dropWhile (· != '.')).drop 1 with
  | [] => (name, none)
  | stem => (stem.reverse, some (cs.takeWhile (· != '.')).reverse)

/-- The extension of the name of a path. -/
def extension? (path : List Char) : Option (List Char) :=
  (split? path).bind fun (_, name) => (splitName name).2

/-- The path up to the end of the stem of its name, and then a point and the extension. A path
    without a name stays as it is. -/
def setExtension (extension path : List Char) : List Char :=
  match split? path with
  | none => path
  | some (start, name) => start ++ (splitName name).1 ++ '.' :: extension

/-- The path with another extension: as many characters as the old one has are cut off at the end of
    the path before the new one is set. -/
def withExtension (extension path : List Char) : List Char :=
  match extension? path with
  | none => setExtension extension path
  | some old => setExtension extension (path.take (path.length - old.length))

end Path

end StackMachine
