/-!
A working directory as far as reading goes: files by their names in it. A path is followed part by
part. An empty part and `.` stay where they are and `..` goes back out; each of them, like a name,
needs a directory to start from, so a file name with a slash behind it leads nowhere.
-/

namespace Scriptlet.CommandLine

/-- The parts of the way to a file, from the working directory on. -/
abbrev Place := List String

structure Directory where
  files : List (Place × String)

namespace Directory

def stays (part : String) : Bool := part = "" || part = "."

def ofFiles (files : List (String × String)) : Directory :=
  ⟨files.map fun (name, content) => ((name.splitOn "/").filter (!stays ·), content)⟩

def isDirectory (d : Directory) (place : Place) : Bool :=
  place.isEmpty || d.files.any fun (name, _) => place.isPrefixOf name && place ≠ name

/-- Where the parts of a path lead from a place; nothing outside the working directory is known. -/
def follow (d : Directory) : Place → List String → Option Place
  | place, [] => some place
  | place, part :: parts =>
    if !d.isDirectory place then none
    else if stays part then follow d place parts
    else if part = ".." then if place.isEmpty then none else follow d place.dropLast parts
    else follow d (place ++ [part]) parts

/-- The content of the file that a path leads to; a path from the root leads nowhere. -/
def read? (d : Directory) (path : String) : Option String :=
  match path.splitOn "/" with
  | "" :: _ => none
  | parts => do d.files.lookup (← d.follow [] parts)

end Directory

end Scriptlet.CommandLine
