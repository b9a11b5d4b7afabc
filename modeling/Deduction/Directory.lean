/-!
# Directories

A directory as a value, with the files that it holds, for reading a file by its path. The names of
a path are followed one after the other: an empty name and `.` stay where they are, `..` goes up,
and every other name has to be that of a file or directory. Only a directory can be gone through,
also by a name that stays, and only a file can be read.

Of what lies outside of the directory nothing is known, so no name is found there.
-/

namespace Deduction

/-- Why a text cannot be read. -/
inductive ReadFault where
  | notFound
  | notDirectory
  | isDirectory
  | nameTooLong
  | notText
  | other (message : String)
deriving DecidableEq

def ReadFault.message : ReadFault → String
  | .notFound => "No such file or directory (os error 2)"
  | .notDirectory => "Not a directory (os error 20)"
  | .isDirectory => "Is a directory (os error 21)"
  | .nameTooLong => "File name too long (os error 36)"
  | .notText => "stream did not contain valid UTF-8"
  | .other message => message

/-- The text that bytes stand for. -/
def decodeText (bytes : ByteArray) : Except ReadFault String :=
  match String.fromUTF8? bytes with
  | some text => .ok text
  | none => .error .notText

/-- Files with the names that lead to them. The first of several under the same names counts. -/
structure Directory where
  files : List (List String × ByteArray)

namespace Directory

/-- The names in a path. -/
def pathNames (path : String) : List String := (path.toList.splitOn '/').map String.ofList

/-- The name leads nowhere else. -/
def staysAt (name : String) : Bool := name = "" || name = "."

/-- The directory with files put into it by their paths, one after the other. -/
def ofFiles (files : List (String × ByteArray)) : Directory :=
  ⟨files.reverse.map fun (path, content) =>
    ((pathNames path).filter fun name => !staysAt name, content)⟩

/-- What a path leads to: a directory by the names of the way to it, a directory outside, or a
file. -/
inductive Place where
  | within (way : List String)
  | outside
  | file (content : ByteArray)

/-- The largest number of bytes in a name. -/
def nameLimit : Nat := 255

/-- The largest number of bytes in a path. -/
def pathLimit : Nat := 4095

/-- What lies at the end of a way from the directory. -/
def find (d : Directory) (way : List String) : Except ReadFault Place :=
  match d.files.find? (·.1 = way) with
  | some (_, content) => .ok (.file content)
  | none =>
    if d.files.any fun (names, _) => way.isPrefixOf names then .ok (.within way)
    else .error .notFound

/-- Goes on from a place by a name. -/
def step (d : Directory) (place : Place) (name : String) : Except ReadFault Place :=
  match place with
  | .file _ => .error .notDirectory
  | .outside =>
    if staysAt name || name = ".." then .ok .outside
    else if nameLimit < name.utf8ByteSize then .error .nameTooLong
    else .error .notFound
  | .within way =>
    if staysAt name then .ok (.within way)
    else if name = ".." then .ok (if way.isEmpty then .outside else .within way.dropLast)
    else if nameLimit < name.utf8ByteSize then .error .nameTooLong
    else d.find (way ++ [name])

/-- What a path leads to. A path that begins with a slash begins at the root, which is outside. -/
def resolve (d : Directory) (path : String) : Except ReadFault Place :=
  if path.isEmpty then .error .notFound
  else if pathLimit < path.utf8ByteSize then .error .nameTooLong
  else
    (pathNames path).foldlM d.step (if path.front = '/' then .outside else .within [])

/-- The bytes of the file that a path leads to. -/
def read (d : Directory) (path : String) : Except ReadFault ByteArray := do
  match ← d.resolve path with
  | .file content => return content
  | _ => throw .isDirectory

end Directory

end Deduction
