import DeclarationDocs.Path
import DeclarationDocs.Text.Utf8

/-!
# File trees

A tree of directories and regular files as a value, and the operations on it by path.  Paths are
followed name by name: every name on the way has to be a directory, and `..` leads to the
directory above.

* `FileTree.locate`: what a path leads to;
* `readText`, `isFile`, `isDirectory`, `canonical`: looking at the tree;
* `createDirectories`, `write`, `remove`: changing it.
-/

namespace DeclarationDocs

/-- Why an operation on files fails. -/
inductive IoFault where
  | notFound
  | notDirectory
  | isDirectory
  | alreadyExists
  | nameTooLong
  | nulInPath
  | notUtf8
  /-- A fault that names the file. -/
  | atPath (p : Path) (fault : IoFault)
  | other (message : String)
deriving DecidableEq, Repr

namespace IoFault

/-- The wording of a fault. -/
def message : IoFault → String
  | notFound => "No such file or directory (os error 2)"
  | notDirectory => "Not a directory (os error 20)"
  | isDirectory => "Is a directory (os error 21)"
  | alreadyExists => "File exists (os error 17)"
  | nameTooLong => "File name too long (os error 36)"
  | nulInPath => "file name contained an unexpected NUL byte"
  | notUtf8 => "stream did not contain valid UTF-8"
  | atPath p f => p.text ++ ": " ++ f.message
  | other m => m

end IoFault

/-- The content of a file: text, or bytes that encode none. -/
inductive Content where
  | text (s : String)
  | raw (bytes : List UInt8)
deriving DecidableEq, Repr

namespace Content

/-- The content as text, broken sequences replaced. -/
def lossy : Content → String
  | text s => s
  | raw bytes => Text.decodeUtf8Lossy bytes

end Content

/-- What a name in a tree stands for. -/
inductive Entry where
  | file (c : Content)
  | directory
deriving DecidableEq, Repr

/-- A place in a tree: the names on the way from the root. -/
abbrev Place := List (List Char)

/-- A tree.  The root is always a directory; every other place has at most one entry. -/
structure FileTree where
  entries : List (Place × Entry)
deriving Repr

namespace FileTree

/-- The tree that is a root alone. -/
def empty : FileTree := ⟨[]⟩

/-- The entry at a place. -/
def entry? (t : FileTree) : Place → Option Entry
  | [] => some .directory
  | p => t.entries.lookup p

/-- Give a place an entry. -/
def put (t : FileTree) (p : Place) (e : Entry) : FileTree :=
  ⟨(p, e) :: t.entries.filter fun x => x.1 != p⟩

/-- The names in the directory at a place. -/
def namesIn (t : FileTree) (p : Place) : List (List Char) :=
  t.entries.filterMap fun x =>
    match x.1.reverse with
    | n :: above => if above.reverse == p then some n else none
    | [] => none

/-! ### Following paths -/

/-- The longest name, in bytes. -/
def nameLimit : Nat := 255

/-- Follow one segment of a path. -/
def follow (t : FileTree) (p : Place) (segment : List Char) : Except IoFault Place :=
  match t.entry? p with
  | none => .error .notFound
  | some (.file _) => .error .notDirectory
  | some .directory =>
    if segment = ['.'] then .ok p
    else if segment = ['.', '.'] then .ok p.dropLast
    else if nameLimit < Text.byteLength segment then .error .nameTooLong
    else .ok (p ++ [segment])

/-- The place that a path leads to from the place `cwd`, with its entry; a path that ends in a
slash leads to no file. -/
def locate (t : FileTree) (cwd : Place) (p : Path) : Except IoFault (Place × Option Entry) :=
  if p.chars = [] then .error .notFound
  else if p.chars.contains '\x00' then .error .nulInPath
  else do
    let start := if p.isAbsolute then [] else cwd
    let place ← (p.segments.filter (· != [])).foldlM t.follow start
    match t.entry? place with
    | some (.file c) =>
      if p.chars.getLast? = some '/' then .error .notDirectory else .ok (place, some (.file c))
    | e => .ok (place, e)

/-- Whether a path leads to a file. -/
def isFile (t : FileTree) (cwd : Place) (p : Path) : Bool :=
  match t.locate cwd p with
  | .ok (_, some (.file _)) => true
  | _ => false

/-- Whether a path leads to a directory. -/
def isDirectory (t : FileTree) (cwd : Place) (p : Path) : Bool :=
  match t.locate cwd p with
  | .ok (_, some .directory) => true
  | _ => false

/-- The absolute path of a place. -/
def pathOf (p : Place) : Path := ⟨'/' :: Path.joinSegments p⟩

/-- The absolute path without `.` and `..` of what a path leads to. -/
def canonical (t : FileTree) (cwd : Place) (p : Path) : Except IoFault Path :=
  match t.locate cwd p with
  | .ok (place, some _) => .ok (pathOf place)
  | .ok (_, none) => .error .notFound
  | .error e => .error e

/-- The text of a file. -/
def readText (t : FileTree) (cwd : Place) (p : Path) : Except IoFault String :=
  match t.locate cwd p with
  | .ok (_, some (.file (.text s))) => .ok s
  | .ok (_, some (.file (.raw _))) => .error .notUtf8
  | .ok (_, some .directory) => .error .isDirectory
  | .ok (_, none) => .error .notFound
  | .error e => .error e

/-! ### Changing a tree -/

/-- Make one directory, in a directory that is there; slashes at the end of its path do not
matter. -/
def createDirectory (t : FileTree) (cwd : Place) (p : Path) : Except IoFault FileTree :=
  let trimmed := (p.chars.reverse.dropWhile (· == '/')).reverse
  match t.locate cwd (if trimmed = [] then p else ⟨trimmed⟩) with
  | .ok (place, none) => .ok (t.put place .directory)
  | .ok (_, some _) => .error .alreadyExists
  | .error e => .error e

/-- Make a directory and those above it that are missing, `n` of them at most.  What was made
before a fault stays. -/
def createDirectoriesIn : Nat → FileTree → Place → Path → FileTree × Except IoFault Unit
  | 0, t, _, _ => (t, .error .notFound)
  | n + 1, t, cwd, p =>
    match t.createDirectory cwd p with
    | .ok t => (t, .ok ())
    | .error .notFound =>
      match p.parent with
      | none => (t, .error (.other "failed to create whole tree"))
      | some above =>
        match (if above.chars = [] then (t, .ok ()) else createDirectoriesIn n t cwd above) with
        | (t, .error e) => (t, .error e)
        | (t, .ok ()) =>
          match t.createDirectory cwd p with
          | .ok t => (t, .ok ())
          | .error e => if t.isDirectory cwd p then (t, .ok ()) else (t, .error e)
    | .error e => if t.isDirectory cwd p then (t, .ok ()) else (t, .error e)

/-- Make a directory and those above it that are missing. -/
def createDirectories (t : FileTree) (cwd : Place) (p : Path) : FileTree × Except IoFault Unit :=
  if p.chars = [] then (t, .ok ()) else createDirectoriesIn (p.chars.length + 1) t cwd p

/-- Write a file in a directory that is there; an older file is replaced. -/
def write (t : FileTree) (cwd : Place) (p : Path) (text : String) : Except IoFault FileTree :=
  match t.locate cwd p with
  | .ok (_, some .directory) => .error .isDirectory
  | .ok (place, some (.file _)) => .ok (t.put place (.file (.text text)))
  | .ok (place, none) =>
    if p.chars.getLast? = some '/' then .error .isDirectory
    else .ok (t.put place (.file (.text text)))
  | .error e => .error e

/-- The files below a place, by the path that leads to them from there. -/
def filesBelow (t : FileTree) (p : Place) : List (Path × Content) :=
  t.entries.filterMap fun x =>
    match x.2 with
    | .file c => if p.isPrefixOf x.1 then some (⟨Path.joinSegments (x.1.drop p.length)⟩, c) else none
    | .directory => none

/-- Add what a place holds, with the directories on the way to it. -/
def add (t : FileTree) (p : Place) (e : Entry) : FileTree :=
  let above := (List.range p.length).map fun k => p.take k
  let t := above.foldl (fun t q => if (t.entry? q).isSome then t else t.put q .directory) t
  t.put p e

end FileTree

end DeclarationDocs
