/-!
# Trees of files

A tree of folders and files, addressed by places, which are lists of names from the root down. A
`Route` is a path as it is written: the names `.` and `..` stay in it, and it is followed from a
folder name by name. Reading, writing, copying and removing fail as they do where files live, and
`FileFault` says how.
-/

namespace Conveyor

/-- The names of folders from the root down, and of a file or folder in the last of them. -/
abbrev Place := List String

/-- Why an operation on files fails. -/
inductive FileFault where
  | missing
  | notFolder
  | isFolder
  | alreadyThere
  | nameTooLong
  | nulInName
  /-- What is to be copied is not a file. -/
  | notFile
  /-- What is to be read as text is none. -/
  | notText
  deriving DecidableEq, Repr

/-- The wording of a fault. -/
def FileFault.message : FileFault → String
  | .missing => "No such file or directory (os error 2)"
  | .notFolder => "Not a directory (os error 20)"
  | .isFolder => "Is a directory (os error 21)"
  | .alreadyThere => "File exists (os error 17)"
  | .nameTooLong => "File name too long (os error 36)"
  | .nulInName => "file name contained an unexpected NUL byte"
  | .notFile => "the source path is neither a regular file nor a symlink to a regular file"
  | .notText => "stream did not contain valid UTF-8"

/-! ### Routes -/

/-- A path as it is written. -/
structure Route where
  /-- The folder from which the names are followed. -/
  start : Place
  names : List String
  /-- Whether a slash follows the last name. -/
  slash : Bool
  deriving DecidableEq, Repr

namespace Route

/-- The parts of a text between slashes, without the empty ones. -/
def namesOf (text : List Char) : List String :=
  ((text.splitOnP (· == '/')).filter (!·.isEmpty)).map String.ofList

/-- The route from a folder to a path; a path that begins with a slash starts at the root. -/
def ofText (start : Place) (text : String) : Route :=
  let cs := text.toList
  ⟨if cs.head? = some '/' then [] else start, namesOf cs, cs.getLast? = some '/'⟩

/-- The route extended by a path; a path that begins with a slash takes its place. -/
def join (r : Route) (text : String) : Route :=
  let next := ofText r.start text
  if text.toList.head? = some '/' then next
  else ⟨r.start, r.names ++ next.names, next.slash || (r.slash && next.names.isEmpty)⟩

/-- Whether nothing is written at all, which leads nowhere. -/
def isBlank (r : Route) : Bool :=
  r.names.isEmpty && !r.slash

/-- Whether no file can have a name like one of these. -/
def hasNul (names : List String) : Bool :=
  names.any (·.toList.contains '\x00')

/-- The names before the last one, where a `.` at the end does not count. -/
def parentNames (r : Route) : List String :=
  (r.names.reverse.dropWhile (· == ".")).reverse.dropLast

end Route

/-- Whether a name is longer than a name may be. -/
def isLongName (name : String) : Bool :=
  255 < name.utf8ByteSize

/-! ### Trees -/

/-- What stands at a place. -/
inductive Entry where
  | folder
  | file (body : ByteArray)

/-- Whether a folder stands there. -/
def Entry.isFolder : Entry → Bool
  | .folder => true
  | .file _ => false

/-- A tree of folders and files; the root is always a folder. -/
structure Tree where
  folders : List Place
  files : List (Place × ByteArray)

namespace Tree

/-- The tree without files. -/
def empty : Tree := ⟨[], []⟩

/-- What stands at a place. -/
def entry? (t : Tree) (place : Place) : Option Entry :=
  if place = [] ∨ place ∈ t.folders then some .folder
  else (t.files.lookup place).map .file

/-- Follows names from a folder, and tells the place where they lead. -/
def follow (t : Tree) (folder : Place) : List String → Except FileFault (Place × Entry)
  | [] => .ok (folder, .folder)
  | "." :: names => t.follow folder names
  | ".." :: names => t.follow folder.dropLast names
  | name :: names =>
    if isLongName name then .error .nameTooLong
    else
      match t.entry? (folder ++ [name]) with
      | none => .error .missing
      | some .folder => t.follow (folder ++ [name]) names
      | some (.file body) =>
        if names.isEmpty then .ok (folder ++ [name], .file body) else .error .notFolder

/-- What stands where a route leads. -/
def find (t : Tree) (r : Route) : Except FileFault (Place × Entry) := do
  if Route.hasNul r.names then throw .nulInName
  if r.isBlank then throw .missing
  let found ← t.follow r.start r.names
  if r.slash && !found.2.isFolder then throw .notFolder
  return found

/-- The folder where names lead. -/
def folderAt (t : Tree) (start : Place) (names : List String) : Except FileFault Place := do
  match ← t.follow start names with
  | (place, .folder) => return place
  | (_, .file _) => throw .notFolder

/-- The place of a file that may be written. -/
def target (t : Tree) (r : Route) : Except FileFault Place := do
  if Route.hasNul r.names then throw .nulInName
  match r.names.getLast? with
  | none => throw (if r.isBlank then .missing else .isFolder)
  | some name =>
    let folder ← t.folderAt r.start r.names.dropLast
    if r.slash || name = "." || name = ".." then throw .isFolder
    if isLongName name then throw .nameTooLong
    if (t.entry? (folder ++ [name])).any Entry.isFolder then throw .isFolder
    return folder ++ [name]

/-- Sets the body of a file in a list of files. -/
def setFile (place : Place) (body : ByteArray) :
    List (Place × ByteArray) → List (Place × ByteArray)
  | [] => [(place, body)]
  | (p, b) :: files =>
    if p = place then (place, body) :: files else (p, b) :: setFile place body files

/-- The tree with a file at a place. -/
def withFile (place : Place) (body : ByteArray) (t : Tree) : Tree :=
  { t with files := setFile place body t.files }

/-- The body of a file. -/
def read (t : Tree) (r : Route) : Except FileFault ByteArray := do
  match ← t.find r with
  | (_, .file body) => return body
  | (_, .folder) => throw .isFolder

/-- The text of a file. -/
def readText (t : Tree) (r : Route) : Except FileFault String := do
  match String.fromUTF8? (← t.read r) with
  | some text => return text
  | none => throw .notText

/-- Whether anything stands where a route leads. -/
def has (t : Tree) (r : Route) : Except FileFault Bool :=
  match t.find r with
  | .ok _ => .ok true
  | .error .missing => .ok false
  | .error fault => .error fault

/-- Writes a file in a folder that is there. -/
def write (t : Tree) (r : Route) (body : ByteArray) : Except FileFault Tree := do
  return t.withFile (← t.target r) body

/-- Copies a file to another place, which is emptied first; so a file copied to its own place is
empty afterwards. -/
def copy (t : Tree) (source destination : Route) : Except FileFault (Nat × Tree) := do
  match ← t.find source with
  | (_, .folder) => throw .notFile
  | (origin, .file body) =>
    let place ← t.target destination
    let body := if place = origin then .empty else body
    return (body.size, t.withFile place body)

/-- Removes a file. -/
def remove (t : Tree) (r : Route) : Except FileFault Tree := do
  if Route.hasNul r.names then throw .nulInName
  match r.names.getLast? with
  | none => throw .isFolder
  | some name =>
    let folder ← t.folderAt r.start r.names.dropLast
    if name = "." || name = ".." then throw .isFolder
    if isLongName name then throw .nameTooLong
    let place := folder ++ [name]
    match t.entry? place with
    | none => throw .missing
    | some .folder => throw .isFolder
    | some (.file _) =>
      if r.slash then throw .notFolder
      return { t with files := t.files.filter (·.1 ≠ place) }

/-- Makes the folders on the way along names; those made before a fault stay. -/
def makeFolders (t : Tree) (folder : Place) : List String → Except FileFault Unit × Tree
  | [] => (.ok (), t)
  | "." :: names => t.makeFolders folder names
  | ".." :: names => t.makeFolders folder.dropLast names
  | name :: names =>
    if isLongName name then (.error .nameTooLong, t)
    else
      let place := folder ++ [name]
      match t.entry? place with
      | some .folder => t.makeFolders place names
      | some (.file _) => (.error (if names.isEmpty then .alreadyThere else .notFolder), t)
      | none => { t with folders := t.folders ++ [place] }.makeFolders place names

/-- Makes the folders in which a file is to be written. -/
def makeParents (t : Tree) (r : Route) : Except FileFault Unit × Tree :=
  if Route.hasNul r.parentNames then (.error .nulInName, t)
  else t.makeFolders r.start r.parentNames

end Tree

end Conveyor
