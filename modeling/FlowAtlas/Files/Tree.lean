import FlowAtlas.Data.OrderedMap
import FlowAtlas.Data.SortedTexts
import FlowAtlas.Files.Path
import FlowAtlas.Text.Digit

/-!
# File trees

A file tree says what stands at each location, a location being the names from the root.  A path is
followed name by name from the root or the working directory: every name but the last must lead to
a directory, and two dots lead back to where the directory lies.  Names and whole paths may not be
too long.

The operations fail as an operating system does, with a cause and the path that was asked for; what
was done before a failure stays done.
-/

namespace FlowAtlas

/-- A failure that the operating system reports, about a file if one is named. -/
structure SystemError where
  number : Int
  reason : String
  file : Option String
deriving DecidableEq

/-- The error's wording. -/
def SystemError.message (e : SystemError) : String :=
  "[Errno " ++ Text.signedDecimal e.number ++ "] " ++ e.reason ++
    (match e.file with
     | some file => ": " ++ Text.quoted file
     | none => "")

/-- The causes for which an operation on a file tree fails. -/
inductive Fault
  | missing
  | present
  | notDirectory
  | isDirectory
  | nameTooLong
deriving DecidableEq

/-- The failure of an operation on a path. -/
def Fault.on (path : Path) : Fault → SystemError
  | .missing => ⟨2, "No such file or directory", some path.text⟩
  | .present => ⟨17, "File exists", some path.text⟩
  | .notDirectory => ⟨20, "Not a directory", some path.text⟩
  | .isDirectory => ⟨21, "Is a directory", some path.text⟩
  | .nameTooLong => ⟨36, "File name too long", some path.text⟩

/-- Why an operation on files fails. -/
inductive FileError
  | system (error : SystemError)
  /-- The path holds a NUL, so the system cannot be asked. -/
  | nulInPath
deriving DecidableEq

/-- The error's wording. -/
def FileError.message : FileError → String
  | .system e => e.message
  | .nulInPath => "embedded null byte"

/-- The names that lead from the root to a place. -/
abbrev Location := List String

/-- The location as an absolute path. -/
def Location.text (location : Location) : String := "/" ++ "/".intercalate location

/-- What stands at a location. -/
inductive Entry
  | file (content : List UInt8)
  | directory
deriving DecidableEq

/-- What stands where, and the working directory.  The root is a directory without an entry. -/
structure FileTree where
  entries : OrderedMap Location Entry
  home : Location

namespace FileTree

/-! ## Following paths -/

/-- What stands at a location. -/
def entryAt (tree : FileTree) (location : Location) : Option Entry :=
  if location = [] then some .directory else tree.entries.get? location

/-- How many bytes a name may take. -/
def maxNameBytes : Nat := 255

/-- How many bytes the text of a path may take. -/
def maxPathBytes : Nat := 4095

/-- Where a name leads from a location, which must be a directory. -/
def step (tree : FileTree) (location : Location) (name : String) : Except Fault Location :=
  match tree.entryAt location with
  | none => .error .missing
  | some (.file _) => .error .notDirectory
  | some .directory =>
    if maxNameBytes < name.utf8ByteSize then .error .nameTooLong
    else .ok (if name = ".." then location.dropLast else location ++ [name])

/-- Where names lead from a location. -/
def walk (tree : FileTree) : Location → List String → Except Fault Location
  | location, [] => .ok location
  | location, name :: rest => do tree.walk (← tree.step location name) rest

/-- Where an anchor lies. -/
def start (tree : FileTree) (anchor : Anchor) : Location :=
  if anchor = .here then tree.home else []

/-- The location of a path; nothing need stand there. -/
def locate (tree : FileTree) (path : Path) : Except Fault Location :=
  if maxPathBytes < path.byteCount then .error .nameTooLong
  else tree.walk (tree.start path.anchor) path.names

/-- What stands at a path: nothing if the path leads nowhere.  The question fails only if a name is
too long. -/
def status (tree : FileTree) (path : Path) : Except SystemError (Option Entry) :=
  if path.hasNul then .ok none
  else
    match tree.locate path with
    | .ok location => .ok (tree.entryAt location)
    | .error .nameTooLong => .error (Fault.nameTooLong.on path)
    | .error _ => .ok none

/-- Whether a path leads to a directory. -/
def isDirectory (tree : FileTree) (path : Path) : Except SystemError Bool :=
  (tree.status path).map fun entry => entry = some Entry.directory

/-- The location that a path names whatever stands there: two dots take the name before away. -/
def absolute (tree : FileTree) (path : Path) : Location :=
  path.names.foldl (fun l name => if name = ".." then l.dropLast else l ++ [name])
    (tree.start path.anchor)

/-! ## Reading -/

/-- The content of a file. -/
def read (tree : FileTree) (path : Path) : Except FileError (List UInt8) :=
  if path.hasNul then .error .nulInPath
  else
    match tree.locate path with
    | .error fault => .error (.system (fault.on path))
    | .ok location =>
      match tree.entryAt location with
      | none => .error (.system (Fault.missing.on path))
      | some .directory => .error (.system (Fault.isDirectory.on path))
      | some (.file content) => .ok content

/-- The names directly inside a location, in code point order. -/
def namesIn (tree : FileTree) (location : Location) : List String :=
  sortTexts (tree.entries.keys.filterMap fun l =>
    if l.dropLast = location then l.getLast? else none)

/-- The names directly inside a directory; none if the path leads nowhere. -/
def list (tree : FileTree) (path : Path) : List String :=
  match tree.locate path with
  | .ok location => tree.namesIn location
  | .error _ => []

/-- The files among some names inside a directory, with their contents. -/
def filesAmong (tree : FileTree) (path : Path) :
    List String → Except SystemError (List (Path × List UInt8))
  | [] => .ok []
  | name :: rest => do
    let entry ← tree.status (path.entry name)
    let files ← tree.filesAmong path rest
    match entry with
    | some (.file content) => .ok ((path.entry name, content) :: files)
    | _ => .ok files

/-! ## Writing -/

/-- Set what stands at a location. -/
def set (tree : FileTree) (location : Location) (entry : Entry) : FileTree :=
  { tree with entries := tree.entries.insert location entry }

/-- Write a file, new or not. -/
def write (tree : FileTree) (path : Path) (content : List UInt8) :
    Except FileError Unit × FileTree :=
  if path.hasNul then (.error .nulInPath, tree)
  else
    match tree.locate path with
    | .error fault => (.error (.system (fault.on path)), tree)
    | .ok location =>
      if tree.entryAt location = some .directory then
        (.error (.system (Fault.isDirectory.on path)), tree)
      else (.ok (), tree.set location (.file content))

/-- Make one directory where nothing stands. -/
def makeDirectory (tree : FileTree) (path : Path) : Except Fault FileTree := do
  let location ← tree.locate path
  if (tree.entryAt location).isSome then .error Fault.present
  else .ok (tree.set location Entry.directory)

/-- Make a directory unless it is there. -/
def provideDirectory (tree : FileTree) (path : Path) : Except SystemError Unit × FileTree :=
  match tree.makeDirectory path with
  | .ok tree' => (.ok (), tree')
  | .error fault =>
    match tree.isDirectory path with
    | .ok true => (.ok (), tree)
    | _ => (.error (fault.on path), tree)

/-- Make a directory and those that it lies in unless they are there.  What lies above is made only
if something there is missing, and stays if the directory itself cannot be made. -/
def provideAll (tree : FileTree) (anchor : Anchor) (names : List String) :
    Except SystemError Unit × FileTree :=
  match tree.makeDirectory ⟨anchor, names⟩ with
  | .error .missing =>
    if _h : names = [] then (.error (Fault.missing.on ⟨anchor, names⟩), tree)
    else
      match tree.provideAll anchor names.dropLast with
      | (.error e, tree) => (.error e, tree)
      | (.ok (), tree) => tree.provideDirectory ⟨anchor, names⟩
  | _ => tree.provideDirectory ⟨anchor, names⟩
termination_by names.length
decreasing_by
  cases names with
  | nil => contradiction
  | cons name rest => simp

/-- Make a directory and those that it lies in unless they are there. -/
def provideDirectories (tree : FileTree) (path : Path) : Except FileError Unit × FileTree :=
  if path.hasNul then (.error .nulInPath, tree)
  else
    match tree.provideAll path.anchor path.names with
    | (.ok (), tree) => (.ok (), tree)
    | (.error e, tree) => (.error (.system e), tree)

/-! ## Making trees -/

/-- A tree with nothing but its working directory. -/
def bare (home : Location) : FileTree :=
  let above := (List.range home.length).map fun n => home.take (n + 1)
  ⟨.ofList (above.map fun l => (l, .directory)), home⟩

/-- Put an entry at a location, and directories above it where nothing stands. -/
def plant (tree : FileTree) (location : Location) (entry : Entry) : FileTree :=
  let above := (List.range (location.length - 1)).map fun n => location.take (n + 1)
  let tree := above.foldl (fun t l => if (t.entryAt l).isSome then t else t.set l .directory) tree
  if entry = .directory && (tree.entryAt location).isSome then tree else tree.set location entry

/-- What stands in a tree and did not stand so in an earlier one. -/
def changes (before after : FileTree) : List (Location × Entry) :=
  after.entries.entries.filter fun e => before.entryAt e.1 ≠ some e.2

end FileTree

end FlowAtlas
