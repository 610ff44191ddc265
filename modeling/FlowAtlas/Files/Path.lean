import FlowAtlas.Text.Quoted

/-!
# Paths

A path is an anchor and a list of names.  Empty names and single dots are dropped when a text is
read; two dots stay as they are.  Exactly two leading slashes are an anchor of their own.
-/

namespace FlowAtlas

/-- Where a path starts. -/
inductive Anchor
  /-- The working directory. -/
  | here
  | root
  /-- Two leading slashes, which mean the root as well but print as two. -/
  | doubleRoot
deriving DecidableEq

/-- The anchor as it is printed. -/
def Anchor.text : Anchor → String
  | .here => ""
  | .root => "/"
  | .doubleRoot => "//"

/-- An anchor and the names that lead on from it. -/
structure Path where
  anchor : Anchor
  names : List String
deriving DecidableEq

namespace Path

/-- The working directory. -/
def here : Path := ⟨.here, []⟩

instance : Inhabited Path := ⟨here⟩

/-- The anchor of a text. -/
def anchorOf (text : List Char) : Anchor :=
  match (text.takeWhile (· = '/')).length with
  | 0 => .here
  | 2 => .doubleRoot
  | _ => .root

/-- The path that a text denotes. -/
def ofText (text : String) : Path :=
  let pieces := Text.splitAtEach '/' text.toList
  ⟨anchorOf text.toList,
    (pieces.filter fun p => !p.isEmpty && p ≠ ['.']).map String.ofList⟩

/-- The text of a path; the path of no names is printed as a dot. -/
def text (p : Path) : String :=
  if p.anchor = .here && p.names.isEmpty then "."
  else p.anchor.text ++ "/".intercalate p.names

/-- A path continued by another; one with an anchor of its own stands alone. -/
def join (p q : Path) : Path :=
  if q.anchor = .here then ⟨p.anchor, p.names ++ q.names⟩ else q

/-- A path continued by a text. -/
def child (p : Path) (text : String) : Path := p.join (ofText text)

/-- The path of a name directly inside a directory. -/
def entry (p : Path) (name : String) : Path := { p with names := p.names ++ [name] }

/-- Whether a name holds a NUL; no operating system takes such a path. -/
def hasNul (p : Path) : Bool := p.names.any fun name => name.toList.contains '\x00'

/-- How many bytes the path's text takes in UTF-8. -/
def byteCount (p : Path) : Nat := p.text.utf8ByteSize

/-- The path without its last name. -/
def parent (p : Path) : Path := { p with names := p.names.dropLast }

/-- The last name, empty if there is none. -/
def name (p : Path) : String := p.names.getLast?.getD ""

@[simp] theorem name_entry (p : Path) (name : String) : (p.entry name).name = name := by
  unfold entry Path.name
  rw [List.getLast?_concat, Option.getD_some]

/-- A name cut before its last dot.  A dot at either end of the name does not count. -/
def splitName (name : String) : String × String :=
  let back := name.toList.reverse
  match back.dropWhile (· ≠ '.') with
  | '.' :: front =>
    let tail := back.takeWhile (· ≠ '.')
    if front.isEmpty || tail.isEmpty then (name, "")
    else (String.ofList front.reverse, String.ofList ('.' :: tail.reverse))
  | _ => (name, "")

/-- The last name without its suffix. -/
def stem (p : Path) : String := (splitName p.name).1

/-- The last name's part from its last dot on. -/
def suffix (p : Path) : String := (splitName p.name).2

/-- Why a path cannot get a suffix. -/
inductive SuffixError
  | invalid (suffix : String)
  | emptyName (path : Path)
deriving DecidableEq

/-- The error's wording. -/
def SuffixError.message : SuffixError → String
  | .invalid suffix => "Invalid suffix " ++ Text.quoted suffix
  | .emptyName path => "PosixPath(" ++ Text.quoted path.text ++ ") has an empty name"

/-- Whether a text can be a suffix: it is empty, or a dot and more, without a slash. -/
def isSuffix (suffix : String) : Bool :=
  !suffix.toList.contains '/' && (suffix = "" || (suffix.toList.head? = some '.' && suffix ≠ "."))

/-- The path with the suffix of its last name replaced. -/
def withSuffix (p : Path) (suffix : String) : Except SuffixError Path :=
  if !isSuffix suffix then .error (.invalid suffix)
  else if p.name = "" then .error (.emptyName p)
  else .ok ⟨p.anchor, p.names.dropLast ++ [p.stem ++ suffix]⟩

example : (ofText "a//./b/").text = "a/b" ∧ (ofText "").text = "." := by decide +kernel

end Path

end FlowAtlas
