import FlowAtlas.Text.Blank
import FlowAtlas.Text.Utf8

/-!
# Lines

A newline, a carriage return, and the two in this order end a line; nothing else does.  A text that
ends in a line end has no further empty line after it, and the empty text has no line.
-/

namespace FlowAtlas.Text

/-- The lines of a text after the lines `done` and the part `line` of one more, both reversed. -/
def linesAfter (done : List (List Char)) (line : List Char) : List Char → List (List Char)
  | [] => (if line.isEmpty then done else line.reverse :: done).reverse
  | '\r' :: '\n' :: rest => linesAfter (line.reverse :: done) [] rest
  | c :: rest =>
    if c = '\n' || c = '\r' then linesAfter (line.reverse :: done) [] rest
    else linesAfter done (c :: line) rest

/-- The lines of a text without their ends. -/
def lines (text : List Char) : List (List Char) := linesAfter [] [] text

/-- The lines of a file with the given bytes. -/
def linesOfBytes (bytes : List UInt8) : List String :=
  (lines (Utf8.decode bytes)).map String.ofList

/-- Whether the character belongs to a line end. -/
def isLineEnd (c : Char) : Bool := c = '\n' || c = '\r'

/-- A line without the line ends at its end. -/
def withoutLineEnd (line : String) : String := String.ofList (dropEnd isLineEnd line.toList)

theorem withoutLineEnd_eq_self {line : String}
    (h : ∀ c ∈ line.toList.getLast?, isLineEnd c = false) : withoutLineEnd line = line := by
  have hnone : ∀ c ∈ ([] : List Char), isLineEnd c = true := List.forall_mem_nil _
  have hdrop : dropEnd isLineEnd line.toList = line.toList := by
    cases hlast : line.toList.getLast? with
    | none =>
      rw [List.getLast?_eq_none_iff.mp hlast]
      rfl
    | some last =>
      have happend := dropEnd_append hnone hlast (h last hlast)
      rwa [List.append_nil] at happend
  unfold withoutLineEnd
  rw [hdrop, String.ofList_toList]

example : lines "a\r\n\rb\n".toList = ["a".toList, [], "b".toList] := by decide

end FlowAtlas.Text
