/-!
# UTF-8

Texts are written as UTF-8, and bytes are read as UTF-8 (Unicode, table 3-7).  Every maximal part
that cannot be continued to a well-formed sequence is read as one U+FFFD, and reading goes on with
the byte that broke it.

The reader is a machine with one state: what of a sequence it has seen.  A byte below 80 always
ends a pending sequence, so ASCII bytes stand for themselves wherever they occur.
-/

namespace FlowAtlas.Text.Utf8

/-- What the reader has seen of the current sequence. -/
inductive Pending
  /-- Nothing: the next byte starts a sequence. -/
  | start
  /-- A part with value `value`; `missing + 1` bytes are missing, the next one within the bounds. -/
  | part (value missing low high : Nat)
deriving DecidableEq

/-- The mark in place of what is ill-formed. -/
def replacement : Char := '\uFFFD'

/-- Read a first byte: the characters that it settles and the new state. -/
def lead (byte : Nat) : List Char × Pending :=
  if byte < 0x80 then ([Char.ofNat byte], .start)
  else if byte < 0xc2 then ([replacement], .start)
  else if byte < 0xe0 then ([], .part (byte - 0xc0) 0 0x80 0xbf)
  else if byte = 0xe0 then ([], .part 0 1 0xa0 0xbf)
  else if byte = 0xed then ([], .part 0xd 1 0x80 0x9f)
  else if byte < 0xf0 then ([], .part (byte - 0xe0) 1 0x80 0xbf)
  else if byte = 0xf0 then ([], .part 0 2 0x90 0xbf)
  else if byte < 0xf4 then ([], .part (byte - 0xf0) 2 0x80 0xbf)
  else if byte = 0xf4 then ([], .part 4 2 0x80 0x8f)
  else ([replacement], .start)

/-- Read one byte: the characters that it settles and the new state. -/
def step : Pending → Nat → List Char × Pending
  | .start, byte => lead byte
  | .part value missing low high, byte =>
    if low ≤ byte && byte ≤ high then
      let value := value * 0x40 + (byte - 0x80)
      match missing with
      | 0 => ([Char.ofNat value], .start)
      | missing + 1 => ([], .part value missing 0x80 0xbf)
    else
      let (chars, state) := lead byte
      (replacement :: chars, state)

/-- What is left over when the bytes end. -/
def finish : Pending → List Char
  | .start => []
  | .part .. => [replacement]

/-- Read one byte after others; the characters so far stand in reverse. -/
def feed (read : Pending × List Char) (byte : UInt8) : Pending × List Char :=
  let (chars, state) := step read.1 byte.toNat
  (state, chars.reverse ++ read.2)

/-- The characters of a sequence of bytes. -/
def decode (bytes : List UInt8) : List Char :=
  let read := bytes.foldl feed (.start, [])
  read.2.reverse ++ finish read.1

/-- The bytes of a text. -/
def encode (text : List Char) : List UInt8 := text.flatMap String.utf8EncodeChar

/-- What is read from a state on, one byte after the other. -/
def readFrom (state : Pending) : List UInt8 → List Char
  | [] => finish state
  | byte :: rest => (step state byte.toNat).1 ++ readFrom (step state byte.toNat).2 rest

theorem reverse_foldl_feed (bytes : List UInt8) (state : Pending) (chars : List Char) :
    (bytes.foldl feed (state, chars)).2.reverse ++ finish (bytes.foldl feed (state, chars)).1 =
      chars.reverse ++ readFrom state bytes := by
  induction bytes generalizing state chars with
  | nil => rfl
  | cons byte rest ih => simp [feed, readFrom, ih]

theorem decode_eq_readFrom (bytes : List UInt8) : decode bytes = readFrom .start bytes := by
  simpa [decode] using reverse_foldl_feed bytes .start []

end FlowAtlas.Text.Utf8
