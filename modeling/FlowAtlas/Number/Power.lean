/-!
# Powers of two and ten

The two bases of the library's numbers.  The powers are spelled with `Nat.pow`, so that they are
terms of natural numbers alone.
-/

namespace FlowAtlas

/-- A power of two. -/
abbrev twoTo (n : Nat) : Nat := Nat.pow 2 n

/-- A power of ten. -/
abbrev tenTo (n : Nat) : Nat := Nat.pow 10 n

end FlowAtlas
