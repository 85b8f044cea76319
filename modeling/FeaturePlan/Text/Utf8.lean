/-! The bytes of characters in UTF-8. A range of characters falls apart into blocks, in each of
which every byte runs through a range of its own, whatever the others are. -/

namespace FeaturePlan.Text

/-- The bytes that a place in a block of characters runs through, both ends included. -/
structure ByteRange where
  first : Nat
  last : Nat
deriving DecidableEq, Repr, Inhabited

/-- The number of bytes that continue the first byte of a character, by its code point. -/
def continuations (n : Nat) : Nat :=
  if n < 0x80 then 0 else if n < 0x800 then 1 else if n < 0x10000 then 2 else 3

/-- A first byte that `count` bytes continue, without the bits of the character. -/
def leadMark (count : Nat) : Nat :=
  match count with
  | 0 => 0
  | 1 => 0xC0
  | 2 => 0xE0
  | _ => 0xF0

/-- The blocks of the code points from `first` to `last`, in order, where `count` bytes of six bits
each continue the first one, to whose bits `mark` is added. A block that is not whole at either end
is cut off there. -/
def byteBlocks (mark : Nat) : (count first last : Nat) → List (List ByteRange)
  | 0, first, last => [[⟨mark + first, mark + last⟩]]
  | count + 1, first, last =>
    let size := 64 ^ (count + 1)
    let full := List.replicate (count + 1) (ByteRange.mk 0x80 0xBF)
    let low := first / size
    let high := last / size
    let byte := fun n => ByteRange.mk (mark + n) (mark + n)
    if low = high then
      (byteBlocks 0x80 count (first % size) (last % size)).map (byte low :: ·)
    else
      let cutLow := first % size ≠ 0
      let cutHigh := last % size ≠ size - 1
      let start := if cutLow then low + 1 else low
      let stop := if cutHigh then high else high + 1
      (if cutLow then (byteBlocks 0x80 count (first % size) (size - 1)).map (byte low :: ·)
        else []) ++
        (if start < stop then [⟨mark + start, mark + (stop - 1)⟩ :: full] else []) ++
        (if cutHigh then (byteBlocks 0x80 count 0 (last % size)).map (byte high :: ·) else [])

/-- The blocks of the characters whose code points lie in a closed range. Characters of different
length, and those before and after the surrogates, are in different blocks. -/
def utf8Blocks (first last : Nat) : List (List ByteRange) :=
  [(0, 0x7F), (0x80, 0x7FF), (0x800, 0xD7FF), (0xE000, 0xFFFF), (0x10000, 0x10FFFF)].flatMap
    fun (low, high) =>
      let first := max first low
      let last := min last high
      let count := continuations low
      if first ≤ last then byteBlocks (leadMark count) count first last else []

end FeaturePlan.Text
