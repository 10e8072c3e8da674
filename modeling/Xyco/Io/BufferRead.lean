import Xyco.Io.BufferReader

/-!
# `BufferReadExt`

The helpers loop over `fill_buffer` and `consume` of a `BufferReader`. They dereference the result of
`fill_buffer` without a test. `read_until` copies up to the byte after the one that it found.
-/

namespace Xyco.Io

open Utils

/-- How `read_to_end` ends. -/
inductive Helper (R : Type*) where
  | returned (content : List UInt8) (reader : BufferReader R)
  /-- the `*` of a result that holds an error -/
  | badAccess (reader : BufferReader R)

namespace BufferReader

variable {R : Type*} [Readable R]

/-- `read_to_end`, up to a number of rounds of its loop. -/
def readToEnd : ℕ → List UInt8 → BufferReader R → Option (Helper R)
  | 0, _, _ => none
  | rounds + 1, content, r =>
    match r.fillBuffer with
    | (.error _, r) => some (.badAccess r)
    | (.ok (first, last), r) =>
      if first = last then some (.returned content r)
      else readToEnd rounds (content ++ (r.buffer.take last).drop first) (r.consume (last - first))

end BufferReader

/-! ## Reading up to a character -/

/-- How `read_until` ends. -/
inductive Until (R : Type*) where
  | returned (content : List UInt8) (reader : BufferReader R)
  /-- the `*` of a result that holds an error -/
  | badAccess (reader : BufferReader R)
  /-- the copy goes past the end of the buffer -/
  | overrun (reader : BufferReader R)

namespace BufferReader

variable {R : Type*}

/-- `std::find` on a range of the buffer. The result is the end of the range if the character is not
there. -/
def find (r : BufferReader R) (character : UInt8) (first last : ℕ) : ℕ :=
  first + ((r.buffer.take last).drop first).idxOf character

variable [Readable R]

/-- `read_until`, up to a number of rounds of its loop. The range up to `pos + 1` is copied, also if
`pos` is the end of what is buffered. -/
def readUntil (character : UInt8) : ℕ → List UInt8 → BufferReader R → Option (Until R)
  | 0, _, _ => none
  | rounds + 1, content, r =>
    match r.fillBuffer with
    | (.error _, r) => some (.badAccess r)
    | (.ok (first, last), r) =>
      if first = last then some (.returned content r)
      else if defaultBufferSize < r.find character first last + 1 then some (.overrun r)
      else if r.find character first last ≠ last then
        some (.returned
          (content ++ (r.buffer.take (r.find character first last + 1)).drop first)
          (r.consume (r.find character first last + 1 - first)))
      else
        readUntil character rounds
          (content ++ (r.buffer.take (r.find character first last + 1)).drop first)
          (r.consume (r.find character first last + 1 - first))

def readLine : ℕ → List UInt8 → BufferReader R → Option (Until R) := readUntil 10

/-- `UntilRound character r r'`: a round of `read_until` on `r` copies from `r'`, which is the reader
after the `fill_buffer` of the round. -/
inductive UntilRound (character : UInt8) (r : BufferReader R) : BufferReader R → Prop
  | first {range : ℕ × ℕ} {r' : BufferReader R} (hfill : r.fillBuffer = (.ok range, r'))
      (hsome : range.1 ≠ range.2) : UntilRound character r r'
  | next {range : ℕ × ℕ} {r₁ r' : BufferReader R} (hround : UntilRound character r r₁)
      (hmiss : r₁.find character r₁.pos r₁.cap = r₁.cap) (hinside : r₁.cap < defaultBufferSize)
      (hfill : (r₁.consume (r₁.cap + 1 - r₁.pos)).fillBuffer = (.ok range, r'))
      (hsome : range.1 ≠ range.2) : UntilRound character r r'

end BufferReader

end Xyco.Io
