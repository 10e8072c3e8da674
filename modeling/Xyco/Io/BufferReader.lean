import Xyco.Io.Read
import Xyco.Machine.Run

/-!
# `BufferReader`

The cursors `pos_` and `cap_` delimit what is buffered of the last chunk of the inner reader. A
session is a caller that mixes the three operations in any way, with the bytes that were handed out.
-/

namespace Xyco.Io

open Utils

def defaultBufferSize : ℕ := 8 * 1024

/-- `pos` and `cap` are cursors into `buffer`. -/
structure BufferReader (R : Type*) where
  innerReader : R
  buffer : List UInt8
  pos : ℕ
  cap : ℕ
  size_eq : buffer.length = defaultBufferSize
  pos_le : pos ≤ cap
  cap_le : cap ≤ defaultBufferSize

namespace BufferReader

variable {R : Type*}

def new (reader : R) : BufferReader R where
  innerReader := reader
  buffer := List.replicate defaultBufferSize 0
  pos := 0
  cap := 0
  size_eq := List.length_replicate
  pos_le := Nat.le_refl 0
  cap_le := Nat.zero_le _

/-- The bytes between the two cursors. -/
def buffered (r : BufferReader R) : List UInt8 := (r.buffer.take r.cap).drop r.pos

/-- `consume(uint16_t amt)`. -/
def consume (r : BufferReader R) (amt : ℕ) : BufferReader R :=
  { r with pos := min (r.pos + amt % 2 ^ 16) r.cap, pos_le := Nat.min_le_right _ _ }

/-- The buffer after the inner reader has written `bytes` to it. -/
def refill (r : BufferReader R) (bytes : Bytes defaultBufferSize) (reader : R) : BufferReader R where
  innerReader := reader
  buffer := bytes.val ++ r.buffer.drop bytes.val.length
  pos := 0
  cap := bytes.val.length
  size_eq := by
    have := bytes.property
    rw [List.length_append, List.length_drop, r.size_eq]
    omega
  pos_le := Nat.zero_le _
  cap_le := bytes.property

variable [Readable R]

/-- `fill_buffer`. The result is the range between the two cursors. -/
def fillBuffer (r : BufferReader R) : Result (ℕ × ℕ) × BufferReader R :=
  if r.pos = r.cap then
    match Readable.read r.innerReader defaultBufferSize with
    | (.ok bytes, reader) => (.ok (0, bytes.val.length), r.refill bytes reader)
    | (.error e, reader) => (.error e, { r with innerReader := reader })
  else (.ok (r.pos, r.cap), r)

def read (r : BufferReader R) (len : ℕ) : Result (Bytes len) × BufferReader R :=
  if len ≤ r.cap - r.pos then
    (.ok ⟨(r.buffer.drop r.pos).take len, List.length_take_le _ _⟩, r.consume len)
  else
    match r.fillBuffer with
    | (.error e, r) => (.error e, r)
    | (.ok _, r) =>
      (.ok ⟨r.buffer.take (min len (r.cap - r.pos)),
          (List.length_take_le _ _).trans (Nat.min_le_left _ _)⟩,
        r.consume (min len (r.cap - r.pos)))

instance : Readable (BufferReader R) := ⟨read⟩

end BufferReader

/-! ## Sessions -/

inductive ReaderAction where
  | read (len : ℕ)
  | fillBuffer
  | consume (amt : ℕ)
deriving DecidableEq, Repr

/-- A `BufferReader` with the bytes that were read or consumed. -/
structure Session (R : Type*) where
  reader : BufferReader R
  out : List UInt8

namespace Session

variable {R : Type*}

def start (reader : R) : Session R := ⟨.new reader, []⟩

variable [Readable R]

def step (s : Session R) : ReaderAction → Option (Session R)
  | .read len =>
    match s.reader.read len with
    | (.ok bytes, r) => some ⟨r, s.out ++ bytes.val⟩
    | (.error _, r) => some ⟨r, s.out⟩
  | .fillBuffer => some ⟨s.reader.fillBuffer.2, s.out⟩
  | .consume amt => some ⟨s.reader.consume amt, s.out ++ s.reader.buffered.take (amt % 2 ^ 16)⟩

/-- `read` asks for no more than is buffered, or finds a buffer from which nothing was taken or
everything. -/
def Aligned (s : Session R) : ReaderAction → Prop
  | .read len => len ≤ s.reader.cap - s.reader.pos ∨ s.reader.pos = 0 ∨ s.reader.pos = s.reader.cap
  | _ => True

instance (s : Session R) (a : ReaderAction) : Decidable (s.Aligned a) :=
  match a with
  | .read _ => inferInstanceAs (Decidable (_ ∨ _))
  | .fillBuffer | .consume _ => isTrue trivial

end Session

end Xyco.Io
