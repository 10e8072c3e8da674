import Xyco.Io.Read
import Xyco.Machine.Run

/-!
# The two `File` backends

`epoll::File` calls `read` and `write`, which use and advance the offset of the descriptor.
`uring::File` submits requests with an offset of their own, which it leaves at its default. Both
share `seek`. The calls of one `File` come one after the other, and the same calls are made of a
`File` of each kind.
-/

namespace Xyco.Fs

open Utils Io

inductive Whence where
  | set
  | cur
  | fromEnd
  | data
  | hole
deriving DecidableEq, Repr

/-- An open file, as the kernel keeps it. -/
structure Descriptor where
  content : List UInt8
  offset : ℕ
  readable : Bool
  writable : Bool
deriving DecidableEq, Repr

namespace Descriptor

def ebadf : ℤ := 9

def einval : ℤ := 22

def enxio : ℤ := 6

/-- The most that one call transfers. -/
def maxRwCount : ℕ := 2 ^ 31 - 2 ^ 12

/-- The bytes that a call gets which asks for `n` bytes at `position`, or the error number. -/
def readAt (d : Descriptor) (position n : ℕ) : Except ℤ (Bytes n) :=
  if d.readable then
    .ok ⟨(d.content.drop position).take (min n maxRwCount),
      (List.length_take_le _ _).trans (Nat.min_le_left _ _)⟩
  else .error ebadf

/-- The content after `bytes` were written at `position`. A gap before them is filled with zeros. -/
def overwrite (d : Descriptor) (position : ℕ) (bytes : List UInt8) : List UInt8 :=
  if bytes = [] then d.content
  else d.content.take position ++ List.replicate (position - d.content.length) 0 ++ bytes ++
    d.content.drop (position + bytes.length)

/-- The number of bytes that a call writes at `position`, or the error number. -/
def writeAt (d : Descriptor) (position : ℕ) (bytes : List UInt8) : Except ℤ ℕ × Descriptor :=
  if d.writable then
    (.ok (min bytes.length maxRwCount),
      { d with content := d.overwrite position (bytes.take maxRwCount) })
  else (.error ebadf, d)

/-- `lseek64`. The content is one piece of data without holes. -/
def lseek (d : Descriptor) (offset : ℤ) (whence : Whence) : Except ℤ ℤ :=
  match whence with
  | .set => if offset < 0 then .error einval else .ok offset
  | .cur => if d.offset + offset < 0 then .error einval else .ok (d.offset + offset)
  | .fromEnd =>
    if d.content.length + offset < 0 then .error einval else .ok (d.content.length + offset)
  | .data => if offset < 0 ∨ d.content.length ≤ offset then .error enxio else .ok offset
  | .hole => if offset < 0 ∨ d.content.length ≤ offset then .error enxio else .ok d.content.length

end Descriptor

/-! ## `epoll::File` -/

namespace Epoll

/-- `read`, and `into_sys_result` of what it returns. -/
def read (d : Descriptor) (n : ℕ) : Result (Bytes n) × Descriptor :=
  match d.readAt d.offset n with
  | .ok bytes => (.ok bytes, { d with offset := d.offset + bytes.val.length })
  | .error e => (.error ⟨e, ""⟩, d)

def write (d : Descriptor) (bytes : List UInt8) : Result ℕ × Descriptor :=
  match d.writeAt d.offset bytes with
  | (.ok count, d) => (.ok count, { d with offset := d.offset + count })
  | (.error e, d) => (.error ⟨e, ""⟩, d)

end Epoll

/-! ## `uring::File` -/

namespace Uring

/-- `IoExtra::Read`. -/
structure ReadArgs where
  len : ℕ
  offset : ℕ := 0

/-- `IoExtra::Write`. -/
structure WriteArgs where
  len : ℕ
  offset : ℕ := 0

/-- The length of a range as an `unsigned int`. -/
def toUint (n : ℕ) : ℕ := n % 2 ^ 32

theorem toUint_le (n : ℕ) : toUint n ≤ n := Nat.mod_le n _

def readArgs (n : ℕ) : ReadArgs := { len := toUint n }

def writeArgs (bytes : List UInt8) : WriteArgs := { len := toUint bytes.length }

/-- What the second `poll` makes of `return_`. -/
def result {T : Type*} (ret : ℤ) (value : T) : Result T :=
  if 0 ≤ ret then .ok value else .error ⟨-ret, ""⟩

def read (d : Descriptor) (n : ℕ) : Result (Bytes n) × Descriptor :=
  match d.readAt (readArgs n).offset (readArgs n).len with
  | .ok bytes => (result bytes.val.length ⟨bytes.val, bytes.property.trans (toUint_le n)⟩, d)
  | .error e => (result (-e) ⟨[], Nat.zero_le n⟩, d)

def write (d : Descriptor) (bytes : List UInt8) : Result ℕ × Descriptor :=
  match d.writeAt (writeArgs bytes).offset (bytes.take (writeArgs bytes).len) with
  | (.ok count, d) => (result count count, d)
  | (.error e, d) => (result (-e) 0, d)

end Uring

/-! ## Calls -/

inductive Backend where
  | epoll
  | uring
deriving DecidableEq, Repr

structure File (backend : Backend) where
  fd : Descriptor
deriving DecidableEq, Repr

inductive FileOp where
  | read (n : ℕ)
  | write (bytes : List UInt8)
  | seek (offset : ℤ) (whence : Whence)
deriving DecidableEq, Repr

/-- What a call gives back: the bytes in the range, the number of bytes written, the new position or
an error. -/
inductive Reply where
  | bytes (bytes : List UInt8)
  | written (count : ℕ)
  | position (position : ℤ)
  | error (e : Error)
deriving DecidableEq, Repr

def Reply.ofResult {T : Type*} (reply : T → Reply) : Result T → Reply
  | .ok value => reply value
  | .error e => .error e

namespace File

variable {backend : Backend}

def read (f : File backend) (n : ℕ) : Result (Bytes n) × File backend :=
  match backend with
  | .epoll => ((Epoll.read f.fd n).1, ⟨(Epoll.read f.fd n).2⟩)
  | .uring => ((Uring.read f.fd n).1, ⟨(Uring.read f.fd n).2⟩)

def write (f : File backend) (bytes : List UInt8) : Result ℕ × File backend :=
  match backend with
  | .epoll => ((Epoll.write f.fd bytes).1, ⟨(Epoll.write f.fd bytes).2⟩)
  | .uring => ((Uring.write f.fd bytes).1, ⟨(Uring.write f.fd bytes).2⟩)

/-- `FileBase::seek`. -/
def seek (f : File backend) (offset : ℤ) (whence : Whence) : Result ℤ × File backend :=
  match f.fd.lseek offset whence with
  | .ok position => (.ok position, ⟨{ f.fd with offset := position.toNat }⟩)
  | .error e => (.error ⟨e, ""⟩, f)

instance : Readable (File backend) := ⟨read⟩

def perform (f : File backend) : FileOp → Reply × File backend
  | .read n => (.ofResult (fun bytes => .bytes bytes.val) (f.read n).1, (f.read n).2)
  | .write bytes => (.ofResult .written (f.write bytes).1, (f.write bytes).2)
  | .seek offset whence => (.ofResult .position (f.seek offset whence).1, (f.seek offset whence).2)

end File

/-- A `File` of each kind, with the replies to the calls. -/
structure Files where
  epoll : File .epoll
  uring : File .uring
  epollReplies : List Reply
  uringReplies : List Reply
deriving DecidableEq, Repr

namespace Files

def start (d : Descriptor) : Files := ⟨⟨d⟩, ⟨d⟩, [], []⟩

def step (s : Files) (op : FileOp) : Option Files :=
  some
    { epoll := (s.epoll.perform op).2
      uring := (s.uring.perform op).2
      epollReplies := s.epollReplies ++ [(s.epoll.perform op).1]
      uringReplies := s.uringReplies ++ [(s.uring.perform op).1] }

/-- `read` and `write` are called at the start of the file, with a length that is an `unsigned int`,
and `seek` by a distance only when the two descriptors have the same offset. -/
def FromStart (s : Files) : FileOp → Prop
  | .read n => s.epoll.fd.offset = 0 ∧ n < 2 ^ 32
  | .write bytes => s.epoll.fd.offset = 0 ∧ bytes.length < 2 ^ 32
  | .seek _ whence => whence = .cur → s.epoll.fd.offset = s.uring.fd.offset

instance (s : Files) (op : FileOp) : Decidable (s.FromStart op) :=
  match op with
  | .read _ | .write _ => inferInstanceAs (Decidable (_ ∧ _))
  | .seek _ _ => inferInstanceAs (Decidable (_ → _))

end Files

end Xyco.Fs
