import Mathlib.Algebra.Order.Ring.Int
import Mathlib.Data.List.Basic

/-!
# Readers

`Readable` is the concept of `read.ccm`: a reader copies some bytes to the front of a range. What a
reader reads from is up to it; the readers that read from a byte stream are `Streaming`.
-/

namespace Xyco.Utils

structure Error where
  errno : ℤ
  info : String
deriving DecidableEq, Repr

abbrev Result (T : Type*) := Except Error T

end Xyco.Utils

namespace Xyco.Io

open Utils

/-- What a call copies to a range of `n` bytes. The number that the call returns is its length. -/
abbrev Bytes (n : ℕ) := { bytes : List UInt8 // bytes.length ≤ n }

/-- `read(begin, end)` of a range of `n` bytes, with the reader after the call. -/
class Readable (R : Type*) where
  read : R → (n : ℕ) → Result (Bytes n) × R

/-- Readers of a byte stream, of which `stream` is still to come. A call takes bytes from the front of
the stream, and none if it fails or if the stream is at its end. -/
class Streaming (R : Type*) extends Readable R where
  stream : R → List UInt8
  stream_ok {r r' : R} {n : ℕ} {bytes : Bytes n} :
    read r n = (.ok bytes, r') → stream r = bytes.val ++ stream r'
  stream_error {r r' : R} {n : ℕ} {e : Error} :
    read r n = (.error e, r') → stream r' = stream r
  stream_end {r r' : R} {n : ℕ} {bytes : Bytes n} :
    0 < n → read r n = (.ok bytes, r') → bytes.val = [] → stream r = []

/-! ## A stream in chunks -/

/-- A reader that delivers one chunk, or fails, with each call. A chunk that is longer than the range
is delivered in parts. After the last of `replies` the stream is at its end. -/
structure Chunks where
  replies : List (Result { chunk : List UInt8 // chunk ≠ [] })

namespace Chunks

def read (c : Chunks) (n : ℕ) : Result (Bytes n) × Chunks :=
  match c.replies with
  | [] => (.ok ⟨[], Nat.zero_le n⟩, c)
  | .error e :: rest => (.error e, ⟨rest⟩)
  | .ok chunk :: rest =>
    (.ok ⟨chunk.val.take n, List.length_take_le n _⟩,
      if h : chunk.val.drop n = [] then ⟨rest⟩ else ⟨.ok ⟨chunk.val.drop n, h⟩ :: rest⟩)

def stream (c : Chunks) : List UInt8 :=
  c.replies.flatMap fun
    | .ok chunk => chunk.val
    | .error _ => []

/-- Some call fails. -/
def Fails (c : Chunks) : Prop := ∃ e, .error e ∈ c.replies

/-- What comes before the first call that fails. -/
def beforeError (c : Chunks) : List UInt8 := go c.replies
where
  go : List (Result { chunk : List UInt8 // chunk ≠ [] }) → List UInt8
    | [] => []
    | .error _ :: _ => []
    | .ok chunk :: rest => chunk.val ++ go rest

/-- A call that succeeds takes its bytes from the front of the first chunk, whatever is collected from
the chunks that follow. -/
theorem read_front {c c' : Chunks} {n : ℕ} {bytes : Bytes n}
    {collect : List (Result { chunk : List UInt8 // chunk ≠ [] }) → List UInt8}
    (hcollect : ∀ chunk rest, collect (.ok chunk :: rest) = chunk.val ++ collect rest)
    (h : c.read n = (.ok bytes, c')) : collect c.replies = bytes.val ++ collect c'.replies := by
  obtain ⟨replies⟩ := c
  rcases replies with _ | ⟨e | chunk, rest⟩
  · cases h
    rfl
  · cases h
  · cases h
    have hsplit := List.take_append_drop n chunk.val
    by_cases hdrop : chunk.val.drop n = []
    · rw [hdrop, List.append_nil] at hsplit
      simp only [dif_pos hdrop, hcollect, hsplit]
    · simp only [dif_neg hdrop, hcollect, ← List.append_assoc, hsplit]

theorem read_ok {c c' : Chunks} {n : ℕ} {bytes : Bytes n} (h : c.read n = (.ok bytes, c')) :
    c.stream = bytes.val ++ c'.stream :=
  read_front (fun _ _ => List.flatMap_cons) h

theorem read_error {c c' : Chunks} {n : ℕ} {e : Error} (h : c.read n = (.error e, c')) :
    c'.stream = c.stream := by
  obtain ⟨replies⟩ := c
  rcases replies with _ | ⟨e | chunk, rest⟩
  · cases h
  · cases h
    rfl
  · cases h

theorem read_end {c c' : Chunks} {n : ℕ} {bytes : Bytes n} (hn : 0 < n)
    (h : c.read n = (.ok bytes, c')) (hnil : bytes.val = []) : c.stream = [] := by
  obtain ⟨replies⟩ := c
  rcases replies with _ | ⟨e | chunk, rest⟩
  · rfl
  · cases h
  · cases h
    rcases List.take_eq_nil_iff.mp hnil with hzero | hchunk
    · omega
    · exact absurd hchunk chunk.property

theorem fails_of_error {c c' : Chunks} {n : ℕ} {e : Error} (h : c.read n = (.error e, c')) :
    c.Fails := by
  obtain ⟨replies⟩ := c
  rcases replies with _ | ⟨e' | chunk, rest⟩
  · cases h
  · exact ⟨e', List.mem_cons_self⟩
  · cases h

theorem fails_cons {chunk : { chunk : List UInt8 // chunk ≠ [] }}
    {rest : List (Result { chunk : List UInt8 // chunk ≠ [] })} :
    (Chunks.mk (.ok chunk :: rest)).Fails ↔ (Chunks.mk rest).Fails := by
  simp [Fails]

theorem fails_of_ok {c c' : Chunks} {n : ℕ} {bytes : Bytes n} (h : c.read n = (.ok bytes, c')) :
    c.Fails ↔ c'.Fails := by
  obtain ⟨replies⟩ := c
  rcases replies with _ | ⟨e | chunk, rest⟩
  · cases h
    rfl
  · cases h
  · cases h
    by_cases hdrop : chunk.val.drop n = []
    · rw [dif_pos hdrop, fails_cons]
    · rw [dif_neg hdrop, fails_cons, fails_cons]

/-- If no call fails, this one does not, and no later one does. -/
theorem read_of_not_fails {c : Chunks} (h : ¬ c.Fails) (n : ℕ) :
    ∃ bytes c', c.read n = (.ok bytes, c') ∧ ¬ c'.Fails := by
  rcases hread : c.read n with ⟨e | bytes, c'⟩
  · exact absurd (fails_of_error hread) h
  · exact ⟨bytes, c', rfl, fun hfails => h ((fails_of_ok hread).mpr hfails)⟩

instance : Streaming Chunks where
  read := read
  stream := stream
  stream_ok := read_ok
  stream_error := read_error
  stream_end := read_end

end Chunks

end Xyco.Io
