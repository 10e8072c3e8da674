import Xyco.Io.Read

/-!
# Writers

`Writable` is the concept of `write.ccm`: a writer accepts some bytes from the front of a range.
`write_all` calls it until the whole buffer is accepted. A `Sink` is a writer that may answer its
calls in any way, and that keeps what it accepted and answered.
-/

namespace Xyco.Io

open Utils

def EAGAIN : ℤ := 11

def EWOULDBLOCK : ℤ := 11

def EINTR : ℤ := 4

/-- How many bytes of a range are accepted: at least one, if there is one. -/
abbrev Accepted (len : ℕ) := { nbytes : ℕ // nbytes ≤ len ∧ (0 < len → 0 < nbytes) }

/-- `write(begin, end)` of a range, with the writer after the call. -/
class Writable (W : Type*) where
  write : W → (range : List UInt8) → Result (Accepted range.length) × W

/-- The errors that end `write_all`. -/
def Fatal (error : Error) : Prop :=
  error.errno ≠ EAGAIN ∧ error.errno ≠ EWOULDBLOCK ∧ error.errno ≠ EINTR

instance (error : Error) : Decidable (Fatal error) := inferInstanceAs (Decidable (_ ∧ _))

section WriteAll

variable {W : Type*} [Writable W]

/-- The loop of `write_all`, with its variables `total_write` and `begin`. The result is `none` if it
still runs after that number of rounds. -/
def writeAllLoop (buffer : List UInt8) : ℕ → ℕ → ℕ → W → Option (Result Unit) × W
  | 0, _, _, writer => (none, writer)
  | rounds + 1, totalWrite, first, writer =>
    if totalWrite ≠ buffer.length then
      match Writable.write writer (buffer.drop first) with
      | (.ok nbytes, writer) => writeAllLoop buffer rounds (totalWrite + nbytes) (first + nbytes) writer
      | (.error error, writer) =>
        if Fatal error then (some (.error error), writer)
        else writeAllLoop buffer rounds totalWrite first writer
    else (some (.ok ()), writer)

def writeAll (rounds : ℕ) (buffer : List UInt8) (writer : W) : Option (Result Unit) × W :=
  writeAllLoop buffer rounds 0 0 writer

/-- The overload for an array of `N` bytes, by a span of it. -/
def writeAllArray {N : ℕ} (rounds : ℕ) (buffer : Fin N → UInt8) (writer : W) :
    Option (Result Unit) × W :=
  writeAll rounds (List.ofFn buffer) writer

end WriteAll

/-! ## A writer with any behaviour -/

/-- `reply k range` is the answer to the call number `k`, on that range. -/
structure Sink where
  reply : ℕ → (range : List UInt8) → Result (Accepted range.length)
  accepted : List UInt8
  history : List (Result ℕ)

namespace Sink

def write (s : Sink) (range : List UInt8) : Result (Accepted range.length) × Sink :=
  match s.reply s.history.length range with
  | .ok nbytes =>
    (.ok nbytes, { s with
      accepted := s.accepted ++ range.take nbytes
      history := s.history ++ [.ok nbytes] })
  | .error error => (.error error, { s with history := s.history ++ [.error error] })

instance : Writable Sink := ⟨write⟩

end Sink

end Xyco.Io
