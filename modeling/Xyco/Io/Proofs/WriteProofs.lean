import Xyco.Io.Write

/-!
# Proofs: `write_all`

`total_write` and `begin` move together, and the bytes up to there are what the writer has accepted.
An error that does not end the loop changes neither. The loop runs on only for the rounds that accept
a byte or meet such an error.
-/

namespace Xyco.Io

open Utils

variable {buffer : List UInt8} {s₀ s s' : Sink} {total first rounds : ℕ} {error : Error}

namespace Sink

/-- The sink after a call that accepts some bytes. -/
def accept (s : Sink) (range : List UInt8) (nbytes : ℕ) : Sink :=
  { s with accepted := s.accepted ++ range.take nbytes, history := s.history ++ [.ok nbytes] }

/-- The sink after a call that fails. -/
def fail (s : Sink) (error : Error) : Sink := { s with history := s.history ++ [.error error] }

end Sink

/-- Where the loop is: the first `total` bytes are accepted, and no call has met an error that ends
it. -/
structure Written (buffer : List UInt8) (s₀ : Sink) (total first : ℕ) (s : Sink) : Prop where
  first_eq : first = total
  le : total ≤ buffer.length
  accepted : s.accepted = s₀.accepted ++ buffer.take total
  history : ∃ earlier, s.history = s₀.history ++ earlier ∧
    ∀ error, .error error ∈ earlier → ¬ Fatal error

namespace Written

theorem start (buffer : List UInt8) (s₀ : Sink) : Written buffer s₀ 0 0 s₀ where
  first_eq := rfl
  le := Nat.zero_le _
  accepted := by simp
  history := ⟨[], by simp, by simp⟩

theorem accept (h : Written buffer s₀ total first s) (nbytes : Accepted (buffer.drop first).length) :
    Written buffer s₀ (total + nbytes) (first + nbytes) (s.accept (buffer.drop first) nbytes) := by
  obtain ⟨rfl, hle, haccepted, earlier, hhistory, hretried⟩ := h
  refine ⟨rfl, ?_, ?_, earlier ++ [.ok nbytes], ?_, ?_⟩
  · have hbytes := nbytes.property.1
    have hlength : (buffer.drop first).length = buffer.length - first := List.length_drop
    omega
  · show s.accepted ++ (buffer.drop first).take nbytes = _
    rw [haccepted, List.append_assoc, ← List.take_add]
  · show s.history ++ [.ok nbytes] = _
    rw [hhistory, List.append_assoc]
  · intro error herror
    rcases List.mem_append.mp herror with hmem | hmem
    · exact hretried error hmem
    · simp at hmem

end Written

/-- How `write_all` ends, or that it still runs. -/
inductive Outcome (buffer : List UInt8) (s₀ : Sink) : Option (Result Unit) × Sink → Prop
  | running {total first : ℕ} {s : Sink} (h : Written buffer s₀ total first s) :
      Outcome buffer s₀ (none, s)
  | success {s : Sink} (h : s.accepted = s₀.accepted ++ buffer) : Outcome buffer s₀ (some (.ok ()), s)
  | failure {total first : ℕ} {s : Sink} {error : Error} (h : Written buffer s₀ total first s)
      (hfatal : Fatal error) : Outcome buffer s₀ (some (.error error), s.fail error)

end Xyco.Io
