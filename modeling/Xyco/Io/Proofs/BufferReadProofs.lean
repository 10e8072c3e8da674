import Xyco.Io.BufferRead
import Xyco.Io.Proofs.BufferReaderProofs

/-!
# Proofs: `read_to_end`

A round takes all that is buffered, so what is still to come gets shorter until it is empty. This is
said of a reader that does not fail; `I` is what the inner reader keeps for that.
-/

namespace Xyco.Io.BufferReader

open Utils

variable {R : Type*} [Streaming R] {I : R → Prop} {r : BufferReader R}

/-- `fill_buffer` leaves the buffer empty only at the end of the stream. -/
theorem fillBuffer_end {r' : BufferReader R} {range : ℕ × ℕ}
    (hfill : r.fillBuffer = (.ok range, r')) (hend : r'.pos = r'.cap) : r'.remaining = [] := by
  have hremaining := r.fillBuffer_remaining
  rw [hfill] at hremaining
  rcases fillBuffer_ok_cases hfill with ⟨bytes, reader, hempty, hread, -, rfl⟩ | ⟨hne, -, rfl⟩
  · have hbytes : bytes.val = [] := List.eq_nil_of_length_eq_zero hend.symm
    have hstream := Streaming.stream_end (by decide) hread hbytes
    rw [hremaining, remaining, buffered_eq_nil hempty, hstream, List.nil_append]
  · exact absurd hend hne

/-- `fill_buffer` of a reader that does not fail. -/
theorem fillBuffer_ok
    (hI : ∀ reader, I reader → ∃ bytes reader',
      Readable.read reader defaultBufferSize = (.ok bytes, reader') ∧ I reader')
    (h : I r.innerReader) :
    ∃ r' : BufferReader R, r.fillBuffer = (.ok (r'.pos, r'.cap), r') ∧
      r'.remaining = r.remaining ∧ I r'.innerReader ∧ (r'.pos = r'.cap → r'.remaining = []) := by
  obtain ⟨bytes, reader, hread, hI'⟩ := hI _ h
  have hremaining := r.fillBuffer_remaining
  rcases hfill : r.fillBuffer with ⟨e | range, r'⟩
  · obtain ⟨reader', -, hread', -⟩ := fillBuffer_error_cases hfill
    rw [hread] at hread'
    cases hread'
  · rw [hfill] at hremaining
    have hrange := fillBuffer_range hfill
    refine ⟨r', by rw [hrange], hremaining, ?_, fillBuffer_end hfill⟩
    rcases fillBuffer_ok_cases hfill with ⟨bytes', reader', -, hread', -, rfl⟩ | ⟨-, -, rfl⟩
    · rw [hread] at hread'
      cases hread'
      exact hI'
    · exact h

/-- Consuming all that is buffered, or more. -/
theorem consume_all (r : BufferReader R) (amt : ℕ) (hle : r.cap - r.pos ≤ amt)
    (hamt : amt ≤ defaultBufferSize + 1) : r.remaining = r.buffered ++ (r.consume amt).remaining := by
  have hinner : (r.consume amt).innerReader = r.innerReader := rfl
  rw [remaining, remaining, buffered_consume_all hle hamt, hinner, List.nil_append]

/-- `read_to_end` returns what is still to come. -/
theorem readToEnd_returns
    (hI : ∀ reader, I reader → ∃ bytes reader',
      Readable.read reader defaultBufferSize = (.ok bytes, reader') ∧ I reader')
    (h : I r.innerReader) (content : List UInt8) {rounds : ℕ}
    (hrounds : r.remaining.length < rounds) :
    ∃ r' : BufferReader R, readToEnd rounds content r = some (.returned (content ++ r.remaining) r') ∧
      r'.remaining = [] := by
  induction rounds generalizing content r with
  | zero => omega
  | succ rounds ih =>
    obtain ⟨r', hfill, hremaining, hI', hend⟩ := fillBuffer_ok hI h
    rw [readToEnd, hfill]
    by_cases hempty : r'.pos = r'.cap
    · refine ⟨r', ?_, hend hempty⟩
      rw [← hremaining, hend hempty, List.append_nil]
      exact if_pos hempty
    · -- the round takes at least one byte
      have hcap := r'.cap_le
      have hall := r'.consume_all _ (Nat.le_refl _) (by omega)
      have hlength := r'.buffered_length
      have hle := r'.pos_le
      have hless : (r'.consume (r'.cap - r'.pos)).remaining.length < rounds := by
        rw [← hremaining, hall, List.length_append, hlength] at hrounds
        omega
      obtain ⟨r'', hrest, hr''⟩ :=
        ih (r := r'.consume (r'.cap - r'.pos)) hI' (content ++ r'.buffered) hless
      refine ⟨r'', ?_, hr''⟩
      rw [← hremaining, hall, ← List.append_assoc]
      exact (if_neg hempty).trans hrest

/-! ## A stream in chunks -/

/-- The range that `fill_buffer` returns is not longer than what `consume` can be told. -/
theorem fillBuffer_fits {r' : BufferReader R} {range : ℕ × ℕ}
    (hfill : r.fillBuffer = (.ok range, r')) :
    (range.2 - range.1) % 2 ^ 16 = range.2 - range.1 := by
  rw [fillBuffer_range hfill]
  exact mod_eq_of_buffered (Nat.le_refl _)

/-- `read_to_end` returns what is buffered and then the chunks, whatever their lengths, and leaves
nothing behind. No amount is too large for the parameter of `consume`. -/
theorem readToEnd_everything {r : BufferReader Chunks}
    (chunks : List { chunk : List UInt8 // chunk ≠ [] })
    (hinner : r.innerReader = ⟨chunks.map .ok⟩) :
    (∃ enough, ∀ rounds, enough ≤ rounds → ∃ r', readToEnd rounds [] r =
        some (.returned (r.buffered ++ (chunks.map Subtype.val).flatten) r') ∧
      r'.buffered = [] ∧ r'.innerReader.stream = []) ∧
    ∀ (r₁ r₂ : BufferReader Chunks) (first last : ℕ), r₁.fillBuffer = (.ok (first, last), r₂) →
      (last - first) % 2 ^ 16 = last - first := by
  have hok : ¬ r.innerReader.Fails := by
    rintro ⟨e, he⟩
    rw [hinner] at he
    obtain ⟨chunk, -, heq⟩ := List.mem_map.mp he
    cases heq
  have hremaining : r.remaining = r.buffered ++ (chunks.map Subtype.val).flatten := by
    rw [remaining, hinner, List.append_right_inj]
    show Chunks.stream ⟨chunks.map .ok⟩ = _
    rw [Chunks.stream, List.flatMap_map, List.flatMap_def]
  refine ⟨⟨r.remaining.length + 1, fun rounds hrounds => ?_⟩, fun _ _ _ _ => fillBuffer_fits⟩
  obtain ⟨r', hreturn, hnil⟩ := readToEnd_returns (I := fun c : Chunks => ¬ c.Fails)
    (fun c hc => Chunks.read_of_not_fails hc _) hok [] hrounds
  rw [List.nil_append, hremaining] at hreturn
  exact ⟨r', hreturn, List.append_eq_nil_iff.mp hnil⟩

theorem readToEnd_everything_two_chunks :
    ∃ enough, ∀ rounds, enough ≤ rounds → ∃ r', readToEnd rounds [] (new Session.twoChunks) =
      some (.returned [97, 98, 99, 100, 101] r') ∧
      r'.buffered = [] ∧ r'.innerReader.stream = [] :=
  (readToEnd_everything [⟨[97, 98, 99], by decide⟩, ⟨[100, 101], by decide⟩] rfl).1

end Xyco.Io.BufferReader
