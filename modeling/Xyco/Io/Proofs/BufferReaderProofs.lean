import Xyco.Io.BufferReader

/-!
# Proofs: `BufferReader`

What a `BufferReader` has still to hand out is what is buffered, followed by the stream of the inner
reader. `fill_buffer` moves bytes from the second part to the first. `consume` takes bytes from the
front, and so does `read`, unless it starts at the wrong end of a buffer that is partly used.
-/

namespace Xyco.Io

open Machine Utils

variable {R : Type*}

namespace BufferReader

variable {r r' : BufferReader R} {len amt : ℕ}

theorem buffered_length (r : BufferReader R) : r.buffered.length = r.cap - r.pos := by
  have := r.cap_le
  rw [buffered, List.length_drop, List.length_take, r.size_eq]
  omega

theorem buffered_eq_nil (h : r.pos = r.cap) : r.buffered = [] := by
  apply List.eq_nil_of_length_eq_zero
  rw [buffered_length]
  omega

theorem buffered_refill (r : BufferReader R) (bytes : Bytes defaultBufferSize) (reader : R) :
    (r.refill bytes reader).buffered = bytes.val := by
  simp [buffered, refill]

theorem take_buffered (h : len ≤ r.cap - r.pos) :
    (r.buffer.drop r.pos).take len = r.buffered.take len := by
  rw [buffered, List.drop_take, List.take_take, Nat.min_eq_left h]

/-- `consume` takes its bytes from the front of what is buffered. -/
theorem buffered_consume (r : BufferReader R) (amt : ℕ) :
    (r.consume amt).buffered = r.buffered.drop (amt % 2 ^ 16) := by
  show (r.buffer.take r.cap).drop (min (r.pos + amt % 2 ^ 16) r.cap) = _
  rw [buffered, List.drop_drop]
  rcases Nat.le_total (r.pos + amt % 2 ^ 16) r.cap with hle | hge
  · rw [Nat.min_eq_left hle]
  · rw [Nat.min_eq_right hge]
    have hcap := List.length_take_le r.cap r.buffer
    rw [List.drop_eq_nil_of_le hcap, List.drop_eq_nil_of_le (hcap.trans hge)]

theorem buffered_consume_all (hle : r.cap - r.pos ≤ amt) (hamt : amt ≤ defaultBufferSize + 1) :
    (r.consume amt).buffered = [] := by
  have hsize : defaultBufferSize + 1 < 2 ^ 16 := by decide
  have hmod : amt % 2 ^ 16 = amt := Nat.mod_eq_of_lt (by omega)
  rw [buffered_consume, hmod]
  exact List.drop_eq_nil_of_le (by rw [buffered_length]; exact hle)

/-- The amounts that `read` consumes fit into the parameter of `consume`. -/
theorem mod_eq_of_buffered (h : amt ≤ r.cap - r.pos) : amt % 2 ^ 16 = amt := by
  have := r.cap_le
  have : defaultBufferSize < 2 ^ 16 := by decide
  exact Nat.mod_eq_of_lt (by omega)

theorem consume_all_pos (r : BufferReader R) : (r.consume (r.cap - r.pos)).pos = r.cap := by
  have := r.pos_le
  show min (r.pos + (r.cap - r.pos) % 2 ^ 16) r.cap = r.cap
  rw [mod_eq_of_buffered (Nat.le_refl _)]
  omega

theorem fillBuffer_of_read [Readable R] {bytes : Bytes defaultBufferSize} {reader : R}
    (hempty : r.pos = r.cap)
    (hread : Readable.read r.innerReader defaultBufferSize = (.ok bytes, reader)) :
    r.fillBuffer = (.ok (0, bytes.val.length), r.refill bytes reader) := by
  unfold fillBuffer
  rw [if_pos hempty, hread]

/-- `fill_buffer` that succeeds has read a chunk, or has found something buffered. -/
theorem fillBuffer_ok_cases [Readable R] {range : ℕ × ℕ} (h : r.fillBuffer = (.ok range, r')) :
    (∃ bytes reader, r.pos = r.cap ∧
      Readable.read r.innerReader defaultBufferSize = (.ok bytes, reader) ∧
      range = (0, bytes.val.length) ∧ r' = r.refill bytes reader) ∨
    (r.pos ≠ r.cap ∧ range = (r.pos, r.cap) ∧ r' = r) := by
  unfold fillBuffer at h
  split at h
  next hempty =>
    split at h
    next bytes reader hread =>
      cases h
      exact Or.inl ⟨bytes, reader, hempty, hread, rfl, rfl⟩
    next => cases h
  next hne =>
    cases h
    exact Or.inr ⟨hne, rfl, rfl⟩

/-- `fill_buffer` that fails has found nothing buffered. -/
theorem fillBuffer_error_cases [Readable R] {e : Error} (h : r.fillBuffer = (.error e, r')) :
    ∃ reader, r.pos = r.cap ∧
      Readable.read r.innerReader defaultBufferSize = (.error e, reader) ∧
      r' = { r with innerReader := reader } := by
  unfold fillBuffer at h
  split at h
  next hempty =>
    split at h
    next => cases h
    next e' reader hread =>
      cases h
      exact ⟨reader, hempty, hread, rfl⟩
  next => cases h

theorem fillBuffer_range [Readable R] {range : ℕ × ℕ} (h : r.fillBuffer = (.ok range, r')) :
    range = (r'.pos, r'.cap) := by
  rcases fillBuffer_ok_cases h with ⟨bytes, reader, -, -, rfl, rfl⟩ | ⟨-, rfl, rfl⟩
  · rfl
  · rfl

/-- After `fill_buffer` the unread bytes start at the front of the buffer, if they did so before or
there were none. -/
theorem fillBuffer_pos [Readable R] {range : ℕ × ℕ} (h : r.pos = 0 ∨ r.pos = r.cap)
    (hfill : r.fillBuffer = (.ok range, r')) : r'.pos = 0 := by
  rcases fillBuffer_ok_cases hfill with ⟨bytes, reader, -, -, -, rfl⟩ | ⟨hne, -, rfl⟩
  · rfl
  · exact h.resolve_right hne

variable [Streaming R]

/-- What is still to be handed out. -/
def remaining (r : BufferReader R) : List UInt8 :=
  r.buffered ++ Streaming.stream r.innerReader

theorem consume_remaining (r : BufferReader R) (amt : ℕ) :
    r.remaining = r.buffered.take (amt % 2 ^ 16) ++ (r.consume amt).remaining := by
  have hinner : (r.consume amt).innerReader = r.innerReader := rfl
  rw [remaining, remaining, buffered_consume, hinner, ← List.append_assoc, List.take_append_drop]

theorem fillBuffer_remaining (r : BufferReader R) : r.fillBuffer.2.remaining = r.remaining := by
  rcases hfill : r.fillBuffer with ⟨e | range, r'⟩
  · obtain ⟨reader, -, hread, rfl⟩ := fillBuffer_error_cases hfill
    have hbuffered : ({ r with innerReader := reader } : BufferReader R).buffered = r.buffered := rfl
    rw [remaining, remaining, hbuffered]
    exact congrArg _ (Streaming.stream_error hread)
  · rcases fillBuffer_ok_cases hfill with ⟨bytes, reader, hempty, hread, -, rfl⟩ | ⟨-, -, rfl⟩
    · rw [remaining, remaining, buffered_refill, buffered_eq_nil hempty, List.nil_append]
      exact (Streaming.stream_ok hread).symm
    · rfl

/-- Taking bytes that are buffered, and consuming them. -/
theorem take_remaining (h : len ≤ r.cap - r.pos) :
    r.remaining = (r.buffer.drop r.pos).take len ++ (r.consume len).remaining := by
  rw [take_buffered h, consume_remaining r len, mod_eq_of_buffered h]

/-- `read` hands out the bytes that come next. -/
theorem read_remaining (haligned : len ≤ r.cap - r.pos ∨ r.pos = 0 ∨ r.pos = r.cap) :
    (∃ bytes r', r.read len = (.ok bytes, r') ∧ r.remaining = bytes.val ++ r'.remaining) ∨
    ∃ e r', r.read len = (.error e, r') ∧ r.remaining = r'.remaining := by
  unfold read
  by_cases hlen : len ≤ r.cap - r.pos
  · rw [if_pos hlen]
    exact Or.inl ⟨_, _, rfl, take_remaining hlen⟩
  · rw [if_neg hlen]
    have hremaining := r.fillBuffer_remaining
    rcases hfill : r.fillBuffer with ⟨e | range, r'⟩
    · rw [hfill] at hremaining
      exact Or.inr ⟨e, r', rfl, hremaining.symm⟩
    · rw [hfill] at hremaining
      have hpos := fillBuffer_pos (haligned.resolve_left hlen) hfill
      have hlen' : min len (r'.cap - r'.pos) ≤ r'.cap - r'.pos := Nat.min_le_right _ _
      have htake := take_remaining hlen'
      rw [hpos, List.drop_zero, ← hpos] at htake
      exact Or.inl ⟨_, _, rfl, hremaining.symm.trans htake⟩

end BufferReader

/-! ## Sessions -/

namespace Session

open BufferReader

variable [Streaming R] {s s' : Session R} {a : ReaderAction}

theorem step_remaining (haligned : s.Aligned a) (h : s.step a = some s') :
    s'.out ++ s'.reader.remaining = s.out ++ s.reader.remaining := by
  cases a with
  | read len =>
    rcases read_remaining haligned with ⟨bytes, r', hread, hremaining⟩ | ⟨e, r', hread, hremaining⟩
    · simp only [step, hread, Option.some.injEq] at h
      subst h
      rw [hremaining, List.append_assoc]
    · simp only [step, hread, Option.some.injEq] at h
      subst h
      rw [hremaining]
  | fillBuffer =>
    obtain rfl := Option.some.inj h
    rw [fillBuffer_remaining]
  | consume amt =>
    obtain rfl := Option.some.inj h
    rw [consume_remaining s.reader amt, List.append_assoc]

/-- Along a session, what was handed out and what is still to come make up the stream. -/
theorem run_remaining {reader : R} {as : List ReaderAction}
    (hG : Along step Aligned (start reader) as) (hrun : run step (start reader) as = some s) :
    s.out ++ s.reader.remaining = Streaming.stream reader := by
  have hstart : (start reader).out ++ (start reader).reader.remaining = Streaming.stream reader := by
    have hempty : (BufferReader.new reader).buffered = [] := buffered_eq_nil rfl
    show [] ++ ((BufferReader.new reader).buffered ++ Streaming.stream reader) = _
    rw [hempty, List.nil_append, List.nil_append]
  exact run_invariant_along (I := fun s => s.out ++ s.reader.remaining = Streaming.stream reader)
    (fun s a s' h haligned hstep => (step_remaining haligned hstep).trans h) hstart hG hrun

/-- The bytes handed out are a prefix of the stream, however it is cut into chunks, in every session
with no `read` that goes past what is left of a partly used buffer. -/
theorem handed_out_prefix {c : Chunks} {s : Session Chunks} {as : List ReaderAction}
    (hG : Along step Aligned (start c) as) (hrun : run step (start c) as = some s) :
    s.out <+: c.stream :=
  ⟨s.reader.remaining, run_remaining hG hrun⟩

/-- Two chunks. -/
def twoChunks : Chunks := ⟨[.ok ⟨[97, 98, 99], by decide⟩, .ok ⟨[100, 101], by decide⟩]⟩

theorem handed_out_prefix_two_chunks :
    ∃ s, run step (start twoChunks) [.read 2, .consume 1, .fillBuffer, .read 9] = some s ∧
      s.out = [97, 98, 99, 100, 101] ∧ s.out <+: twoChunks.stream := by
  have hsession : ∃ s, run step (start twoChunks) [.read 2, .consume 1, .fillBuffer, .read 9] =
      some s ∧ s.out = [97, 98, 99, 100, 101] := exists_run (by decide)
  obtain ⟨s, hrun, hout⟩ := hsession
  exact ⟨s, hrun, hout, handed_out_prefix (by decide) hrun⟩

/-- The second `read` wants more than the byte that is left, and gets the first byte again. -/
theorem read_repeats_byte :
    ∃ s, run step (start twoChunks) [.read 2, .read 2] = some s ∧ s.out = [97, 98, 97] ∧
      ¬ s.out <+: twoChunks.stream := by
  have hsession : ∃ s, run step (start twoChunks) [.read 2, .read 2] = some s ∧
      s.out = [97, 98, 97] := exists_run (by decide)
  obtain ⟨s, hrun, hout⟩ := hsession
  refine ⟨s, hrun, hout, ?_⟩
  rw [hout]
  decide

end Session

end Xyco.Io
