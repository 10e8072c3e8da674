import Xyco.Io.Proofs.ReadUntilProofs

/-!
# Proofs: errors of the inner reader

A `fill_buffer` that fails leaves the cursors as they are and hands its error to the helper, which
dereferences the result all the same. So `read_to_end` is safe only if no read fails, and `read_until`
only if the character comes before the first read that fails.
-/

namespace Xyco.Io

open Utils

namespace Chunks

variable {c c' : Chunks} {n : ℕ}

theorem beforeError_of_error {e : Error} (h : c.read n = (.error e, c')) : c.beforeError = [] := by
  obtain ⟨replies⟩ := c
  rcases replies with _ | ⟨e' | chunk, rest⟩
  · cases h
  · rfl
  · cases h

/-- A call that succeeds takes its bytes from what comes before the first error. -/
theorem beforeError_of_ok {bytes : Bytes n} (h : c.read n = (.ok bytes, c')) :
    c.beforeError = bytes.val ++ c'.beforeError :=
  read_front (fun _ _ => rfl) h

/-- Only the end of the stream yields no bytes. -/
theorem not_fails_of_nil {bytes : Bytes n} (hn : 0 < n) (h : c.read n = (.ok bytes, c'))
    (hnil : bytes.val = []) : ¬ c.Fails := by
  obtain ⟨replies⟩ := c
  rcases replies with _ | ⟨e | chunk, rest⟩
  · rintro ⟨e, he⟩
    cases he
  · cases h
  · cases h
    rcases List.take_eq_nil_iff.mp hnil with hzero | hchunk
    · omega
    · exact absurd hchunk chunk.property

end Chunks

namespace BufferReader

variable {r r' : BufferReader Chunks} {character : UInt8} {content : List UInt8} {rounds : ℕ}

/-- What can be handed out before the first read that fails. -/
def beforeError (r : BufferReader Chunks) : List UInt8 :=
  r.buffered ++ r.innerReader.beforeError

theorem beforeError_consume (r : BufferReader Chunks) (amt : ℕ) (hle : r.cap - r.pos ≤ amt)
    (hamt : amt ≤ defaultBufferSize + 1) :
    r.beforeError = r.buffered ++ (r.consume amt).beforeError := by
  have hinner : (r.consume amt).innerReader = r.innerReader := rfl
  rw [beforeError, beforeError, buffered_consume_all hle hamt, hinner, List.nil_append]

/-- `fill_buffer` fails where nothing comes before the first error. -/
theorem fillBuffer_error {e : Error} (hfill : r.fillBuffer = (.error e, r')) :
    r.innerReader.Fails ∧ r.beforeError = [] := by
  obtain ⟨reader, hempty, hread, -⟩ := fillBuffer_error_cases hfill
  refine ⟨Chunks.fails_of_error hread, ?_⟩
  rw [beforeError, buffered_eq_nil hempty, Chunks.beforeError_of_error hread, List.nil_append]

theorem fillBuffer_beforeError {range : ℕ × ℕ} (hfill : r.fillBuffer = (.ok range, r')) :
    r'.beforeError = r.beforeError ∧ (r'.innerReader.Fails ↔ r.innerReader.Fails) ∧
      (r'.pos = r'.cap → ¬ r.innerReader.Fails) := by
  rcases fillBuffer_ok_cases hfill with ⟨bytes, reader, hempty, hread, -, rfl⟩ | ⟨hne, -, rfl⟩
  · refine ⟨?_, (Chunks.fails_of_ok hread).symm, fun hend => ?_⟩
    · rw [beforeError, beforeError, buffered_refill, buffered_eq_nil hempty, List.nil_append]
      exact (Chunks.beforeError_of_ok hread).symm
    · exact Chunks.not_fails_of_nil (by decide) hread (List.eq_nil_of_length_eq_zero hend.symm)
  · exact ⟨rfl, Iff.rfl, fun hend => absurd hend hne⟩

/-! ## `read_to_end` -/

theorem readToEnd_safe (hok : ¬ r.innerReader.Fails) :
    readToEnd rounds content r ≠ some (.badAccess r') := by
  induction rounds generalizing r content with
  | zero => nofun
  | succ rounds ih =>
    rw [readToEnd]
    rcases hfill : r.fillBuffer with ⟨e | ⟨first, last⟩, r₁⟩
    · exact absurd (fillBuffer_error hfill).1 hok
    · obtain ⟨-, hfails, -⟩ := fillBuffer_beforeError hfill
      by_cases hend : first = last
      · simp [hend]
      · simp only [if_neg hend]
        exact ih (r := r₁.consume (last - first)) (fun h => hok (hfails.mp h))

/-- The first read that fails is met after all that comes before it. -/
theorem readToEnd_fails (content : List UInt8) (hfails : r.innerReader.Fails)
    (hrounds : r.beforeError.length < rounds) :
    ∃ r', readToEnd rounds content r = some (.badAccess r') := by
  induction rounds generalizing r content with
  | zero => omega
  | succ rounds ih =>
    rw [readToEnd]
    rcases hfill : r.fillBuffer with ⟨e | range, r₁⟩
    · exact ⟨r₁, rfl⟩
    · obtain rfl := fillBuffer_range hfill
      obtain ⟨hbefore, hfails₁, hend⟩ := fillBuffer_beforeError hfill
      have hsome : r₁.pos ≠ r₁.cap := fun h => hend h hfails
      have hcap := r₁.cap_le
      have hpos := r₁.pos_le
      have hconsume := r₁.beforeError_consume (r₁.cap - r₁.pos) (Nat.le_refl _) (by omega)
      simp only [if_neg hsome]
      refine ih (r := r₁.consume (r₁.cap - r₁.pos)) _ (hfails₁.mpr hfails) ?_
      rw [← hbefore, hconsume, List.length_append, buffered_length] at hrounds
      omega

/-! ## `read_until` -/

/-- After a round that does not find the character, what was buffered is gone. -/
theorem beforeError_missed (r : BufferReader Chunks) :
    r.beforeError = r.buffered ++ (r.consume (r.cap + 1 - r.pos)).beforeError := by
  have hcap := r.cap_le
  have hpos := r.pos_le
  exact r.beforeError_consume _ (by omega) (by omega)

theorem readUntil_safe (hok : r.innerReader.Fails → character ∈ r.beforeError) :
    readUntil character rounds content r ≠ some (.badAccess r') := by
  induction rounds generalizing r content with
  | zero => nofun
  | succ rounds ih =>
    rcases hfill : r.fillBuffer with ⟨e | range, r₁⟩
    · obtain ⟨hfails, hnil⟩ := fillBuffer_error hfill
      rw [hnil] at hok
      exact absurd (hok hfails) List.not_mem_nil
    · obtain rfl := fillBuffer_range hfill
      obtain ⟨hbefore, hfails, -⟩ := fillBuffer_beforeError hfill
      by_cases hend : r₁.pos = r₁.cap
      · rw [readUntil_end hfill hend]
        nofun
      by_cases hfound : character ∈ r₁.buffered
      · rw [readUntil_found hfill hfound]
        nofun
      rcases readUntil_missed rounds content hfill hend hfound with hover | ⟨-, hround⟩
      · rw [hover]
        nofun
      · rw [hround]
        refine ih fun hfails' => ?_
        have hmem := hok (hfails.mp hfails')
        rw [← hbefore, beforeError_missed] at hmem
        exact (List.mem_append.mp hmem).resolve_left hfound

theorem readUntil_fails (hfails : r.innerReader.Fails) (hmiss : character ∉ r.beforeError)
    (hrounds : r.beforeError.length < rounds) :
    ∃ r', readUntil character rounds content r = some (.badAccess r') ∨
      readUntil character rounds content r = some (.overrun r') := by
  induction rounds generalizing r content with
  | zero => omega
  | succ rounds ih =>
    rcases hfill : r.fillBuffer with ⟨e | range, r₁⟩
    · refine ⟨r₁, Or.inl ?_⟩
      rw [readUntil, hfill]
    · obtain rfl := fillBuffer_range hfill
      obtain ⟨hbefore, hfails₁, hend⟩ := fillBuffer_beforeError hfill
      have hsome : r₁.pos ≠ r₁.cap := fun h => hend h hfails
      rw [← hbefore] at hmiss hrounds
      have hmiss₁ : character ∉ r₁.buffered := fun h => hmiss (List.mem_append_left _ h)
      rcases readUntil_missed rounds content hfill hsome hmiss₁ with hover | ⟨-, hround⟩
      · exact ⟨r₁, Or.inr hover⟩
      · rw [hround]
        rw [beforeError_missed] at hmiss hrounds
        have hpos := r₁.pos_le
        rw [List.length_append, buffered_length] at hrounds
        exact ih (hfails₁.mpr hfails) (fun h => hmiss (List.mem_append_right _ h)) (by omega)

/-- No helper dereferences a result that holds an error if the inner reader does not fail, or if
`read_until` finds its character before that. If it does fail, `read_to_end` dereferences the result,
and `read_until` does not return. In any case the cursors are those from before the read. -/
theorem helpers_safe (r : BufferReader Chunks) (character : UInt8) :
    ((∀ rounds r', readToEnd rounds [] r ≠ some (.badAccess r')) ↔ ¬ r.innerReader.Fails) ∧
    ((r.innerReader.Fails → character ∈ r.beforeError) →
      ∀ rounds r', readUntil character rounds [] r ≠ some (.badAccess r')) ∧
    (¬ (r.innerReader.Fails → character ∈ r.beforeError) →
      ∃ enough, ∀ rounds, enough ≤ rounds → ∃ r',
        readUntil character rounds [] r = some (.badAccess r') ∨
        readUntil character rounds [] r = some (.overrun r')) ∧
    ∀ (r r' : BufferReader Chunks) (e : Error), r.fillBuffer = (.error e, r') →
      r'.pos = r.pos ∧ r'.cap = r.cap := by
  refine ⟨⟨fun hsafe hfails => ?_, fun hok rounds r' => readToEnd_safe hok⟩,
    fun hok rounds r' => readUntil_safe hok, fun hbad => ?_, fun r r' e hfill => ?_⟩
  · obtain ⟨r', hbad⟩ := readToEnd_fails [] hfails (Nat.lt_succ_self _)
    exact hsafe _ r' hbad
  · rw [Classical.not_imp] at hbad
    exact ⟨r.beforeError.length + 1, fun rounds hrounds => readUntil_fails hbad.1 hbad.2 hrounds⟩
  · obtain ⟨reader, -, -, rfl⟩ := fillBuffer_error_cases hfill
    exact ⟨rfl, rfl⟩

/-- A chunk, and then a read that fails. -/
def brokenStream : Chunks := ⟨[.ok ⟨[97], by decide⟩, .error ⟨5, "Input/output error"⟩]⟩

theorem helpers_bad_access :
    ∃ r₁ r₂ : BufferReader Chunks,
      (∀ rounds, readToEnd (rounds + 2) [] (new brokenStream) = some (.badAccess r₁)) ∧
      ∀ rounds, readLine (rounds + 2) [] (new brokenStream) = some (.badAccess r₂) :=
  ⟨_, _, fun _ => rfl, fun _ => rfl⟩

end BufferReader

end Xyco.Io
