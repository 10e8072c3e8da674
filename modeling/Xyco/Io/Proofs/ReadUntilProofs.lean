import Xyco.Io.Proofs.BufferReadProofs

/-!
# Proofs: `read_until`

A round that finds the character copies up to it and ends the loop. A round that does not find it
copies what is buffered and one more byte. So the result is right exactly if the first round finds
the character: each other round makes it longer than it should be.
-/

namespace Xyco.Io.BufferReader

open Utils

variable {R : Type*} {r r' : BufferReader R} {character : UInt8} {content : List UInt8} {rounds : ℕ}

theorem find_eq (r : BufferReader R) (character : UInt8) :
    r.find character r.pos r.cap = r.pos + r.buffered.idxOf character := rfl

theorem find_of_notMem (h : character ∉ r.buffered) : r.find character r.pos r.cap = r.cap := by
  have := r.pos_le
  rw [find_eq, List.idxOf_eq_length h, buffered_length]
  omega

theorem find_lt_of_mem (h : character ∈ r.buffered) : r.find character r.pos r.cap < r.cap := by
  have hlt := List.idxOf_lt_length_of_mem h
  rw [buffered_length] at hlt
  rw [find_eq]
  omega

/-- A copy that stays inside of what is buffered. -/
theorem copy_buffered {len : ℕ} (h : len ≤ r.cap - r.pos) :
    (r.buffer.take (r.pos + len)).drop r.pos = r.buffered.take len := by
  rw [← take_buffered h, List.drop_take, Nat.add_sub_cancel_left]

/-- The copy of a round that does not find the character has one byte too many. -/
theorem length_copied (hinside : r.cap < defaultBufferSize) :
    ((r.buffer.take (r.cap + 1)).drop r.pos).length = r.buffered.length + 1 := by
  have hpos := r.pos_le
  rw [List.length_drop, List.length_take, r.size_eq, buffered_length]
  omega

section Rounds

variable [Readable R]

theorem readUntil_end (hfill : r.fillBuffer = (.ok (r'.pos, r'.cap), r')) (hend : r'.pos = r'.cap) :
    readUntil character (rounds + 1) content r = some (.returned content r') := by
  rw [readUntil, hfill]
  exact if_pos hend

theorem readUntil_found (hfill : r.fillBuffer = (.ok (r'.pos, r'.cap), r'))
    (hfound : character ∈ r'.buffered) :
    readUntil character (rounds + 1) content r =
      some (.returned (content ++ r'.buffered.take (r'.buffered.idxOf character + 1))
        (r'.consume (r'.buffered.idxOf character + 1))) := by
  have hlt := find_lt_of_mem hfound
  have hcap := r'.cap_le
  have hlen : r'.buffered.idxOf character + 1 ≤ r'.cap - r'.pos := by
    rw [find_eq] at hlt
    omega
  have hne : r'.pos ≠ r'.cap := by omega
  have hinside : ¬ defaultBufferSize < r'.find character r'.pos r'.cap + 1 := by omega
  rw [readUntil, hfill, ← copy_buffered hlen]
  simp only [if_neg hne, if_neg hinside]
  rw [if_pos hlt.ne, find_eq, Nat.add_assoc, Nat.add_sub_cancel_left]

/-- A round that does not find the character either copies past the end of the buffer, or goes on
with one byte too many. -/
theorem readUntil_missed (rounds : ℕ) (content : List UInt8)
    (hfill : r.fillBuffer = (.ok (r'.pos, r'.cap), r')) (hsome : r'.pos ≠ r'.cap)
    (hmiss : character ∉ r'.buffered) :
    readUntil character (rounds + 1) content r = some (.overrun r') ∨
    r'.cap < defaultBufferSize ∧ readUntil character (rounds + 1) content r =
      readUntil character rounds (content ++ (r'.buffer.take (r'.cap + 1)).drop r'.pos)
        (r'.consume (r'.cap + 1 - r'.pos)) := by
  have hcap := r'.cap_le
  rw [readUntil, hfill]
  simp only [if_neg hsome, find_of_notMem hmiss]
  by_cases hover : defaultBufferSize < r'.cap + 1
  · left
    rw [if_pos hover]
  · right
    refine ⟨by omega, ?_⟩
    simp only [if_neg hover, ne_eq, not_true_eq_false, if_false]

end Rounds

/-! ## The line -/

theorem idxOf_of_append {l after front rest : List UInt8} (hl : character ∈ l)
    (hfront : character ∉ front) (h : l ++ after = front ++ character :: rest) :
    l.take (l.idxOf character + 1) = front ++ [character] := by
  rcases List.append_eq_append_iff.mp h with ⟨front', rfl, -⟩ | ⟨l', rfl, hl'⟩
  · exact absurd (List.mem_append_left _ hl) hfront
  · rcases l' with _ | ⟨c, l'⟩
    · exact absurd (by simpa using hl) hfront
    · obtain ⟨rfl, -⟩ := List.cons.inj hl'
      rw [List.idxOf_append_of_notMem hfront, List.idxOf_cons_self, List.take_append,
        List.take_of_length_le (by omega)]
      simp

theorem front_of_append {l after front rest : List UInt8} (hl : character ∉ l)
    (h : l ++ after = front ++ character :: rest) :
    ∃ front', front = l ++ front' ∧ after = front' ++ character :: rest := by
  rcases List.append_eq_append_iff.mp h with ⟨front', hfront, hafter⟩ | ⟨l', rfl, hl'⟩
  · exact ⟨front', hfront, hafter⟩
  · rcases l' with _ | ⟨c, l'⟩
    · exact ⟨[], by simp, by simpa using hl'.symm⟩
    · obtain ⟨rfl, -⟩ := List.cons.inj hl'
      exact absurd (by simp) hl

section Stream

variable [Streaming R] {front rest line : List UInt8}

/-- A round that finds the character leaves the reader right after it. -/
theorem readUntil_first (rounds : ℕ) (content : List UInt8)
    (hstream : r.remaining = front ++ character :: rest) (hfront : character ∉ front)
    (hfill : r.fillBuffer = (.ok (r'.pos, r'.cap), r')) (hfound : character ∈ r'.buffered) :
    ∃ r'', readUntil character (rounds + 1) content r =
      some (.returned (content ++ (front ++ [character])) r'') ∧ r''.remaining = rest := by
  have hremaining := r.fillBuffer_remaining
  rw [hfill, hstream] at hremaining
  have hlt := List.idxOf_lt_length_of_mem hfound
  rw [buffered_length] at hlt
  have htake := idxOf_of_append hfound hfront hremaining
  have hconsume := r'.consume_remaining (r'.buffered.idxOf character + 1)
  rw [mod_eq_of_buffered hlt, htake, hremaining, List.append_assoc, List.singleton_append] at hconsume
  refine ⟨_, ?_, (List.cons.inj (List.append_cancel_left hconsume)).2.symm⟩
  rw [readUntil_found hfill hfound, htake]

/-- After a round that does not find the character, the line still goes on, and there is one byte too
many. -/
theorem line_of_missed (hstream : r.remaining = front ++ character :: rest)
    (hfill : r.fillBuffer = (.ok (r'.pos, r'.cap), r')) (hmiss : character ∉ r'.buffered) :
    r'.pos ≠ r'.cap ∧ ∃ front', front = r'.buffered ++ front' ∧
      (r'.consume (r'.cap + 1 - r'.pos)).remaining = front' ++ character :: rest := by
  have hremaining := r.fillBuffer_remaining
  rw [hfill, hstream] at hremaining
  refine ⟨fun hend => ?_, ?_⟩
  · rw [fillBuffer_end hfill hend] at hremaining
    simp at hremaining
  · have hcap := r'.cap_le
    have hpos := r'.pos_le
    rw [r'.consume_all (r'.cap + 1 - r'.pos) (by omega) (by omega)] at hremaining
    exact front_of_append hmiss hremaining

/-- What `read_until` returns has at least as many bytes as the line. -/
theorem readUntil_length (hstream : r.remaining = front ++ character :: rest)
    (hfront : character ∉ front)
    (h : readUntil character rounds content r = some (.returned line r')) :
    content.length + front.length + 1 ≤ line.length := by
  induction rounds generalizing r content front with
  | zero => cases h
  | succ rounds ih =>
    rcases hfill : r.fillBuffer with ⟨e | range, r₁⟩
    · rw [readUntil, hfill] at h
      cases h
    · obtain rfl := fillBuffer_range hfill
      by_cases hfound : character ∈ r₁.buffered
      · obtain ⟨r'', hreturn, -⟩ := readUntil_first rounds content hstream hfront hfill hfound
        rw [hreturn] at h
        cases h
        simp [Nat.add_assoc]
      · obtain ⟨hsome, front', rfl, hrest⟩ := line_of_missed hstream hfill hfound
        rcases readUntil_missed rounds content hfill hsome hfound with hover | ⟨hinside, hround⟩
        · rw [hover] at h
          cases h
        · rw [hround] at h
          have hle := ih hrest (fun hmem => hfront (List.mem_append_right _ hmem)) h
          rw [List.length_append, length_copied hinside] at hle
          rw [List.length_append]
          omega

/-- If the first round finds the character, it is the only round. -/
theorem untilRound_eq (hfill : r.fillBuffer = (.ok (r'.pos, r'.cap), r'))
    (hfound : character ∈ r'.buffered) {r'' : BufferReader R} (h : UntilRound character r r'') :
    r'' = r' := by
  induction h with
  | first hfill' hsome =>
    rw [hfill] at hfill'
    exact (Prod.mk.inj hfill').2.symm
  | next hround hmiss hinside hfill' hsome ih =>
    subst ih
    exact absurd hmiss (find_lt_of_mem hfound).ne

/-- `read_until` returns the bytes up to the first such character, leaves the reader right after it
and copies nothing from outside of what is buffered, exactly if the character is in the range of the
first `fill_buffer`. -/
theorem readUntil_line_iff (hstream : r.remaining = front ++ character :: rest)
    (hfront : character ∉ front) :
    ((∃ enough, ∀ rounds, enough ≤ rounds → ∃ r', readUntil character rounds [] r =
        some (.returned (front ++ [character]) r') ∧ r'.remaining = rest) ∧
      ∀ r', UntilRound character r r' → r'.find character r'.pos r'.cap + 1 ≤ r'.cap) ↔
    character ∈ r.fillBuffer.2.buffered := by
  rcases hfill : r.fillBuffer with ⟨e | range, r₁⟩
  · -- nothing is buffered where `fill_buffer` fails
    obtain ⟨reader, hempty, -, rfl⟩ := fillBuffer_error_cases hfill
    have hnil : ({ r with innerReader := reader } : BufferReader R).buffered = [] :=
      buffered_eq_nil hempty
    rw [hnil]
    refine ⟨?_, fun hmem => absurd hmem List.not_mem_nil⟩
    rintro ⟨⟨enough, hreturns⟩, -⟩
    obtain ⟨r', hreturn, -⟩ := hreturns (enough + 1) (Nat.le_succ _)
    rw [readUntil, hfill] at hreturn
    cases hreturn
  · obtain rfl := fillBuffer_range hfill
    constructor
    · rintro ⟨⟨enough, hreturns⟩, -⟩
      by_contra hmiss
      obtain ⟨r', hreturn, -⟩ := hreturns (enough + 1) (Nat.le_succ _)
      obtain ⟨hsome, front', rfl, hrest⟩ := line_of_missed hstream hfill hmiss
      rcases readUntil_missed enough [] hfill hsome hmiss with hover | ⟨hinside, hround⟩
      · rw [hover] at hreturn
        cases hreturn
      · rw [hround] at hreturn
        have hle := readUntil_length hrest (fun hmem => hfront (List.mem_append_right _ hmem)) hreturn
        rw [List.nil_append, length_copied hinside] at hle
        simp only [List.length_append, List.length_singleton] at hle
        omega
    · intro hfound
      refine ⟨⟨1, fun rounds hrounds => ?_⟩, fun r' hround => ?_⟩
      · obtain ⟨n, rfl⟩ := Nat.exists_eq_add_of_le' hrounds
        exact readUntil_first n [] hstream hfront hfill hfound
      · rw [untilRound_eq hfill hfound hround]
        exact find_lt_of_mem hfound

/-- Two lines, of which the second one is cut. -/
def twoLines : Chunks := ⟨[.ok ⟨[97, 10, 98], by decide⟩, .ok ⟨[10], by decide⟩]⟩

theorem readUntil_line_iff_two_lines :
    ∃ enough, ∀ rounds, enough ≤ rounds → ∃ r', readLine rounds [] (new twoLines) =
      some (.returned [97, 10] r') ∧ r'.remaining = [98, 10] := by
  have hstream : (new twoLines).remaining = [97] ++ 10 :: [98, 10] := by decide
  exact ((readUntil_line_iff hstream (by decide)).mpr (by decide)).1

/-- The second line comes back with a byte from behind what was buffered. -/
theorem readLine_cut :
    ∃ r₁ r₂, readLine 1 [] (new twoLines) = some (.returned [97, 10] r₁) ∧
      r₁.remaining = [98, 10] ∧
      ∀ rounds, readLine (rounds + 2) [] r₁ = some (.returned [98, 0, 10] r₂) := by
  refine ⟨_, _, rfl, by decide, fun rounds => rfl⟩

end Stream

end Xyco.Io.BufferReader
