import Xyco.Fs.File
import Xyco.Io.Proofs.BufferReadProofs

/-!
# Proofs: the two `File` backends

The two descriptors have the same content as long as every `read` and `write` is at the start of the
file: there the offset of the request is the offset of the descriptor. Elsewhere they part, since
`uring::File` reads the start of the file again. `read_to_end` over it ends for an empty file only.
-/

namespace Xyco.Fs

open Machine Utils Io

variable {d e : Descriptor} {n : ℕ} {bytes : List UInt8}

/-! ## The same file behind two descriptors -/

/-- The descriptors differ in their offsets at most. -/
structure Descriptor.Same (d e : Descriptor) : Prop where
  content : d.content = e.content
  readable : d.readable = e.readable
  writable : d.writable = e.writable

namespace Descriptor

theorem Same.trans {d' : Descriptor} (h : Same d e) (h' : Same e d') : Same d d' :=
  ⟨h.content.trans h'.content, h.readable.trans h'.readable, h.writable.trans h'.writable⟩

theorem Same.readAt (h : Same d e) (position n : ℕ) : d.readAt position n = e.readAt position n := by
  simp only [Descriptor.readAt, h.content, h.readable]

theorem Same.writeAt (h : Same d e) (position : ℕ) (bytes : List UInt8) :
    (d.writeAt position bytes).1 = (e.writeAt position bytes).1 ∧
      Same (d.writeAt position bytes).2 (e.writeAt position bytes).2 := by
  unfold Descriptor.writeAt
  by_cases hwritable : e.writable = true
  · rw [if_pos hwritable, if_pos (h.writable.trans hwritable)]
    refine ⟨rfl, ?_, h.readable, h.writable⟩
    show d.overwrite _ _ = e.overwrite _ _
    rw [overwrite, overwrite, h.content]
  · rw [if_neg hwritable, if_neg (h.writable ▸ hwritable)]
    exact ⟨rfl, h⟩

theorem Same.lseek (h : Same d e) (offset : ℤ) {whence : Whence}
    (hcur : whence = .cur → d.offset = e.offset) : d.lseek offset whence = e.lseek offset whence := by
  unfold Descriptor.lseek
  cases whence with
  | cur => rw [hcur rfl]
  | set => rfl
  | fromEnd => rw [h.content]
  | data => rw [h.content]
  | hole => rw [h.content]

end Descriptor

/-! ## One call -/

/-- The error of a call that failed with an error number. -/
def sysError (errno : ℤ) : Error := ⟨errno, ""⟩

theorem Epoll.read_fst (d : Descriptor) (n : ℕ) :
    (Epoll.read d n).1 = (d.readAt d.offset n).mapError sysError := by
  unfold Epoll.read
  cases d.readAt d.offset n with
  | ok bytes => rfl
  | error e => rfl

theorem Epoll.read_snd (d : Descriptor) (n : ℕ) : (Epoll.read d n).2.Same d := by
  unfold Epoll.read
  cases d.readAt d.offset n with
  | ok bytes => exact ⟨rfl, rfl, rfl⟩
  | error e => exact ⟨rfl, rfl, rfl⟩

theorem Uring.read_fst (h : n < 2 ^ 32) (d : Descriptor) :
    (Uring.read d n).1 = (d.readAt 0 n).mapError sysError := by
  have hlen : toUint n = n := Nat.mod_eq_of_lt h
  unfold Uring.read Descriptor.readAt
  by_cases hreadable : d.readable = true
  · simp [hreadable, Uring.result, readArgs, hlen, Except.mapError]
  · simp [hreadable, Uring.result, Except.mapError, sysError, Descriptor.ebadf]

theorem Uring.read_snd (d : Descriptor) (n : ℕ) : (Uring.read d n).2 = d := by
  unfold Uring.read
  split
  · rfl
  · rfl

theorem Epoll.write_fst (d : Descriptor) (bytes : List UInt8) :
    (Epoll.write d bytes).1 = (d.writeAt d.offset bytes).1.mapError sysError := by
  unfold Epoll.write
  rcases d.writeAt d.offset bytes with ⟨count | e, d'⟩
  · rfl
  · rfl

theorem Epoll.write_snd (d : Descriptor) (bytes : List UInt8) :
    (Epoll.write d bytes).2.Same (d.writeAt d.offset bytes).2 := by
  unfold Epoll.write
  rcases d.writeAt d.offset bytes with ⟨count | e, d'⟩
  · exact ⟨rfl, rfl, rfl⟩
  · exact ⟨rfl, rfl, rfl⟩

theorem Uring.write_eq (h : bytes.length < 2 ^ 32) (d : Descriptor) :
    Uring.write d bytes =
      ((d.writeAt 0 bytes).1.mapError sysError, (d.writeAt 0 bytes).2) := by
  have hlen : toUint bytes.length = bytes.length := Nat.mod_eq_of_lt h
  unfold Uring.write Descriptor.writeAt
  by_cases hwritable : d.writable = true
  · simp [hwritable, Uring.result, writeArgs, hlen, Except.mapError]
  · simp [hwritable, Uring.result, Except.mapError, sysError, Descriptor.ebadf]

/-! ## The replies -/

theorem File.seek_eq {backend : Backend} (f : File backend) (offset : ℤ) (whence : Whence) :
    f.seek offset whence =
      ((f.fd.lseek offset whence).mapError sysError,
        match f.fd.lseek offset whence with
        | .ok position => ⟨{ f.fd with offset := position.toNat }⟩
        | .error _ => f) := by
  unfold seek
  rcases f.fd.lseek offset whence with e | position
  · rfl
  · rfl

/-- A call at the start of the file gets the same reply from both. -/
theorem perform_same {s : Files} {op : FileOp} (hop : s.FromStart op)
    (hsame : s.epoll.fd.Same s.uring.fd) :
    (s.epoll.perform op).1 = (s.uring.perform op).1 ∧
      (s.epoll.perform op).2.fd.Same (s.uring.perform op).2.fd := by
  cases op with
  | read n =>
    obtain ⟨hoffset, hn⟩ := hop
    have hreply : (Epoll.read s.epoll.fd n).1 = (Uring.read s.uring.fd n).1 := by
      rw [Epoll.read_fst, Uring.read_fst hn, hoffset, hsame.readAt]
    refine ⟨congrArg (Reply.ofResult _) hreply, ?_⟩
    show (Epoll.read s.epoll.fd n).2.Same (Uring.read s.uring.fd n).2
    rw [Uring.read_snd]
    exact (Epoll.read_snd s.epoll.fd n).trans hsame
  | write bytes =>
    obtain ⟨hoffset, hlen⟩ := hop
    obtain ⟨hcount, hwritten⟩ := hsame.writeAt 0 bytes
    have hreply : (Epoll.write s.epoll.fd bytes).1 = (Uring.write s.uring.fd bytes).1 := by
      rw [Epoll.write_fst, Uring.write_eq hlen, hoffset, hcount]
    have hkeep := Epoll.write_snd s.epoll.fd bytes
    rw [hoffset] at hkeep
    refine ⟨congrArg (Reply.ofResult _) hreply, ?_⟩
    show (Epoll.write s.epoll.fd bytes).2.Same (Uring.write s.uring.fd bytes).2
    rw [Uring.write_eq hlen]
    exact hkeep.trans hwritten
  | seek offset whence =>
    have hposition := hsame.lseek offset hop
    simp only [File.perform, File.seek_eq, hposition, true_and]
    rcases s.uring.fd.lseek offset whence with e | position
    · exact hsame
    · exact ⟨hsame.content, hsame.readable, hsame.writable⟩

/-! ## `read_to_end` -/

theorem drop_length_take {α : Type*} (k : ℕ) (l : List α) : l.drop (l.take k).length = l.drop k := by
  rw [List.length_take]
  rcases Nat.le_total k l.length with hle | hge
  · rw [Nat.min_eq_left hle]
  · rw [Nat.min_eq_right hge, List.drop_length, List.drop_eq_nil_of_le hge]

theorem Descriptor.readAt_cases (d : Descriptor) (position n : ℕ) :
    (∃ bytes, d.readable = true ∧ d.readAt position n = .ok bytes ∧
      bytes.val = (d.content.drop position).take (min n maxRwCount)) ∨
    d.readable = false ∧ d.readAt position n = .error ebadf := by
  unfold Descriptor.readAt
  by_cases hreadable : d.readable = true
  · rw [if_pos hreadable]
    exact Or.inl ⟨_, hreadable, rfl, rfl⟩
  · rw [if_neg hreadable]
    exact Or.inr ⟨by simpa using hreadable, rfl⟩

theorem Epoll.read_ok {d' : Descriptor} {bytes : Bytes n} (h : Epoll.read d n = (.ok bytes, d')) :
    d.readable = true ∧ bytes.val = (d.content.drop d.offset).take (min n Descriptor.maxRwCount) ∧
      d' = { d with offset := d.offset + bytes.val.length } := by
  unfold Epoll.read at h
  rcases d.readAt_cases d.offset n with ⟨bytes', hreadable, hread, hval⟩ | ⟨-, hread⟩
  · rw [hread] at h
    cases h
    exact ⟨hreadable, hval, rfl⟩
  · rw [hread] at h
    cases h

theorem Epoll.read_error {d' : Descriptor} {e : Error} (h : Epoll.read d n = (.error e, d')) :
    d' = d := by
  unfold Epoll.read at h
  rcases d.readAt_cases d.offset n with ⟨bytes', -, hread, -⟩ | ⟨-, hread⟩
  · rw [hread] at h
    cases h
  · rw [hread] at h
    cases h
    rfl

theorem File.read_epoll {f f' : File .epoll} {n : ℕ} {result : Result (Bytes n)}
    (h : Readable.read f n = (result, f')) : Epoll.read f.fd n = (result, f'.fd) := by
  cases h
  rfl

/-- Consecutive reads of an `epoll::File` return consecutive parts of the file. -/
instance : Streaming (File .epoll) where
  stream f := f.fd.content.drop f.fd.offset
  stream_ok h := by
    obtain ⟨-, hbytes, hfd⟩ := Epoll.read_ok (File.read_epoll h)
    rw [hfd, ← List.drop_drop, hbytes, drop_length_take, List.take_append_drop]
  stream_error h := by
    rw [Epoll.read_error (File.read_epoll h)]
  stream_end hn h hnil := by
    obtain ⟨-, hbytes, -⟩ := Epoll.read_ok (File.read_epoll h)
    rw [hbytes, List.take_eq_nil_iff] at hnil
    have : 0 < Descriptor.maxRwCount := by decide
    exact hnil.resolve_left (by omega)

theorem epoll_readToEnd (hreadable : d.readable = true) :
    ∃ rounds r, BufferReader.readToEnd rounds [] (.new (⟨d⟩ : File .epoll)) =
      some (.returned (d.content.drop d.offset) r) := by
  have hok : ∀ f : File .epoll, f.fd.readable = true → ∃ bytes f',
      Readable.read f defaultBufferSize = (.ok bytes, f') ∧ f'.fd.readable = true := by
    intro f hf
    rcases f.fd.readAt_cases f.fd.offset defaultBufferSize with ⟨bytes, -, hread, -⟩ | ⟨hno, -⟩
    · have hfst := Epoll.read_fst f.fd defaultBufferSize
      rw [hread] at hfst
      exact ⟨bytes, (Readable.read f defaultBufferSize).2, Prod.ext hfst rfl,
        (Epoll.read_snd f.fd defaultBufferSize).readable.trans hf⟩
    · rw [hf] at hno
      cases hno
  have hremaining : (BufferReader.new (⟨d⟩ : File .epoll)).remaining = d.content.drop d.offset := by
    rw [BufferReader.remaining, BufferReader.buffered_eq_nil rfl, List.nil_append]
    rfl
  obtain ⟨r, hr, -⟩ := BufferReader.readToEnd_returns hok
    (r := .new (⟨d⟩ : File .epoll)) hreadable [] (Nat.lt_succ_self _)
  rw [hremaining, List.nil_append] at hr
  exact ⟨_, r, hr⟩

/-- `uring::File` reads the start of the file each time. -/
theorem uring_read {f : File .uring} (hreadable : f.fd.readable = true) :
    ∃ bytes, Readable.read f defaultBufferSize = (.ok bytes, f) ∧
      bytes.val = f.fd.content.take defaultBufferSize := by
  have hfst := Uring.read_fst (by decide : defaultBufferSize < 2 ^ 32) f.fd
  have hsnd := Uring.read_snd f.fd defaultBufferSize
  rcases f.fd.readAt_cases 0 defaultBufferSize with ⟨bytes, -, hread, hval⟩ | ⟨hno, -⟩
  · rw [hread] at hfst
    refine ⟨bytes, Prod.ext hfst (congrArg File.mk hsnd), ?_⟩
    rw [hval, List.drop_zero, Nat.min_eq_left (by decide)]
  · rw [hreadable] at hno
    cases hno

/-- `read_to_end` over a `uring::File` does not return unless the file is empty. -/
theorem uring_readToEnd_none {r : BufferReader (File .uring)} (hempty : r.pos = r.cap)
    (hreadable : r.innerReader.fd.readable = true) (hcontent : r.innerReader.fd.content ≠ [])
    (rounds : ℕ) (content : List UInt8) : BufferReader.readToEnd rounds content r = none := by
  induction rounds generalizing r content with
  | zero => rfl
  | succ rounds ih =>
    obtain ⟨bytes, hread, hval⟩ := uring_read hreadable
    have hlength : 0 ≠ bytes.val.length := by
      have hpos := List.length_pos_iff.mpr hcontent
      rw [hval, List.length_take, defaultBufferSize]
      omega
    rw [BufferReader.readToEnd, BufferReader.fillBuffer_of_read hempty hread]
    refine (if_neg hlength).trans ?_
    exact ih (r.refill bytes r.innerReader).consume_all_pos hreadable hcontent _

theorem uring_readToEnd_nil (hreadable : d.readable = true) (hcontent : d.content = []) :
    ∃ r, BufferReader.readToEnd 1 [] (.new (⟨d⟩ : File .uring)) = some (.returned [] r) := by
  obtain ⟨bytes, hread, hval⟩ := uring_read (f := ⟨d⟩) hreadable
  have hlength : 0 = bytes.val.length := by
    rw [hval, hcontent]
    rfl
  refine ⟨(BufferReader.new ⟨d⟩).refill bytes ⟨d⟩, ?_⟩
  rw [BufferReader.readToEnd, BufferReader.fillBuffer_of_read rfl hread]
  exact if_pos hlength

/-! ## Runs -/

/-- The two backends give the same replies and leave the same content, in every run that reads and
writes at the start of the file only. `read_to_end` over an `epoll::File` returns the rest of the
file, and over a `uring::File` it returns an empty file. -/
theorem backends_agree (d : Descriptor) :
    (∀ ops s, Along Files.step Files.FromStart (.start d) ops →
      run Files.step (.start d) ops = some s →
      s.epollReplies = s.uringReplies ∧ s.epoll.fd.content = s.uring.fd.content) ∧
    (d.readable = true →
      (∃ rounds r, BufferReader.readToEnd rounds [] (.new (⟨d⟩ : File .epoll)) =
        some (.returned (d.content.drop d.offset) r)) ∧
      (d.content = [] → ∃ rounds r, BufferReader.readToEnd rounds [] (.new (⟨d⟩ : File .uring)) =
        some (.returned d.content r))) := by
  refine ⟨?_, fun hreadable => ⟨epoll_readToEnd hreadable, fun hcontent => ?_⟩⟩
  · intro ops s hG hrun
    have hstep : ∀ (s : Files) (op : FileOp) (s' : Files),
        s.epollReplies = s.uringReplies ∧ s.epoll.fd.Same s.uring.fd → s.FromStart op →
        s.step op = some s' → s'.epollReplies = s'.uringReplies ∧ s'.epoll.fd.Same s'.uring.fd := by
      intro s op s' h hop hstep
      obtain ⟨hreply, hsame⟩ := perform_same hop h.2
      obtain rfl := Option.some.inj hstep
      refine ⟨?_, hsame⟩
      show s.epollReplies ++ _ = s.uringReplies ++ _
      rw [h.1, hreply]
    obtain ⟨hreplies, hsame⟩ := run_invariant_along
      (I := fun s => s.epollReplies = s.uringReplies ∧ s.epoll.fd.Same s.uring.fd)
      hstep ⟨rfl, rfl, rfl, rfl⟩ hG hrun
    exact ⟨hreplies, hsame.content⟩
  · obtain ⟨r, hr⟩ := uring_readToEnd_nil hreadable hcontent
    exact ⟨1, r, by rw [hr, hcontent]⟩

/-- A file of four bytes, open for reading and writing. -/
def fourBytes : Descriptor := ⟨[97, 98, 99, 100], 0, true, true⟩

theorem backends_agree_four_bytes :
    ∃ s, run Files.step (.start fourBytes)
        [.read 2, .seek 0 .set, .write [120, 121], .seek (-1) .fromEnd, .seek 0 .set, .read 4] =
          some s ∧
      s.uringReplies = [.bytes [97, 98], .position 0, .written 2, .position 3, .position 0,
        .bytes [120, 121, 99, 100]] ∧
      s.epollReplies = s.uringReplies ∧ s.epoll.fd.content = s.uring.fd.content := by
  have hcalls : ∃ s, run Files.step (.start fourBytes)
      [.read 2, .seek 0 .set, .write [120, 121], .seek (-1) .fromEnd, .seek 0 .set, .read 4] =
        some s ∧
      s.uringReplies = [.bytes [97, 98], .position 0, .written 2, .position 3, .position 0,
        .bytes [120, 121, 99, 100]] := exists_run (by decide)
  obtain ⟨s, hrun, hreplies⟩ := hcalls
  exact ⟨s, hrun, hreplies, (backends_agree fourBytes).1 _ s (by decide) hrun⟩

/-- The second of two reads gets the first bytes again from a `uring::File`, and `read_to_end` over
it does not return. -/
theorem uring_reads_start_again :
    (∃ s, run Files.step (.start fourBytes) [.read 2, .read 2] = some s ∧
      s.epollReplies = [.bytes [97, 98], .bytes [99, 100]] ∧
      s.uringReplies = [.bytes [97, 98], .bytes [97, 98]]) ∧
    ∀ rounds, BufferReader.readToEnd rounds [] (.new (⟨fourBytes⟩ : File .uring)) = none :=
  ⟨exists_run (by decide), fun rounds => uring_readToEnd_none rfl rfl (by decide) rounds []⟩

end Xyco.Fs
