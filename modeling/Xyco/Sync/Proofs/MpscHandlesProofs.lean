import Xyco.Sync.MpscHandles
import Xyco.Sync.Proofs.MpscStepProofs

/-!
# Proofs: when `state_` says that all `Sender`s are gone
-/

namespace Xyco.Sync.Mpsc.Handles

open Machine Table

variable {h h' : Handles} {op : HandleOp} {ops : List HandleOp} {i ch : ℕ} {shared : Option ℕ}

theorem onLive_eq_some {next : Option ℕ → Option Handles} (hstep : h.onLive i next = some h') :
    ∃ shared, h.senders[i]? = some (.live shared) ∧ next shared = some h' := by
  unfold onLive at hstep
  split at hstep
  · rename_i shared hi
    exact ⟨shared, hi, hstep⟩
  · cases hstep

theorem liveChannel_eq (hi : h.senders[i]? = some (.live shared)) : h.liveChannel i = shared := by
  rw [liveChannel, hi]

/-! ## Counting references -/

theorem liveRefs_pos (hi : h.senders[i]? = some (.live (some ch))) : 0 < liveRefs h.senders ch :=
  List.countP_pos_iff.mpr ⟨_, List.mem_of_getElem? hi, by simp⟩

theorem liveRefs_le_refs (senders : List SenderObject) (ch : ℕ) :
    liveRefs senders ch ≤ refs senders ch := by
  apply List.countP_mono_left
  intro s _ hs
  simp only [decide_eq_true_eq] at hs ⊢
  rw [hs]
  rfl

/-- The live references after an object is replaced. -/
theorem liveRefs_set {senders : List SenderObject} {s : SenderObject} (hi : senders[i]? = some s)
    (s' : SenderObject) (ch : ℕ) :
    liveRefs (senders.set i s') ch + (if s = .live (some ch) then 1 else 0) =
      liveRefs senders ch + if s' = .live (some ch) then 1 else 0 := by
  have hcount := countP_set hi (fun s => decide (s = .live (some ch))) s'
  simp only [decide_eq_true_eq] at hcount
  exact hcount

theorem liveRefs_concat (senders : List SenderObject) (s : SenderObject) (ch : ℕ) :
    liveRefs (senders ++ [s]) ch = liveRefs senders ch + if s = .live (some ch) then 1 else 0 := by
  simp [liveRefs, List.countP_append, List.countP_singleton]

theorem refs_eq_liveRefs (hquiet : h.quiescent = true) (ch : ℕ) :
    refs h.senders ch = liveRefs h.senders ch := by
  apply List.countP_congr
  intro s hs
  have hs := List.all_eq_true.mp hquiet s hs
  cases s with
  | live shared =>
    simp only [SenderObject.shared, SenderObject.live.injEq, decide_eq_true_eq]
    exact decide_eq_true_iff
  | closing shared => cases hs
  | destroyed => simp [SenderObject.shared]

/-! ## The invariant -/

/-- `state_` counts the references of the objects that are not being destroyed. -/
structure Exact (h : Handles) : Prop where
  known : ∀ s ∈ h.senders, ∀ ch, s.shared = some ch → ch < h.channels.length
  state : ∀ (ch : ℕ) (state : ChannelState), h.channels[ch]? = some state →
    state ≠ .receiverClosed ∧ (state = .senderClosed ↔ liveRefs h.senders ch = 0)

theorem exact_new : Exact new := by
  constructor
  · intro s hs
    cases hs
  · intro ch state hch
    cases hch

/-- An operation that leaves `state_` alone, and no channel without a live reference that had one. -/
theorem Exact.congr (hx : Exact h) {senders : List SenderObject}
    (hknown : ∀ s ∈ senders, ∀ ch, s.shared = some ch → ch < h.channels.length)
    (hlive : ∀ ch, liveRefs senders ch = 0 ↔ liveRefs h.senders ch = 0) :
    Exact ⟨h.channels, senders⟩ := by
  refine ⟨hknown, ?_⟩
  intro ch state hch
  rw [hlive]
  exact hx.state ch state hch

theorem Exact.known_live (hx : Exact h) (hi : h.senders[i]? = some (.live shared)) :
    ∀ ch, shared = some ch → ch < h.channels.length :=
  hx.known _ (List.mem_of_getElem? hi)

theorem Exact.channel (hx : Exact h) :
    Exact ⟨h.channels ++ [.opened], h.senders ++ [.live (some h.channels.length)]⟩ := by
  constructor
  · intro s hs ch hch
    rw [List.length_append]
    rcases List.mem_append.mp hs with hs | hs
    · exact Nat.lt_succ_of_lt (hx.known s hs ch hch)
    · obtain rfl := List.mem_singleton.mp hs
      obtain rfl := Option.some.inj hch
      exact Nat.lt_succ_self _
  · refine forall_concat ?_ ?_
    · intro ch state hch
      obtain ⟨hlt, -⟩ := List.getElem?_eq_some_iff.mp hch
      obtain ⟨hopen, hiff⟩ := hx.state ch state hch
      refine ⟨hopen, ?_⟩
      rw [liveRefs_concat, if_neg (by simp; omega)]
      exact hiff
    · refine ⟨by simp, ?_⟩
      rw [liveRefs_concat, if_pos rfl]
      simp

theorem Exact.copyConstruct (hx : Exact h) (hi : h.senders[i]? = some (.live shared)) :
    Exact ⟨h.channels, h.senders ++ [.live shared]⟩ := by
  refine hx.congr (forall_mem_concat hx.known (hx.known_live hi)) ?_
  intro ch
  rw [liveRefs_concat]
  split
  · rename_i hs
    have := liveRefs_pos (hs ▸ hi)
    omega
  · exact Iff.rfl

theorem Exact.moveConstruct (hx : Exact h) (hi : h.senders[i]? = some (.live shared)) :
    Exact ⟨h.channels, h.senders.set i (.live none) ++ [.live shared]⟩ := by
  refine hx.congr (forall_mem_concat (forall_mem_set hx.known ?_) (hx.known_live hi)) ?_
  · intro ch hch
    cases hch
  · intro ch
    have hset := liveRefs_set hi (.live none) ch
    rw [if_neg (by simp : ¬ SenderObject.live none = .live (some ch)), Nat.add_zero] at hset
    rw [liveRefs_concat, hset]

theorem Exact.copyAssign (hx : Exact h) {j : ℕ} {old : Option ℕ}
    (hi : h.senders[i]? = some (.live old)) (hj : h.senders[j]? = some (.live shared))
    (hlast : h.LastCloses (.copyAssign i j)) :
    Exact ⟨h.channels, h.senders.set i (.live shared)⟩ := by
  refine hx.congr (forall_mem_set hx.known (hx.known_live hj)) ?_
  intro ch
  have hset := liveRefs_set hi (.live shared) ch
  by_cases hnew : SenderObject.live shared = .live (some ch)
  · have hpos := liveRefs_pos (hnew ▸ hj)
    rw [if_pos hnew] at hset
    split at hset <;> omega
  · rw [if_neg hnew] at hset
    split at hset
    · rename_i hold
      have hne : h.liveChannel j ≠ some ch := by
        rw [liveChannel_eq hj]
        rintro rfl
        exact hnew rfl
      have hlt := hlast ch (liveChannel_eq (hold ▸ hi)) hne
      omega
    · omega

theorem Exact.moveAssign (hx : Exact h) {j : ℕ} {old : Option ℕ}
    (hi : h.senders[i]? = some (.live old)) (hj : h.senders[j]? = some (.live shared)) (hij : i ≠ j)
    (hlast : h.LastCloses (.moveAssign i j)) :
    Exact ⟨h.channels, (h.senders.set i (.live shared)).set j (.live none)⟩ := by
  refine hx.congr (forall_mem_set (forall_mem_set hx.known (hx.known_live hj)) ?_) ?_
  · intro ch hch
    cases hch
  · intro ch
    have hj' : (h.senders.set i (.live shared))[j]? = some (.live shared) := by
      rw [get_set hi, if_neg (Ne.symm hij)]
      exact hj
    have hset := liveRefs_set hi (.live shared) ch
    have hset' := liveRefs_set hj' (.live none) ch
    rw [if_neg (by simp : ¬ SenderObject.live none = .live (some ch)), Nat.add_zero] at hset'
    by_cases hold : SenderObject.live old = .live (some ch)
    · have hlt := hlast ch (liveChannel_eq (hold ▸ hi)) hij
      rw [if_pos hold] at hset
      omega
    · rw [if_neg hold] at hset
      omega

theorem Exact.close (hx : Exact h) (hi : h.senders[i]? = some (.live shared))
    (hlast : h.LastCloses (.close i)) :
    Exact ⟨h.closeChannel shared, h.senders.set i (.closing shared)⟩ := by
  cases shared with
  | none =>
    refine hx.congr (forall_mem_set hx.known ?_) ?_
    · intro ch hch
      cases hch
    · intro ch
      have hset := liveRefs_set hi (.closing none) ch
      rw [if_neg (by simp), if_neg (by simp), Nat.add_zero, Nat.add_zero] at hset
      rw [hset]
  | some own =>
    have hlive := liveRefs_pos hi
    have hle := liveRefs_le_refs h.senders own
    constructor
    · show ∀ s ∈ h.senders.set i _, ∀ ch, _ → ch < (h.channels.modify own _).length
      rw [List.length_modify]
      exact forall_mem_set hx.known (hx.known_live hi)
    · intro ch state hch
      have hset := liveRefs_set hi (.closing (some own)) ch
      rw [if_neg (by simp : ¬ SenderObject.closing (some own) = .live (some ch)), Nat.add_zero] at hset
      obtain ⟨old, hold, rfl⟩ : ∃ old, h.channels[ch]? = some old ∧
          (if own = ch then old.closeSender (h.useCount own) else old) = state := by
        rw [closeChannel, List.getElem?_modify] at hch
        exact Option.map_eq_some_iff.mp hch
      obtain ⟨hopen, hiff⟩ := hx.state ch old hold
      show _ ∧ (_ ↔ liveRefs (h.senders.set i _) ch = 0)
      by_cases hown : own = ch
      · subst hown
        rw [if_pos rfl] at hset
        rw [if_pos rfl, useCount, ChannelState.closeSender_succ hopen]
        split
        · refine ⟨by simp, ?_⟩
          simp only [true_iff]
          omega
        · rename_i hrefs
          have hmany : liveRefs h.senders own ≠ 1 := fun h1 =>
            hrefs (hlast own (liveChannel_eq hi) h1)
          refine ⟨hopen, ?_⟩
          rw [hiff]
          omega
      · rw [if_neg (by simpa using hown), Nat.add_zero] at hset
        rw [if_neg hown, hset]
        exact ⟨hopen, hiff⟩

theorem Exact.release (hx : Exact h) (hi : h.senders[i]? = some (.closing shared)) :
    Exact ⟨h.channels, h.senders.set i .destroyed⟩ := by
  refine hx.congr (forall_mem_set hx.known ?_) ?_
  · intro ch hch
    cases hch
  · intro ch
    have hset := liveRefs_set hi .destroyed ch
    rw [if_neg (by simp), if_neg (by simp), Nat.add_zero, Nat.add_zero] at hset
    rw [hset]

theorem step_exact (hx : Exact h) (hlast : h.LastCloses op) (hstep : h.step op = some h') :
    Exact h' := by
  cases op with
  | channel =>
    obtain rfl := Option.some.inj hstep
    exact hx.channel
  | copyConstruct i =>
    obtain ⟨shared, hi, hnext⟩ := onLive_eq_some hstep
    obtain rfl := Option.some.inj hnext
    exact hx.copyConstruct hi
  | moveConstruct i =>
    obtain ⟨shared, hi, hnext⟩ := onLive_eq_some hstep
    obtain rfl := Option.some.inj hnext
    exact hx.moveConstruct hi
  | copyAssign i j =>
    obtain ⟨old, hi, hnext⟩ := onLive_eq_some hstep
    obtain ⟨shared, hj, hnext⟩ := onLive_eq_some hnext
    obtain rfl := Option.some.inj hnext
    exact hx.copyAssign hi hj hlast
  | moveAssign i j =>
    obtain ⟨old, hi, hnext⟩ := onLive_eq_some hstep
    obtain ⟨shared, hj, hnext⟩ := onLive_eq_some hnext
    split at hnext
    · obtain rfl := Option.some.inj hnext
      exact hx
    · rename_i hij
      obtain rfl := Option.some.inj hnext
      exact hx.moveAssign hi hj hij hlast
  | close i =>
    obtain ⟨shared, hi, hnext⟩ := onLive_eq_some hstep
    obtain rfl := Option.some.inj hnext
    exact hx.close hi hlast
  | release i =>
    simp only [step] at hstep
    split at hstep
    · rename_i shared hi
      obtain rfl := Option.some.inj hstep
      exact hx.release hi
    · cases hstep

/-- In every run in which the last reference to a channel always goes by a destruction, and none of
whose destructions overlaps that last one: whenever no operation is in progress, `state_` is
`sender_closed` exactly if no `Sender` references the channel. -/
theorem sender_closed_exact (hrun : run step new ops = some h)
    (hlast : Along step LastCloses new ops) (hquiet : h.quiescent = true) : h.ClosedExactly := by
  have hx : Exact h :=
    run_invariant_along (fun _ _ _ hx hl hs => step_exact hx hl hs) exact_new hlast hrun
  intro ch state hch
  rw [refs_eq_liveRefs hquiet]
  exact (hx.state ch state hch).2

theorem sender_closed_exact_run :
    ∃ h, run step new [.channel, .copyConstruct 0, .close 0, .release 0, .close 1, .release 1] =
        some h ∧ h.channels = [.senderClosed] ∧ h.ClosedExactly := by
  obtain ⟨h, hrun, hchannels, hquiet⟩ : ∃ h, run step new [.channel, .copyConstruct 0, .close 0,
      .release 0, .close 1, .release 1] = some h ∧
      h.channels = [.senderClosed] ∧ h.quiescent = true :=
    exists_run (by decide)
  exact ⟨h, hrun, hchannels, sender_closed_exact hrun (by decide) hquiet⟩

theorem not_closedExactly {state : ChannelState} (hch : h.channels[ch]? = some state)
    (hstate : state ≠ .senderClosed) (hrefs : refs h.senders ch = 0) : ¬ h.ClosedExactly :=
  fun hx => hstate ((hx ch state hch).mpr hrefs)

/-- Two destructions whose bodies both run before either reference is released. -/
def overlappingDrops : List HandleOp :=
  [.channel, .copyConstruct 0, .close 0, .close 1, .release 0, .release 1]

/-- An assignment over the last `Sender` of the first of two channels. -/
def assignedOver : List HandleOp := [.channel, .channel, .copyAssign 0 1]

/-- Two ways to lose the end of a channel. -/
theorem sender_close_missed :
    (∃ h, run step new overlappingDrops = some h ∧ h.quiescent = true ∧ ¬ h.ClosedExactly) ∧
    ∃ h, run step new assignedOver = some h ∧ h.quiescent = true ∧ ¬ h.ClosedExactly := by
  constructor
  · obtain ⟨h, hrun, hquiet, hch, hrefs⟩ : ∃ h, run step new overlappingDrops = some h ∧
        h.quiescent = true ∧ h.channels[0]? = some .opened ∧ refs h.senders 0 = 0 :=
      exists_run (by decide)
    exact ⟨h, hrun, hquiet, not_closedExactly hch (by simp) hrefs⟩
  · obtain ⟨h, hrun, hquiet, hch, hrefs⟩ : ∃ h, run step new assignedOver = some h ∧
        h.quiescent = true ∧ h.channels[0]? = some .opened ∧ refs h.senders 0 = 0 :=
      exists_run (by decide)
    exact ⟨h, hrun, hquiet, not_closedExactly hch (by simp) hrefs⟩

end Xyco.Sync.Mpsc.Handles
