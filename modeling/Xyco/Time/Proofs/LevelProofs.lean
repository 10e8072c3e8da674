import Mathlib.Tactic.Abel
import Xyco.Time.Layout

/-!
# Proofs: the primitives of a level (`next`, `advance`, `takeSlots`)
-/

namespace Xyco.Time

open Level (slotNum)

theorem slotNum_pos : 0 < slotNum := by decide

/-! ## Bags of events -/

/-- Changing one summand of a sum. -/
theorem sum_update_add {ι α M : Type*} [Fintype ι] [DecidableEq ι] [AddCommMonoid M] (g : α → M)
    (f : ι → α) (i : ι) (x : α) :
    ∑ j, g (Function.update f i x j) + g (f i) = ∑ j, g (f j) + g x := by
  have hf : g (f i) + ∑ j ∈ Finset.univ.erase i, g (f j) = ∑ j, g (f j) :=
    Finset.add_sum_erase _ (fun j => g (f j)) (Finset.mem_univ i)
  have hu := Finset.add_sum_erase _ (fun j => g (Function.update f i x j)) (Finset.mem_univ i)
  have hrest : ∑ j ∈ Finset.univ.erase i, g (Function.update f i x j) =
      ∑ j ∈ Finset.univ.erase i, g (f j) :=
    Finset.sum_congr rfl fun j hj => by rw [Function.update_of_ne (Finset.ne_of_mem_erase hj)]
  rw [Function.update_self, hrest] at hu
  rw [← hf, ← hu]
  abel

namespace Level

theorem mem_stored {l : Level} {e : Event} : e ∈ l.stored ↔ ∃ s, e ∈ l.events s := by
  unfold stored
  simp only [Multiset.mem_sum, Finset.mem_univ, true_and, Multiset.mem_coe]

theorem stored_clear (l : Level) (it : Fin slotNum) :
    (l.clear it).stored + (l.events it : Multiset Event) = l.stored := by
  have := sum_update_add (fun es : List Event => (es : Multiset Event)) l.events it []
  rw [Multiset.coe_nil, add_zero] at this
  unfold stored clear
  exact this

theorem stored_pushBack (l : Level) (it : Fin slotNum) (e : Event) :
    (l.pushBack it e).stored = l.stored + {e} := by
  have := sum_update_add (fun es : List Event => (es : Multiset Event)) l.events it
    (l.events it ++ [e])
  rw [← Multiset.coe_add, ← add_assoc, add_right_comm] at this
  unfold stored pushBack
  exact add_right_cancel this

@[simp] theorem clear_currentIt (l : Level) (it : Fin slotNum) :
    (l.clear it).currentIt = l.currentIt := rfl

@[simp] theorem pushBack_currentIt (l : Level) (it : Fin slotNum) (e : Event) :
    (l.pushBack it e).currentIt = l.currentIt := rfl

@[simp] theorem clear_self (l : Level) (it : Fin slotNum) : (l.clear it).events it = [] := by
  simp [clear]

theorem clear_of_ne (l : Level) {it s : Fin slotNum} (h : s ≠ it) :
    (l.clear it).events s = l.events s := by
  simp [clear, Function.update_of_ne h]

/-! ## Iterators -/

/-- The slot reached from `it` by `k` single steps. -/
def rotate (it : Fin slotNum) (k : ℕ) : Fin slotNum := ⟨(it.val + k) % slotNum, Nat.mod_lt _ slotNum_pos⟩

@[simp] theorem rotate_zero (it : Fin slotNum) : rotate it 0 = it :=
  Fin.ext (Nat.mod_eq_of_lt it.isLt)

theorem rotate_next (it : Fin slotNum) (k : ℕ) : rotate (next it) k = rotate it (k + 1) := by
  have hlt := it.isLt
  apply Fin.ext
  unfold rotate next
  split_ifs with h
  · simp only; congr 1; omega
  · have hit : it.val + 1 = slotNum := by omega
    have hsum : it.val + (k + 1) = k + slotNum := by omega
    simp [hsum]

theorem rotate_slotNum (it : Fin slotNum) : rotate it slotNum = it := by
  apply Fin.ext
  simp [rotate, Nat.mod_eq_of_lt it.isLt]

theorem advance_eq_rotate (it steps : Fin slotNum) : advance it steps = rotate it steps := by
  have h1 := it.isLt
  have h2 := steps.isLt
  apply Fin.ext
  unfold advance rotate
  split_ifs with h
  · simp only
    have hge : slotNum ≤ it.val + steps.val := by unfold distance at h; omega
    rw [Nat.mod_eq_sub_mod hge, Nat.mod_eq_of_lt (by omega)]
  · unfold distance at h
    exact (Nat.mod_eq_of_lt (by omega)).symm

/-! ## `takeSlots` -/

/-- `takeSlots` only appends to its vector. -/
theorem takeSlots_append (n : ℕ) (l : Level) (it : Fin slotNum) (events : List Event) :
    l.takeSlots n it events =
      ((l.takeSlots n it []).1, events ++ (l.takeSlots n it []).2.1, (l.takeSlots n it []).2.2) := by
  induction n generalizing l it events with
  | zero => simp [takeSlots]
  | succ n ih =>
    rw [takeSlots, takeSlots, ih _ _ (events ++ l.events it), ih _ _ ([] ++ l.events it)]
    simp

/-- What `takeSlots` does: it empties the `n` slots from `it` on, and `new` is what they held. -/
structure TakeRes (l : Level) (it : Fin slotNum) (n : ℕ) (l' : Level) (new : List Event) : Prop where
  currentIt : l'.currentIt = l.currentIt
  taken : ∀ k < n, l'.events (rotate it k) = []
  kept : ∀ s, (∀ k < n, s ≠ rotate it k) → l'.events s = l.events s
  stored : l'.stored + new = l.stored
  out : ∀ e ∈ new, ∃ k < n, e ∈ l.events (rotate it k)

/-- A slot is cleared or left alone. -/
theorem TakeRes.events_sub {l l' : Level} {it s : Fin slotNum} {n : ℕ} {new : List Event} {e : Event}
    (h : TakeRes l it n l' new) (he : e ∈ l'.events s) :
    e ∈ l.events s ∧ ∀ k < n, s ≠ rotate it k := by
  have hne : ∀ k < n, s ≠ rotate it k := by
    rintro k hk rfl
    rw [h.taken k hk] at he
    exact absurd he List.not_mem_nil
  exact ⟨h.kept s hne ▸ he, hne⟩

theorem takeSlots_spec (n : ℕ) : ∀ (l : Level) (it : Fin slotNum) (events : List Event),
    ∃ l' new, l.takeSlots n it events = (l', events ++ new, rotate it n) ∧ TakeRes l it n l' new := by
  induction n with
  | zero =>
    intro l it events
    exact ⟨l, [], by simp [takeSlots], rfl, fun k hk => absurd hk (by omega), fun s _ => rfl,
      by simp, by simp⟩
  | succ n ih =>
    intro l it events
    obtain ⟨l', new, hrun, h⟩ := ih (l.clear it) (next it) (events ++ l.events it)
    -- a slot passed twice is empty the second time, so what is emptied stays empty
    have hit : l'.events it = [] := by
      by_cases hr : ∃ k < n, it = rotate (next it) k
      · obtain ⟨k, hk, hrk⟩ := hr
        have := h.taken k hk
        rwa [← hrk] at this
      · rw [h.kept it fun k hk hs => hr ⟨k, hk, hs⟩, clear_self]
    refine ⟨l', l.events it ++ new, ?_, h.currentIt, fun k hk => ?_, fun s hs => ?_, ?_, fun e he => ?_⟩
    · rw [takeSlots, hrun, rotate_next, List.append_assoc]
    · cases k with
      | zero => rwa [rotate_zero]
      | succ k =>
        rw [← rotate_next]
        exact h.taken k (by omega)
    · have hsit : s ≠ it := by
        have := hs 0 (by omega)
        rwa [rotate_zero] at this
      rw [← clear_of_ne l hsit]
      refine h.kept s fun k hk => ?_
      rw [rotate_next]
      exact hs (k + 1) (by omega)
    · rw [← stored_clear l it, ← h.stored, ← Multiset.coe_add]
      abel
    · rcases List.mem_append.mp he with he | he
      · exact ⟨0, by omega, by rwa [rotate_zero]⟩
      · obtain ⟨k, hk, hek⟩ := h.out e he
        refine ⟨k + 1, by omega, ?_⟩
        rw [← rotate_next]
        by_cases hs : rotate (next it) k = it
        · rw [hs, clear_self] at hek
          exact absurd hek List.not_mem_nil
        · rwa [clear_of_ne l hs] at hek

end Level

end Xyco.Time
