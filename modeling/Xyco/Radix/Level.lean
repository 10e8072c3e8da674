import Mathlib.Algebra.Order.Group.Nat
import Mathlib.Algebra.Order.Ring.Nat
import Mathlib.Data.List.GetD
import Mathlib.Tactic.Ring

/-!
# Levels of a positional number system

In base `b`, level `L` cuts the natural numbers into blocks of `b ^ L` numbers, and a block of level
`L + 1` into `b` slots of `b ^ L` numbers each. This is the arithmetic of an odometer: moving from
`m` to `n` turns the wheels up to the highest level at which the two lie in different blocks, and a
slot is passed when its last number is.
-/

namespace Xyco.Radix

variable {b m n T T' P L L' s : ℕ}

/-- `m` and `n` lie in the same block of level `L`. -/
def SameBlock (b L m n : ℕ) : Prop := m / b ^ L = n / b ^ L

/-- The digit of `n` at level `L`: the slot of level `L` that `n` lies in. -/
def digit (b n L : ℕ) : ℕ := n / b ^ L % b

/-- The first number of slot `s` of level `L`, in the block of `T`. The slot ends where the next one
starts. -/
def slotStart (b T L s : ℕ) : ℕ := T / b ^ (L + 1) * b ^ (L + 1) + s * b ^ L

/-- `L` is the highest level at which `m` and `n` lie in different blocks, or 0 if `m = n`. -/
structure TopLevel (b m n L : ℕ) : Prop where
  same : SameBlock b (L + 1) m n
  differ : L = 0 ∨ ¬ SameBlock b L m n

/-- What adding `d` to `T` level by level does: `ds` has the steps of every level that moves. -/
structure CarrySteps (b T d : ℕ) (ds : List ℕ) : Prop where
  same : SameBlock b ds.length T (T + d)
  differ : ∀ i < ds.length, ¬ SameBlock b i T (T + d)
  steps : ∀ i (h : i < ds.length), ds[i] = ((T + d) / b ^ i - T / b ^ i) % b

/-! ## Blocks -/

theorem sameBlock_succ_iff : SameBlock b (L + 1) m n ↔ SameBlock b L (m / b) (n / b) := by
  simp only [SameBlock, Nat.div_div_eq_div_mul, pow_succ']

theorem SameBlock.mono (h : SameBlock b L m n) (hL : L ≤ L') : SameBlock b L' m n := by
  obtain ⟨k, rfl⟩ := Nat.exists_eq_add_of_le hL
  unfold SameBlock at h ⊢
  rw [pow_add, ← Nat.div_div_eq_div_mul, ← Nat.div_div_eq_div_mul, h]

theorem digit_zero_level (b n : ℕ) : digit b n 0 = n % b := by simp [digit]

theorem digit_succ (b n L : ℕ) : digit b n (L + 1) = digit b (n / b) L := by
  simp only [digit, Nat.div_div_eq_div_mul, pow_succ']

theorem SameBlock.digit_eq (h : SameBlock b L m n) : digit b m L = digit b n L := by
  unfold digit; rw [h]

/-- A number `n` of the block of `m` above, with the same digit, lies in the same block below. -/
theorem SameBlock.of_digit_eq (h : SameBlock b (L + 1) m n) (hd : digit b m L = digit b n L) :
    SameBlock b L m n := by
  unfold SameBlock digit at *
  rw [pow_succ, ← Nat.div_div_eq_div_mul, ← Nat.div_div_eq_div_mul] at h
  rw [← Nat.div_add_mod (m / b ^ L) b, ← Nat.div_add_mod (n / b ^ L) b, h, hd]

/-- Within a block the digits below are ordered as the numbers are. -/
theorem SameBlock.digit_le (h : SameBlock b (L + 1) m n) (hmn : m ≤ n) :
    digit b m L ≤ digit b n L := by
  unfold SameBlock digit at *
  rw [pow_succ, ← Nat.div_div_eq_div_mul, ← Nat.div_div_eq_div_mul] at h
  have hdiv : m / b ^ L ≤ n / b ^ L := Nat.div_le_div_right hmn
  rw [← Nat.div_add_mod (m / b ^ L) b, ← Nat.div_add_mod (n / b ^ L) b, h] at hdiv
  exact Nat.le_of_add_le_add_left hdiv

/-! ## Slots -/

theorem slotStart_congr (h : SameBlock b (L + 1) T T') : slotStart b T L s = slotStart b T' L s := by
  unfold slotStart; rw [h]

theorem slotStart_mono (hs : m ≤ n) : slotStart b T L m ≤ slotStart b T L n :=
  Nat.add_le_add_left (Nat.mul_le_mul_right _ hs) _

/-- A number is where its slot starts, plus its place in the slot. -/
theorem slotStart_digit (h : SameBlock b (L + 1) T P) :
    slotStart b T L (digit b P L) + P % b ^ L = P := by
  have hblock : P / b ^ (L + 1) * b ^ (L + 1) + P % b ^ (L + 1) = P := Nat.div_add_mod' _ _
  have hmod : P % b ^ (L + 1) = P % b ^ L + b ^ L * (P / b ^ L % b) := Nat.mod_pow_succ
  have hcomm : P / b ^ L % b * b ^ L = b ^ L * (P / b ^ L % b) := Nat.mul_comm _ _
  unfold slotStart digit
  rw [h]
  omega

theorem slotStart_digit_le (h : SameBlock b (L + 1) T P) : slotStart b T L (digit b P L) ≤ P :=
  Nat.le.intro (slotStart_digit h)

theorem lt_slotStart_digit_succ (hb : 0 < b) (h : SameBlock b (L + 1) T P) :
    P < slotStart b T L (digit b P L + 1) := by
  have heq := slotStart_digit h
  have hlt : P % b ^ L < b ^ L := Nat.mod_lt _ (Nat.pow_pos hb)
  have hsucc : slotStart b T L (digit b P L + 1) = slotStart b T L (digit b P L) + b ^ L := by
    unfold slotStart; ring
  omega

/-- A slot of a later digit starts after `T`. -/
theorem lt_slotStart (hb : 0 < b) (hs : digit b T L < s) : T < slotStart b T L s :=
  lt_of_lt_of_le (lt_slotStart_digit_succ hb rfl) (slotStart_mono hs)

/-- A slot of an earlier digit is over at `T'`. -/
theorem slotEnd_le_of_lt_digit (h : SameBlock b (L + 1) T T') (hs : s < digit b T' L) :
    slotStart b T L (s + 1) ≤ T' :=
  (slotStart_mono hs).trans (slotStart_digit_le h)

/-- Every slot of a block that `T'` has left is over at `T'`. -/
theorem slotEnd_le_of_differ (hT : T ≤ T') (h : ¬ SameBlock b (L + 1) T T') (hs : s < b) :
    slotStart b T L (s + 1) ≤ T' := by
  have hle : T / b ^ (L + 1) ≤ T' / b ^ (L + 1) := Nat.div_le_div_right hT
  have hlt : T / b ^ (L + 1) + 1 ≤ T' / b ^ (L + 1) := lt_of_le_of_ne hle h
  calc slotStart b T L (s + 1) ≤ slotStart b T L b := slotStart_mono hs
    _ = (T / b ^ (L + 1) + 1) * b ^ (L + 1) := by unfold slotStart; ring
    _ ≤ T' / b ^ (L + 1) * b ^ (L + 1) := Nat.mul_le_mul_right _ hlt
    _ ≤ T' := Nat.div_mul_le_self _ _

/-! ## Carrying -/

/-- One level of an addition: what is left for the next level is the quotient and a carry. -/
theorem add_div_carry (hb : 0 < b) (T d : ℕ) :
    (T + d) / b = T / b + (d / b + if b - T % b ≤ d % b then 1 else 0) := by
  have hlt : T % b < b := Nat.mod_lt _ hb
  rw [Nat.add_div hb, Nat.add_assoc]
  congr 2
  by_cases h : b ≤ T % b + d % b
  · rw [if_pos h, if_pos (by omega)]
  · rw [if_neg h, if_neg (by omega)]

theorem CarrySteps.nil (b T : ℕ) : CarrySteps b T 0 [] :=
  ⟨rfl, fun i hi => absurd hi (by simp), fun i hi => absurd hi (by simp)⟩

/-- The steps of the levels from 1 on are those of the quotients. -/
theorem CarrySteps.cons (hd : 0 < n) {d' : ℕ} {ds : List ℕ} (hdiv : (T + n) / b = T / b + d')
    (h : CarrySteps b (T / b) d' ds) : CarrySteps b T n (n % b :: ds) := by
  refine ⟨?_, fun i hi => ?_, fun i hi => ?_⟩
  · rw [List.length_cons, sameBlock_succ_iff, hdiv]
    exact h.same
  · cases i with
    | zero => simp [SameBlock]; omega
    | succ i =>
      rw [sameBlock_succ_iff, hdiv]
      exact h.differ i (by simpa using hi)
  · cases i with
    | zero => simp
    | succ i =>
      have := h.steps i (by simpa using hi)
      simp only [List.getElem_cons_succ, this, ← hdiv, Nat.div_div_eq_div_mul, pow_succ']

/-- The last level that moves is the highest level at which the sum differs. -/
theorem CarrySteps.topLevel {d : ℕ} {ds : List ℕ} (h : CarrySteps b T d ds) :
    TopLevel b T (T + d) (ds.length - 1) := by
  cases hds : ds.length with
  | zero =>
    have := h.same
    rw [hds] at this
    exact ⟨this.mono (Nat.zero_le _), Or.inl rfl⟩
  | succ k =>
    have := h.same
    rw [hds] at this
    exact ⟨this, Or.inr (h.differ k (by omega))⟩

/-- Moving a digit by the steps of its level gives the digit of the sum. -/
theorem CarrySteps.digit_add (hb : 0 < b) {d : ℕ} {ds : List ℕ} (h : CarrySteps b T d ds) (i : ℕ) :
    (digit b T i + ds.getD i 0) % b = digit b (T + d) i := by
  by_cases hi : i < ds.length
  · have hle : T / b ^ i ≤ (T + d) / b ^ i := Nat.div_le_div_right (Nat.le_add_right _ _)
    rw [List.getD_eq_getElem _ _ hi, h.steps i hi]
    unfold digit
    rw [← Nat.add_mod, Nat.add_sub_cancel' hle]
  · have hlt : digit b T i < b := Nat.mod_lt _ hb
    rw [List.getD_eq_default _ _ (by omega), Nat.add_zero, Nat.mod_eq_of_lt hlt]
    exact (h.same.mono (by omega)).digit_eq

/-- The digit of the last level that moves does not wrap around. -/
theorem CarrySteps.digit_add_last (hb : 0 < b) {d : ℕ} {ds : List ℕ} (h : CarrySteps b T d ds) :
    digit b T (ds.length - 1) + ds.getD (ds.length - 1) 0 = digit b (T + d) (ds.length - 1) := by
  have hmod := h.digit_add hb (ds.length - 1)
  set L := ds.length - 1 with hL
  have hle : digit b T L ≤ digit b (T + d) L := h.topLevel.same.digit_le (Nat.le_add_right _ _)
  have hlt : digit b T L < b := Nat.mod_lt _ hb
  have hsteps : ds.getD L 0 < b := by
    by_cases hi : L < ds.length
    · rw [List.getD_eq_getElem _ _ hi, h.steps L hi]
      exact Nat.mod_lt _ hb
    · rw [List.getD_eq_default _ _ (by omega)]
      exact hb
  by_cases hwrap : digit b T L + ds.getD L 0 < b
  · rwa [Nat.mod_eq_of_lt hwrap] at hmod
  · rw [Nat.mod_eq_sub_mod (by omega), Nat.mod_eq_of_lt (by omega)] at hmod
    omega

end Xyco.Radix
