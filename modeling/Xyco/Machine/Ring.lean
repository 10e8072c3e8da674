import Mathlib.Data.List.Basic
import Mathlib.Data.List.Range
import Mathlib.Data.Nat.ModEq

/-!
# A ring of entries

One side reserves the next free slot, writes it and hands all reserved slots over to the other side,
in order. A slot keeps what was last written to it: a slot that is reserved and not written is handed
over with its old contents.
-/

namespace Xyco

/-- The slots from `head` on, `used` of them, are reserved and not handed over yet. -/
structure Ring (α : Type*) where
  slots : List α
  head : ℕ
  used : ℕ
  fits : used ≤ slots.length
deriving DecidableEq, Repr

namespace Ring

variable {α : Type*} {r r' : Ring α} {i : ℕ} {a : α}

/-- A ring with nothing reserved. -/
def new (slots : List α) : Ring α := ⟨slots, 0, 0, Nat.zero_le _⟩

/-- The index of the slot that comes `k` after the head. -/
def index (r : Ring α) (k : ℕ) : ℕ := (r.head + k) % r.slots.length

/-- The next free slot, if there is one. -/
def reserve (r : Ring α) : Option (ℕ × Ring α) :=
  if h : r.used < r.slots.length then some (r.index r.used, { r with used := r.used + 1, fits := h })
  else none

def write (r : Ring α) (i : ℕ) (a : α) : Ring α :=
  { r with slots := r.slots.set i a, fits := by rw [List.length_set]; exact r.fits }

/-- What is handed over next. -/
def pending (r : Ring α) : List α := (List.range r.used).filterMap fun k => r.slots[r.index k]?

def handOver (r : Ring α) : Ring α := ⟨r.slots, r.head + r.used, 0, Nat.zero_le _⟩

theorem reserve_cases (h : r.reserve = some (i, r')) :
    r.used < r.slots.length ∧ i = r.index r.used ∧ r'.slots = r.slots ∧ r'.head = r.head ∧
      r'.used = r.used + 1 := by
  unfold reserve at h
  split at h
  · rename_i hlt
    obtain ⟨rfl, rfl⟩ := Prod.mk.inj (Option.some.inj h)
    exact ⟨hlt, rfl, rfl, rfl, rfl⟩
  · cases h

theorem reserve_eq_none_iff : r.reserve = none ↔ r.used = r.slots.length := by
  unfold reserve
  have := r.fits
  split
  · exact ⟨nofun, fun _ => by omega⟩
  · exact ⟨fun _ => by omega, fun _ => rfl⟩

theorem pending_of_unused (h : r.used = 0) : r.pending = [] := by
  rw [pending, h]
  rfl

@[simp] theorem length_write (r : Ring α) (i : ℕ) (a : α) :
    (r.write i a).slots.length = r.slots.length := List.length_set

theorem index_lt (r : Ring α) (k : ℕ) (h : 0 < r.slots.length) : r.index k < r.slots.length :=
  Nat.mod_lt _ h

/-- Slots less than a turn apart are different. -/
theorem index_ne {j k : ℕ} (hjk : j < k) (hk : k < r.slots.length) : r.index j ≠ r.index k := by
  intro h
  have hmod : r.head + j ≡ r.head + k [MOD r.slots.length] := h
  have := Nat.ModEq.add_left_cancel' r.head hmod
  have := Nat.ModEq.eq_of_lt_of_lt this (by omega) hk
  omega

/-- A slot that is reserved comes last. -/
theorem pending_reserve (h : r.reserve = some (i, r')) :
    ∃ a, r.slots[i]? = some a ∧ r'.pending = r.pending ++ [a] := by
  obtain ⟨hlt, rfl, hslots, hhead, hused⟩ := reserve_cases h
  have hindex : r.index r.used < r.slots.length := r.index_lt _ (by omega)
  have hget := List.getElem?_eq_getElem hindex
  refine ⟨_, hget, ?_⟩
  simp only [pending, index, hused, hslots, hhead, List.range_succ, List.filterMap_append]
  congr 1
  show [r.used].filterMap (fun k => r.slots[r.index k]?) = _
  rw [List.filterMap_cons, hget]
  rfl

/-- A slot that is reserved and written comes last, with what was written. -/
theorem pending_write (h : r.reserve = some (i, r')) (a : α) :
    (r'.write i a).pending = r.pending ++ [a] := by
  obtain ⟨hlt, rfl, hslots, hhead, hused⟩ := reserve_cases h
  have hindex : r.index r.used < r.slots.length := r.index_lt _ (by omega)
  have hold : (List.range r.used).filterMap (fun k => (r.slots.set (r.index r.used) a)[r.index k]?) =
      r.pending := by
    refine List.filterMap_congr fun k hk => ?_
    exact List.getElem?_set_ne (Ne.symm (index_ne (List.mem_range.mp hk) hlt))
  have hwrite : ∀ k, (r'.write (r.index r.used) a).slots[(r'.write (r.index r.used) a).index k]? =
      (r.slots.set (r.index r.used) a)[r.index k]? := by
    intro k
    simp only [write, index, hslots, hhead, List.length_set]
  simp only [pending, hwrite]
  show (List.range r'.used).filterMap _ = _
  rw [hused, List.range_succ, List.filterMap_append, hold, List.filterMap_cons,
    List.getElem?_set_self hindex]
  rfl

end Ring

end Xyco
