import Mathlib.Data.List.Basic
import Mathlib.Data.List.Nodup

/-!
# Paths of a partial function

The path of a partial function from a point to the first point where it is not defined. There is at
most one from each point, so it does not come back to a point it has left.
-/

namespace Xyco

variable {α : Type*}

inductive Path (next : α → Option α) : α → List α → Prop where
  | last {a : α} (h : next a = none) : Path next a [a]
  | cons {a b : α} {l : List α} (h : next a = some b) (hl : Path next b l) : Path next a (a :: l)

namespace Path

variable {next : α → Option α} {a b : α} {l l' : List α}

theorem unique (h : Path next a l) (h' : Path next a l') : l = l' := by
  induction h generalizing l' with
  | last hnone =>
    cases h' with
    | last => rfl
    | cons hsome => rw [hnone] at hsome; cases hsome
  | cons hsome _ ih =>
    cases h' with
    | last hnone => rw [hnone] at hsome; cases hsome
    | cons hsome' hl' =>
      rw [hsome] at hsome'
      obtain rfl := Option.some.inj hsome'
      rw [ih hl']

/-- The path from a point of a path is not longer. -/
theorem length_le_of_mem (h : Path next a l) (hb : b ∈ l) (h' : Path next b l') :
    l'.length ≤ l.length := by
  induction h with
  | @last a hnone =>
    obtain rfl := List.mem_singleton.mp hb
    exact Nat.le_of_eq (congrArg List.length (h'.unique (.last hnone)))
  | @cons a c l hsome hl ih =>
    by_cases hba : b = a
    · subst hba
      exact Nat.le_of_eq (congrArg List.length (h'.unique (.cons hsome hl)))
    · have hbl : b ∈ l := by simpa [hba] using hb
      exact Nat.le_succ_of_le (ih hbl)

theorem nodup (h : Path next a l) : l.Nodup := by
  induction h with
  | last => simp
  | @cons a b l hsome hl ih =>
    have hnot : a ∉ l := by
      intro hmem
      have hle := hl.length_le_of_mem hmem (.cons hsome hl)
      rw [List.length_cons] at hle
      omega
    exact List.nodup_cons.mpr ⟨hnot, ih⟩

end Path

end Xyco
