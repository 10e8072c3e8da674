import Xyco.Machine.Table

/-!
# A lock and the parties that hold it

Whether a party holds a lock can be read off the point it is at, and the lock has its owner.
`Guards` says that the two agree. A party that moves on takes the lock, gives it back, or does
neither.
-/

namespace Xyco.Machine

variable {ι : Type*} {owner : Option ι} {holds holds' : ι → Prop} {i j : ι}

/-- The owner of the lock is the party that holds it. -/
def Guards (owner : Option ι) (holds : ι → Prop) : Prop := ∀ i, holds i ↔ owner = some i

namespace Guards

theorem unique (h : Guards owner holds) (hi : holds i) (hj : holds j) : i = j :=
  Option.some.inj (((h i).mp hi).symm.trans ((h j).mp hj))

theorem not_free (h : Guards owner holds) (hi : holds i) : owner ≠ none := by
  rw [(h i).mp hi]
  exact Option.some_ne_none i

/-- No party takes the lock or gives it back. -/
theorem keep (h : Guards owner holds) (hsame : ∀ j, holds' j ↔ holds j) : Guards owner holds' :=
  fun j => (hsame j).trans (h j)

theorem acquire (h : Guards owner holds) (hfree : owner = none) (hi : holds' i)
    (hsame : ∀ j, j ≠ i → (holds' j ↔ holds j)) : Guards (some i) holds' := by
  intro j
  by_cases hji : j = i
  · subst hji
    exact ⟨fun _ => rfl, fun _ => hi⟩
  · constructor
    · intro hj
      exact absurd hfree (h.not_free ((hsame j hji).mp hj))
    · intro hj
      exact absurd (Option.some.inj hj).symm hji

theorem release (h : Guards owner holds) (hi : holds i) (hi' : ¬ holds' i)
    (hsame : ∀ j, j ≠ i → (holds' j ↔ holds j)) : Guards none holds' := by
  intro j
  constructor
  · intro hj
    by_cases hji : j = i
    · exact absurd (hji ▸ hj) hi'
    · exact absurd (h.unique ((hsame j hji).mp hj) hi) hji
  · intro hj
    cases hj

/-! ## Parties in a table -/

variable {α : Type*} {owner : Option ℕ} {table : List α} {holding : α → Bool} {k : ℕ} {a b : α}

theorem set_keep (h : Guards owner fun i => table[i]?.any holding = true) (hk : table[k]? = some a)
    (hb : holding b = holding a) : Guards owner fun i => (table.set k b)[i]?.any holding = true := by
  apply h.keep
  intro i
  rw [Table.any_set hk]
  split
  · rename_i hik
    rw [hik, hk, Option.any_some, hb]
  · rfl

theorem set_acquire (h : Guards owner fun i => table[i]?.any holding = true) (hk : table[k]? = some a)
    (hfree : owner = none) (hb : holding b = true) :
    Guards (some k) fun i => (table.set k b)[i]?.any holding = true := by
  apply h.acquire hfree
  · rw [Table.any_set hk, if_pos rfl, hb]
  · intro i hik
    rw [Table.any_set hk, if_neg hik]

theorem set_release (h : Guards owner fun i => table[i]?.any holding = true) (hk : table[k]? = some a)
    (ha : holding a = true) (hb : holding b = false) :
    Guards none fun i : ℕ => (table.set k b)[i]?.any holding = true := by
  apply h.release (i := k)
  · rw [hk, Option.any_some, ha]
  · rw [Table.any_set hk, if_pos rfl, hb]
    exact Bool.false_ne_true
  · intro i hik
    rw [Table.any_set hk, if_neg hik]

end Guards

end Xyco.Machine
