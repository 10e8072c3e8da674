import Mathlib.Algebra.Order.Ring.Nat
import Mathlib.Data.List.Basic

/-!
# Tables and logs

A table is a list of records that are addressed by their index and only ever replaced or added. A log
is a list of values, each with the index of the record it came from. `Agrees` ties the two together:
what a log has under an index can be read off the record there.
-/

namespace Xyco.Table

variable {α β : Type*} {table : List α} {k : ℕ} {a b : α}

/-! ## Records -/

theorem get_set (h : table[k]? = some a) (b : α) (i : ℕ) :
    (table.set k b)[i]? = if i = k then some b else table[i]? := by
  obtain ⟨hk, -⟩ := List.getElem?_eq_some_iff.mp h
  rw [List.getElem?_set]
  by_cases hik : i = k
  · rw [if_pos hik.symm, if_pos hik, if_pos (by omega)]
  · rw [if_neg (Ne.symm hik), if_neg hik]

theorem get_set_self (h : table[k]? = some a) (b : α) : (table.set k b)[k]? = some b := by
  rw [get_set h, if_pos rfl]

theorem any_set (h : table[k]? = some a) (p : α → Bool) (b : α) (i : ℕ) :
    (table.set k b)[i]?.any p = if i = k then p b else table[i]?.any p := by
  rw [get_set h]
  split <;> rfl

theorem any_replicate {p : α → Bool} (hp : p a = false) (n i : ℕ) :
    (List.replicate n a)[i]?.any p = false := by
  rw [List.getElem?_replicate]
  split
  · exact hp
  · rfl

/-- A part of the records after one of them is replaced. -/
theorem elim_set (h : table[k]? = some a) (f : α → β) (d : β) (b : α) (i : ℕ) :
    (table.set k b)[i]?.elim d f = if i = k then f b else table[i]?.elim d f := by
  rw [get_set h]
  split <;> rfl

/-- A part of the records that the new one has as well. -/
theorem elim_set_same {f : α → β} (h : table[k]? = some a) (hf : f b = f a) (d : β) (i : ℕ) :
    (table.set k b)[i]?.elim d f = table[i]?.elim d f := by
  rw [elim_set h]
  split
  · rename_i hik
    rw [hik, h, Option.elim_some, hf]
  · rfl

theorem set_same (h : table[k]? = some a) : table.set k a = table := by
  apply List.ext_getElem?
  intro i
  rw [get_set h]
  split
  · rename_i hik
    rw [hik, h]
  · rfl

theorem get_concat (table : List α) (b : α) (i : ℕ) :
    (table ++ [b])[i]? = if i = table.length then some b else table[i]? := by
  by_cases hi : i = table.length
  · subst hi
    simp
  · rw [if_neg hi]
    rcases Nat.lt_or_gt_of_ne hi with hlt | hgt
    · exact List.getElem?_append_left hlt
    · rw [List.getElem?_eq_none (by simp; omega), List.getElem?_eq_none (by omega)]

theorem modify_eq_set (h : table[k]? = some a) (g : α → α) : table.modify k g = table.set k (g a) := by
  rw [List.modify_eq_set_getElem?, h]
  rfl

/-- A part of the records after a change of one of them. -/
theorem bind_modify_eq (f : α → Option β) (g : α → α) (table : List α) (k i : ℕ) :
    (table.modify k g)[i]?.bind f =
      if k = i then table[i]?.bind (fun x => f (g x)) else table[i]?.bind f := by
  rw [List.getElem?_modify]
  cases table[i]? with
  | none => split <;> rfl
  | some x => split <;> rfl

/-- A part of the records that a change does not touch. -/
theorem bind_modify {f : α → Option β} {g : α → α} (hg : ∀ x, f (g x) = f x) (table : List α)
    (k i : ℕ) : (table.modify k g)[i]?.bind f = table[i]?.bind f := by
  rw [bind_modify_eq, funext hg]
  exact ite_self _

theorem bind_concat (f : α → Option β) (table : List α) (b : α) (i : ℕ) :
    (table ++ [b])[i]?.bind f = if i = table.length then f b else table[i]?.bind f := by
  rw [get_concat]
  split <;> rfl

theorem map_concat (f : α → β) (table : List α) (b : α) (i : ℕ) :
    (table ++ [b])[i]?.map f = if i = table.length then some (f b) else table[i]?.map f := by
  rw [get_concat]
  split <;> rfl

theorem map_modify {f : α → β} {g : α → α} (hg : ∀ x, f (g x) = f x) (table : List α) (k i : ℕ) :
    (table.modify k g)[i]?.map f = table[i]?.map f := by
  have := bind_modify (f := fun x => some (f x)) (fun x => congrArg some (hg x)) table k i
  simpa [Option.map_eq_bind] using this

/-- What holds of every record still does after one is replaced. -/
theorem forall_set {P : ℕ → α → Prop} (h : ∀ i x, table[i]? = some x → P i x) (hb : P k b) :
    ∀ i x, (table.set k b)[i]? = some x → P i x := by
  intro i x hx
  rw [List.getElem?_set] at hx
  split at hx
  · rename_i hik
    split at hx
    · obtain rfl := Option.some.inj hx
      exact hik ▸ hb
    · cases hx
  · exact h i x hx

theorem forall_concat {P : ℕ → α → Prop} (h : ∀ i x, table[i]? = some x → P i x)
    (hb : P table.length b) : ∀ i x, (table ++ [b])[i]? = some x → P i x := by
  intro i x hx
  rw [get_concat] at hx
  split at hx
  · rename_i hi
    obtain rfl := Option.some.inj hx
    exact hi ▸ hb
  · exact h i x hx

theorem forall_modify {P : ℕ → α → Prop} {g : α → α} (h : ∀ i x, table[i]? = some x → P i x)
    (hg : ∀ x, P k x → P k (g x)) : ∀ i x, (table.modify k g)[i]? = some x → P i x := by
  intro i x hx
  rw [List.getElem?_modify] at hx
  obtain ⟨y, hy, rfl⟩ := Option.map_eq_some_iff.mp hx
  split
  · rename_i hik
    subst hik
    exact hg y (h k y hy)
  · exact h i y hy

theorem forall_mem_set {P : α → Prop} (h : ∀ x ∈ table, P x) (hb : P b) :
    ∀ x ∈ table.set k b, P x := by
  intro x hx
  rcases List.mem_or_eq_of_mem_set hx with hx | rfl
  · exact h x hx
  · exact hb

theorem forall_mem_concat {P : α → Prop} (h : ∀ x ∈ table, P x) (hb : P b) :
    ∀ x ∈ table ++ [b], P x := by
  intro x hx
  rcases List.mem_append.mp hx with hx | hx
  · exact h x hx
  · exact List.mem_singleton.mp hx ▸ hb

/-- What holds of some record still does after one is replaced by one of which it holds as well. -/
theorem exists_mem_set {P : α → Prop} (hk : table[k]? = some a) (hb : P a → P b)
    (h : ∃ x ∈ table, P x) : ∃ x ∈ table.set k b, P x := by
  obtain ⟨x, hx, hP⟩ := h
  obtain ⟨i, hi⟩ := List.mem_iff_getElem?.mp hx
  by_cases hik : i = k
  · subst hik
    obtain rfl : a = x := Option.some.inj (hk.symm.trans hi)
    exact ⟨b, List.mem_of_getElem? (get_set_self hk b), hb hP⟩
  · refine ⟨x, List.mem_of_getElem? (i := i) ?_, hP⟩
    rw [get_set hk, if_neg hik]
    exact hi

/-- How a count of records changes when one is replaced. -/
theorem countP_set (h : table[k]? = some a) (p : α → Bool) (b : α) :
    (table.set k b).countP p + (if p a then 1 else 0) = table.countP p + if p b then 1 else 0 := by
  obtain ⟨hk, hka⟩ := List.getElem?_eq_some_iff.mp h
  have hpos : p a = true → 0 < table.countP p := fun hp =>
    List.countP_pos_iff.mpr ⟨a, hka ▸ List.getElem_mem hk, hp⟩
  rw [List.countP_set hk, hka]
  split
  · rename_i hp
    have := hpos hp
    omega
  · omega

theorem count_concat [BEq α] [LawfulBEq α] [DecidableEq α] (l : List α) (a b : α) :
    (l ++ [b]).count a = l.count a + if b = a then 1 else 0 := by
  rw [List.count_append, List.count_singleton]
  simp only [beq_iff_eq]

/-- How a sum over the records changes when one is replaced. -/
theorem sum_map_set (h : table[k]? = some a) (f : α → ℕ) (b : α) :
    ((table.set k b).map f).sum + f a = (table.map f).sum + f b := by
  induction table generalizing k with
  | nil => simp at h
  | cons x table ih =>
    cases k with
    | zero =>
      obtain rfl : x = a := by simpa using h
      simp only [List.set_cons_zero, List.map_cons, List.sum_cons]
      omega
    | succ k =>
      have := ih (k := k) (by simpa using h)
      simp only [List.set_cons_succ, List.map_cons, List.sum_cons]
      omega

/-- A count of records is not changed by a change that the count does not look at. -/
theorem countP_modify (p : α → Bool) {g : α → α} (hg : ∀ x, p (g x) = p x) :
    (table.modify k g).countP p = table.countP p := by
  cases hk : table[k]? with
  | none => rw [List.modify_eq_set_getElem?, hk]; rfl
  | some a =>
    have := countP_set hk p (g a)
    rw [hg] at this
    rw [modify_eq_set hk]
    omega

/-! ## Logs -/

/-- The values that a log has under an index. -/
def entries (log : List (ℕ × β)) (k : ℕ) : List β := (log.filter fun p => p.1 = k).map Prod.snd

theorem entries_concat (log : List (ℕ × β)) (k i : ℕ) (v : β) :
    entries (log ++ [(k, v)]) i = entries log i ++ if i = k then [v] else [] := by
  unfold entries
  by_cases hik : i = k
  · simp [hik]
  · simp [hik, Ne.symm hik]

/-- The log has under every index what `g` reads off the record there, and nothing where there is no
record. -/
def Agrees (g : α → List β) (table : List α) (log : List (ℕ × β)) : Prop :=
  ∀ k, entries log k = (table[k]?).elim [] g

variable {g : α → List β} {log : List (ℕ × β)}

theorem agrees_nil (g : α → List β) : Agrees g [] [] := by
  intro k
  simp [entries]

theorem Agrees.get (h : Agrees g table log) (hk : table[k]? = some a) : entries log k = g a := by
  rw [h k, hk]
  rfl

theorem Agrees.set (h : Agrees g table log) (hk : table[k]? = some a) (hg : g b = g a) :
    Agrees g (table.set k b) log := by
  intro i
  rw [h i, get_set hk]
  split
  · rename_i hik
    rw [hik, hk]
    exact hg.symm
  · rfl

theorem Agrees.concat (h : Agrees g table log) (hg : g b = []) : Agrees g (table ++ [b]) log := by
  intro i
  rw [h i, get_concat]
  split
  · rename_i hi
    rw [hi, List.getElem?_eq_none (Nat.le_refl _)]
    exact hg.symm
  · rfl

theorem Agrees.modify (h : Agrees g table log) {m : α → α} (hm : ∀ x, g (m x) = g x) :
    Agrees g (table.modify k m) log := by
  intro i
  rw [h i, List.getElem?_modify]
  cases table[i]? with
  | none => rfl
  | some x =>
    show g x = g (if k = i then m x else x)
    split
    · exact (hm x).symm
    · rfl

/-- A record that comes with a new entry of the log. -/
theorem Agrees.record {v : β} (h : Agrees g table log) (hk : table[k]? = some a) (ha : g a = [])
    (hb : g b = [v]) : Agrees g (table.set k b) (log ++ [(k, v)]) := by
  intro i
  rw [entries_concat, h i, get_set hk]
  split
  · rename_i hik
    rw [hik, hk]
    show g a ++ [v] = g b
    rw [ha, hb]
    rfl
  · exact List.append_nil _

end Xyco.Table
