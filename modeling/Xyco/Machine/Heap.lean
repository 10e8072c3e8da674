import Mathlib.Data.List.Basic

/-!
# A heap

Objects at addresses that are never used again. Reading an address gives nothing before an object is
allocated there and after it is freed, so a pointer that reads as nothing dangles. Every operation is
described by what it does to `read`.
-/

namespace Xyco

structure Heap (α : Type*) where
  cells : List (Option α)
deriving DecidableEq, Repr

namespace Heap

variable {α : Type*}

def empty : Heap α := ⟨[]⟩

def read (h : Heap α) (a : ℕ) : Option α := h.cells[a]?.join

/-- The address of the next object. -/
def next (h : Heap α) : ℕ := h.cells.length

def alloc (h : Heap α) (x : α) : Heap α := ⟨h.cells ++ [some x]⟩

def update (h : Heap α) (a : ℕ) (f : α → α) : Heap α := ⟨h.cells.modify a (Option.map f)⟩

def free (h : Heap α) (a : ℕ) : Heap α := ⟨h.cells.modify a fun _ => none⟩

/-- A part of the object at an address, if there is one. -/
def view {β : Type*} (h : Heap α) (v : α → Option β) (a : ℕ) : Option β := (h.read a).bind v

/-- `p` holds of every object. -/
def all (p : α → Bool) (h : Heap α) : Bool := h.cells.all fun cell => cell.all p

variable (h : Heap α) (a b : ℕ) (x : α) (f : α → α)

@[simp] theorem read_empty : (empty : Heap α).read a = none := rfl

@[simp] theorem read_next : h.read h.next = none := by
  simp [read, next]

theorem read_of_next_le {h : Heap α} {a : ℕ} (ha : h.next ≤ a) : h.read a = none := by
  unfold read
  rw [List.getElem?_eq_none ha]
  rfl

theorem lt_next {h : Heap α} {a : ℕ} {x : α} (hx : h.read a = some x) : a < h.next := by
  have hcell := Option.join_eq_some_iff.mp hx
  exact (List.getElem?_eq_some_iff.mp hcell).1

@[simp] theorem read_alloc : (h.alloc x).read b = if b = h.next then some x else h.read b := by
  unfold read alloc next
  rcases Nat.lt_trichotomy b h.cells.length with hlt | heq | hgt
  · rw [if_neg (Nat.ne_of_lt hlt), List.getElem?_append_left hlt]
  · simp [heq]
  · rw [if_neg (Nat.ne_of_gt hgt), List.getElem?_eq_none (by simp; omega),
      List.getElem?_eq_none (by omega)]

@[simp] theorem read_update :
    (h.update a f).read b = if b = a then (h.read b).map f else h.read b := by
  unfold read update
  rw [List.getElem?_modify]
  by_cases hba : b = a
  · subst hba
    cases h.cells[b]? <;> simp
  · simp [hba, Ne.symm hba]

@[simp] theorem read_free : (h.free a).read b = if b = a then none else h.read b := by
  unfold read free
  rw [List.getElem?_modify]
  by_cases hba : b = a
  · subst hba
    cases h.cells[b]? <;> simp
  · simp [hba, Ne.symm hba]

@[simp] theorem next_update : (h.update a f).next = h.next := by
  simp [next, update]

@[simp] theorem next_free : (h.free a).next = h.next := by
  simp [next, free]

@[simp] theorem next_alloc : (h.alloc x).next = h.next + 1 := by
  simp [next, alloc]

/-! ## Views -/

variable {β : Type*} (v : α → Option β)

theorem view_of_read {h : Heap α} {a : ℕ} {x : α} (hx : h.read a = some x) : h.view v a = v x := by
  rw [view, hx, Option.bind_some]

theorem read_of_view_none {w : α → β} {h : Heap α} {a : ℕ}
    (ha : h.view (fun x => some (w x)) a = none) : h.read a = none := by
  cases hx : h.read a with
  | none => rfl
  | some x => simp [view, hx] at ha

@[simp] theorem view_empty : (empty : Heap α).view v a = none := rfl

@[simp] theorem view_alloc : (h.alloc x).view v b = if b = h.next then v x else h.view v b := by
  unfold view
  rw [read_alloc]
  split <;> rfl

@[simp] theorem view_update :
    (h.update a f).view v b = if b = a then h.view (fun x => v (f x)) b else h.view v b := by
  unfold view
  rw [read_update]
  split
  · exact Option.bind_map
  · rfl

/-- A part of the objects that a change does not touch. -/
theorem view_update_same {v : α → Option β} {f : α → α} (hv : ∀ x, v (f x) = v x) (h : Heap α)
    (a : ℕ) : (h.update a f).view v = h.view v := by
  funext b
  rw [view_update, funext hv, ite_self]

/-- A part of the objects that a change sets to `y`. -/
theorem view_update_const {γ : Type*} {v : α → Option β} {w : α → γ} {f : α → α} {y : Option β}
    (hv : ∀ x, v (f x) = y) (h : Heap α) (a : ℕ) :
    (h.update a f).view v =
      fun b => if b = a ∧ h.view (fun x => some (w x)) b ≠ none then y else h.view v b := by
  funext b
  rw [view_update, funext hv]
  unfold view
  cases h.read b with
  | none => simp
  | some x => simp

theorem view_const {y : Option β} {h : Heap α} {a : ℕ} {x : α} (hx : h.read a = some x) :
    h.view (fun _ => y) a = y :=
  view_of_read _ hx

@[simp] theorem view_none : h.view (fun _ => (none : Option β)) a = none := by
  cases hx : h.read a <;> simp [view]

@[simp] theorem view_free : (h.free a).view v b = if b = a then none else h.view v b := by
  unfold view
  rw [read_free]
  split <;> rfl

theorem all_iff {p : α → Bool} {h : Heap α} :
    h.all p = true ↔ ∀ a x, h.read a = some x → p x = true := by
  unfold all read
  rw [List.all_eq_true]
  constructor
  · intro hall a x hx
    have hcell := Option.join_eq_some_iff.mp hx
    simpa using hall (some x) (List.mem_of_getElem? hcell)
  · intro hall cell hcell
    cases cell with
    | none => rfl
    | some x =>
      obtain ⟨a, ha⟩ := List.mem_iff_getElem?.mp hcell
      exact hall a x (by rw [ha]; rfl)

end Heap

end Xyco
