import Xyco.Time.Proofs.LevelProofs

/-!
# Proofs: the position of the wheel, and where `insert_event` puts an event
-/

namespace Xyco.Time.Wheel

open Level (slotNum)
open Radix

variable {w w' : Wheel} {e : Event} {L : Fin levelNum} {s : Fin slotNum}

/-! ## The position -/

theorem position_lt (w : Wheel) : w.position < range := by
  unfold range
  exact (finFunctionFinEquiv fun L => (w.levels L).currentIt).isLt

/-- The cursors are the digits of the position. -/
theorem cursor_eq_digit (w : Wheel) (L : Fin levelNum) :
    (w.levels L).currentIt.val = digit slotNum w.position L := by
  have h := finFunctionFinEquiv.symm_apply_apply fun L => (w.levels L).currentIt
  exact (congrArg Fin.val (congrFun h L)).symm

/-- A number below the range is determined by its digits. -/
theorem position_eq_of_digits {T : ℕ} (hT : T < range)
    (h : ∀ L, (w.levels L).currentIt.val = digit slotNum T L) : w.position = T := by
  unfold range at hT
  have hf : (fun L => (w.levels L).currentIt) = finFunctionFinEquiv.symm ⟨T, hT⟩ :=
    funext fun L => Fin.ext (h L)
  have heq : finFunctionFinEquiv (fun L => (w.levels L).currentIt) = ⟨T, hT⟩ := by
    rw [hf, Equiv.apply_symm_apply]
  exact congrArg Fin.val heq

theorem position_congr (h : ∀ L, (w'.levels L).currentIt = (w.levels L).currentIt) :
    w'.position = w.position := by
  unfold position
  simp only [h]

/-! ## Replacing a level -/

@[simp] theorem setLevel_self (w : Wheel) (L : Fin levelNum) (l : Level) :
    (w.setLevel L l).levels L = l := by
  simp [setLevel]

theorem setLevel_of_ne (w : Wheel) (l : Level) {L L' : Fin levelNum} (h : L' ≠ L) :
    (w.setLevel L l).levels L' = w.levels L' := by
  simp [setLevel, Function.update_of_ne h]

theorem stored_setLevel (w : Wheel) (L : Fin levelNum) (l : Level) :
    (w.setLevel L l).stored + (w.levels L).stored = w.stored + l.stored := by
  unfold stored setLevel
  exact sum_update_add Level.stored w.levels L l

theorem mem_stored : e ∈ w.stored ↔ ∃ L s, e ∈ w.slot L s := by
  unfold stored slot
  simp only [Multiset.mem_sum, Finset.mem_univ, true_and, Level.mem_stored]

theorem clear_cursor (w : Wheel) (L L' : Fin levelNum) (s : Fin slotNum) :
    ((w.setLevel L ((w.levels L).clear s)).levels L').currentIt = (w.levels L').currentIt := by
  by_cases hL : L' = L
  · subst hL; simp
  · rw [setLevel_of_ne _ _ hL]

theorem clear_stored (w : Wheel) (L : Fin levelNum) (s : Fin slotNum) :
    (w.setLevel L ((w.levels L).clear s)).stored + (w.slot L s : Multiset Event) = w.stored := by
  have h := stored_setLevel w L ((w.levels L).clear s)
  rw [← Level.stored_clear (w.levels L) s, ← add_assoc, add_right_comm] at h
  exact add_right_cancel h

theorem mem_clear {L' : Fin levelNum} {s' : Fin slotNum}
    (h : e ∈ (w.setLevel L ((w.levels L).clear s)).slot L' s') :
    e ∈ w.slot L' s' ∧ ¬ (L' = L ∧ s' = s) := by
  unfold slot at *
  by_cases hL : L' = L
  · subst hL
    rw [setLevel_self] at h
    have hs : s' ≠ s := by
      rintro rfl
      rw [Level.clear_self] at h
      exact absurd h List.not_mem_nil
    rw [Level.clear_of_ne _ hs] at h
    exact ⟨h, fun hc => hs hc.2⟩
  · rw [setLevel_of_ne _ _ hL] at h
    exact ⟨h, fun hc => hL hc.1⟩

theorem delay_congr (h : w'.now = w.now) (e : Event) : w'.delay e = w.delay e := by
  unfold delay; rw [h]

/-! ## The loop over the levels -/

theorem levelLoop_zero (its : List (Fin slotNum)) : levelLoop its 0 = some [] := by
  cases its <;> rfl

theorem levelLoop_nil {d : ℕ} (hd : d ≠ 0) : levelLoop [] d = none := if_neg hd

theorem levelLoop_cons {d : ℕ} (hd : d ≠ 0) (it : Fin slotNum) (its : List (Fin slotNum)) :
    levelLoop (it :: its) d =
      (levelLoop its (d / slotNum + if Level.distance it ≤ d % slotNum then 1 else 0)).map
        ((⟨d % slotNum, Nat.mod_lt _ slotNum_pos⟩ : Fin slotNum) :: ·) := by
  rw [levelLoop, if_neg hd]

/-- The level loop is the addition of `d` to the number `T` of the cursors, level by level. It runs
out of levels when the sum does not fit. -/
theorem levelLoop_spec (its : List (Fin slotNum)) : ∀ (T d : ℕ),
    (∀ i (h : i < its.length), its[i].val = digit slotNum T i) → T < slotNum ^ its.length →
    if T + d < slotNum ^ its.length then
      ∃ ds, levelLoop its d = some ds ∧ CarrySteps slotNum T d (ds.map Fin.val) ∧
        ds.length ≤ its.length
    else levelLoop its d = none := by
  induction its with
  | nil =>
    intro T d _ hT
    have hT0 : T = 0 := by simpa using hT
    by_cases hd : d = 0
    · subst hd hT0
      exact ⟨[], levelLoop_zero _, CarrySteps.nil _ _, le_rfl⟩
    · rw [if_neg (by simp [hT0, hd])]
      exact levelLoop_nil hd
  | cons it its ih =>
    intro T d hits hT
    by_cases hd : d = 0
    · subst hd
      rw [if_pos (by simpa using hT)]
      exact ⟨[], levelLoop_zero _, CarrySteps.nil _ _, Nat.zero_le _⟩
    have hit : it.val = T % slotNum := by
      have := hits 0 (by simp)
      rwa [digit_zero_level] at this
    -- the levels from 1 on see the quotient of `T`, and the carry on top of the quotient of `d`
    have hdiv : (T + d) / slotNum =
        T / slotNum + (d / slotNum + if Level.distance it ≤ d % slotNum then 1 else 0) := by
      rw [add_div_carry slotNum_pos, Level.distance, hit]
    have hits' : ∀ i (h : i < its.length), its[i].val = digit slotNum (T / slotNum) i := by
      intro i h
      rw [← digit_succ]
      exact hits (i + 1) (by simpa using h)
    have hT' : T / slotNum < slotNum ^ its.length := by
      rw [Nat.div_lt_iff_lt_mul slotNum_pos, ← pow_succ]
      exact hT
    have hfit : T + d < slotNum ^ (it :: its).length ↔ T / slotNum +
        (d / slotNum + if Level.distance it ≤ d % slotNum then 1 else 0) < slotNum ^ its.length := by
      rw [← hdiv, Nat.div_lt_iff_lt_mul slotNum_pos, ← pow_succ]
      rfl
    have h := ih (T / slotNum)
      (d / slotNum + if Level.distance it ≤ d % slotNum then 1 else 0) hits' hT'
    rw [levelLoop_cons hd]
    by_cases hlt : T + d < slotNum ^ (it :: its).length
    · rw [if_pos (hfit.mp hlt)] at h
      obtain ⟨ds, hds, hcarry, hlen⟩ := h
      rw [if_pos hlt, hds]
      refine ⟨_, rfl, ?_, by simpa using hlen⟩
      rw [List.map_cons]
      exact hcarry.cons (Nat.pos_of_ne_zero hd) hdiv
    · rw [if_neg (fun hc => hlt (hfit.mpr hc))] at h
      rw [if_neg hlt, h]
      rfl

@[simp] theorem cursors_length (w : Wheel) : w.cursors.length = levelNum := by simp [cursors]

theorem cursors_digit (w : Wheel) (i : ℕ) (h : i < w.cursors.length) :
    w.cursors[i].val = digit slotNum w.position i := by
  rw [← w.cursor_eq_digit ⟨i, by simpa using h⟩]
  simp [cursors]

theorem levelLoop_fits {d : ℕ} (h : w.position + d < range) :
    ∃ ds, levelLoop w.cursors d = some ds ∧ CarrySteps slotNum w.position d (ds.map Fin.val) ∧
      ds.length - 1 < levelNum := by
  have hlt := w.position_lt
  have hspec := levelLoop_spec w.cursors w.position d w.cursors_digit
  unfold range at h hlt
  rw [cursors_length, if_pos h] at hspec
  replace hspec := hspec hlt
  obtain ⟨ds, hds, hcarry, hlen⟩ := hspec
  have : 0 < levelNum := by decide
  exact ⟨ds, hds, hcarry, by omega⟩

theorem levelLoop_overflows {d : ℕ} (h : range ≤ w.position + d) : levelLoop w.cursors d = none := by
  have hlt := w.position_lt
  have hspec := levelLoop_spec w.cursors w.position d w.cursors_digit
  unfold range at h hlt
  rw [cursors_length, if_neg (Nat.not_lt.mpr h)] at hspec
  exact hspec hlt

theorem at?_of_lt {i : ℕ} (h : i < levelNum) : at? i = some ⟨i, h⟩ := dif_pos h

theorem getD_map_val (ds : List (Fin slotNum)) (i : ℕ) :
    (ds.map Fin.val).getD i 0 = (ds.getD i 0).val := by
  have := List.getD_map (l := ds) (n := i) (d := (0 : Fin slotNum)) Fin.val
  simpa using this

theorem getLastD_eq_getD (ds : List (Fin slotNum)) :
    ds.getLastD 0 = ds.getD (ds.length - 1) 0 := by
  rw [List.getLastD_eq_getLast?, List.getLast?_eq_getElem?, List.getD_eq_getElem?_getD]

/-! ## `insert_event` -/

/-- The wheel with `e` appended to slot `s` of level `L`. -/
def push (w : Wheel) (L : Fin levelNum) (s : Fin slotNum) (e : Event) : Wheel :=
  w.setLevel L ((w.levels L).pushBack s e)

/-- `insert_event` throws nothing as long as the event falls within the range of the wheel, and puts
it into the slot of `Placed`. -/
theorem insertEvent_spec (h : w.position + w.delay e < range) :
    ∃ L s, w.insertEvent e = some (w.push L s e) ∧ w.Placed (w.position + w.delay e) L s := by
  obtain ⟨ds, hds, hcarry, hlen⟩ := levelLoop_fits h
  refine ⟨⟨ds.length - 1, hlen⟩, Level.advance (w.levels ⟨_, hlen⟩).currentIt (ds.getLastD 0), ?_, ?_⟩
  · unfold delay at hds
    simp only [insertEvent, hds, Option.bind_eq_bind, Option.bind_some, at?_of_lt hlen]
    rfl
  · refine ⟨by simpa using hcarry.topLevel, ?_⟩
    rw [Level.advance_eq_rotate, getLastD_eq_getD]
    show (_ + _) % slotNum = _
    rw [cursor_eq_digit, ← getD_map_val]
    exact hcarry.digit_add slotNum_pos _

theorem insertEvent_none (h : range ≤ w.position + w.delay e) : w.insertEvent e = none := by
  have hloop := levelLoop_overflows h
  unfold delay at hloop
  simp only [insertEvent, hloop]
  rfl

theorem insertEvent_cases (h : w.insertEvent e = some w') :
    ∃ L s, w' = w.push L s e ∧ w.position + w.delay e < range ∧
      w.Placed (w.position + w.delay e) L s := by
  by_cases hfit : w.position + w.delay e < range
  · obtain ⟨L, s, hins, hp⟩ := insertEvent_spec hfit
    rw [hins] at h
    exact ⟨L, s, (Option.some.inj h).symm, hfit, hp⟩
  · rw [insertEvent_none (by omega)] at h
    exact absurd h (by simp)

theorem push_cursor (w : Wheel) (L L' : Fin levelNum) (s : Fin slotNum) (e : Event) :
    ((w.push L s e).levels L').currentIt = (w.levels L').currentIt := by
  unfold push
  by_cases h : L' = L
  · subst h; simp
  · rw [setLevel_of_ne _ _ h]

theorem push_position (w : Wheel) (L : Fin levelNum) (s : Fin slotNum) (e : Event) :
    (w.push L s e).position = w.position :=
  position_congr fun L' => w.push_cursor L L' s e

theorem push_stored (w : Wheel) (L : Fin levelNum) (s : Fin slotNum) (e : Event) :
    (w.push L s e).stored = w.stored + {e} := by
  have h := stored_setLevel w L ((w.levels L).pushBack s e)
  rw [Level.stored_pushBack, ← add_assoc, add_right_comm] at h
  exact add_right_cancel h

theorem mem_push {L' : Fin levelNum} {s' : Fin slotNum} {e' : Event}
    (h : e' ∈ (w.push L s e).slot L' s') : e' ∈ w.slot L' s' ∨ (L' = L ∧ s' = s ∧ e' = e) := by
  unfold push slot at *
  by_cases hL : L' = L
  · subst hL
    rw [setLevel_self] at h
    by_cases hs : s' = s
    · subst hs
      simp only [Level.pushBack, Function.update_self, List.mem_append, List.mem_singleton] at h
      rcases h with h | h
      · exact Or.inl h
      · exact Or.inr ⟨rfl, rfl, h⟩
    · simp only [Level.pushBack, Function.update_of_ne hs] at h
      exact Or.inl h
  · rw [setLevel_of_ne _ _ hL] at h
    exact Or.inl h

/-! ## Inserting again -/

/-- What inserting the events `es` one after the other does. -/
structure InsertRes (w : Wheel) (es : List Event) (w' : Wheel) : Prop where
  now : w'.now = w.now
  cursor : ∀ L, (w'.levels L).currentIt = (w.levels L).currentIt
  stored : w'.stored = w.stored + es
  slot : ∀ L s e, e ∈ w'.slot L s →
    e ∈ w.slot L s ∨ (e ∈ es ∧ w.Placed (w.position + w.delay e) L s)

theorem InsertRes.position {es : List Event} (h : InsertRes w es w') : w'.position = w.position :=
  position_congr h.cursor

/-- An event that is due at the position or later goes ahead of the cursor of its level. -/
theorem Placed.ahead {P : ℕ} (h : w.Placed P L s) (hP : w.position ≤ P) :
    digit slotNum w.position L ≤ s.val ∧ (L ≠ 0 → digit slotNum w.position L < s.val) := by
  have hle := h.level.same.digit_le hP
  rw [← h.slot] at hle
  refine ⟨hle, fun hL => lt_of_le_of_ne hle fun heq => ?_⟩
  rcases h.level.differ with h0 | hne
  · exact hL (Fin.ext h0)
  · exact hne (h.level.same.of_digit_eq (heq.trans h.slot))

/-- Only what is due at the position goes into the current slot of level 0. -/
theorem Placed.eq_position {P : ℕ} (h : w.Placed P 0 s)
    (hs : s.val = digit slotNum w.position 0) : P = w.position := by
  have hsame := h.level.same.of_digit_eq (hs.symm.trans h.slot)
  simpa [SameBlock] using hsame.symm

theorem Placed.congr {P : ℕ} (h : w'.position = w.position) (hp : w'.Placed P L s) :
    w.Placed P L s :=
  ⟨h ▸ hp.level, hp.slot⟩

/-- Induction on the events: those that are still to be inserted find the cursors and the clock as
they were. -/
theorem insertAll_res (es : List Event) : ∀ (w : Wheel), es.foldlM insertEvent w = some w' →
    InsertRes w es w' := by
  induction es with
  | nil =>
    intro w h
    obtain rfl := Option.some.inj h
    exact ⟨rfl, fun _ => rfl, by simp, fun L s e he => Or.inl he⟩
  | cons e es ih =>
    intro w h
    rw [List.foldlM_cons] at h
    obtain ⟨w₁, hins, hrest⟩ := Option.bind_eq_some_iff.mp h
    obtain ⟨L, s, rfl, -, hplaced⟩ := insertEvent_cases hins
    have hres := ih (w.push L s e) hrest
    have hpos := w.push_position L s e
    have hdelay : ∀ e', (w.push L s e).delay e' = w.delay e' := delay_congr rfl
    refine ⟨hres.now, fun L' => ?_, ?_, ?_⟩
    · rw [hres.cursor, push_cursor]
    · rw [hres.stored, push_stored, add_assoc]
      rfl
    · intro L' s' e' he'
      rcases hres.slot L' s' e' he' with he' | ⟨hes, hp⟩
      · rcases mem_push he' with he' | ⟨rfl, rfl, rfl⟩
        · exact Or.inl he'
        · exact Or.inr ⟨by simp, hplaced⟩
      · rw [hpos, hdelay] at hp
        exact Or.inr ⟨by simp [hes], hp.congr hpos⟩

theorem insertAll_fits (es : List Event) : ∀ (w : Wheel),
    (∀ e ∈ es, w.position + w.delay e < range) → ∃ w', es.foldlM insertEvent w = some w' := by
  induction es with
  | nil => exact fun w _ => ⟨w, rfl⟩
  | cons e es ih =>
    intro w h
    obtain ⟨L, s, hins, -⟩ := insertEvent_spec (h e (by simp))
    have hdelay : ∀ e', (w.push L s e).delay e' = w.delay e' := delay_congr rfl
    obtain ⟨w', hw'⟩ := ih (w.push L s e) fun e' he' => by
      rw [push_position, hdelay]
      exact h e' (by simp [he'])
    exact ⟨w', by simp [List.foldlM_cons, hins, hw']⟩

/-- What `reinsert` does to slot `s` of level `L`: the slot is empty before its events are inserted
again, so an event found anywhere afterwards was left alone or has been placed anew. -/
structure ReinsertRes (w : Wheel) (L : Fin levelNum) (s : Fin slotNum) (w' : Wheel) : Prop where
  now : w'.now = w.now
  cursor : ∀ L', (w'.levels L').currentIt = (w.levels L').currentIt
  stored : w'.stored = w.stored
  slot : ∀ L' s' e, e ∈ w'.slot L' s' →
    (e ∈ w.slot L' s' ∧ ¬ (L' = L ∧ s' = s)) ∨ (e ∈ w.slot L s ∧ w.Placed (w.position + w.delay e) L' s')

theorem ReinsertRes.position (h : ReinsertRes w L s w') : w'.position = w.position :=
  position_congr h.cursor

theorem reinsert_res (h : w.reinsert L s = some w') : ReinsertRes w L s w' := by
  set w₀ := w.setLevel L ((w.levels L).clear s) with hw₀
  have hcur : ∀ L', (w₀.levels L').currentIt = (w.levels L').currentIt :=
    fun L' => w.clear_cursor L L' s
  have hpos : w₀.position = w.position := position_congr hcur
  have hdelay : ∀ e, w₀.delay e = w.delay e := delay_congr rfl
  have hres : InsertRes w₀ (w.slot L s) w' := insertAll_res (w.slot L s) w₀ h
  refine ⟨hres.now, fun L' => by rw [hres.cursor, hcur], ?_, fun L' s' e he => ?_⟩
  · rw [hres.stored]
    exact w.clear_stored L s
  · rcases hres.slot L' s' e he with he | ⟨he, hp⟩
    · exact Or.inl (mem_clear he)
    · rw [hpos, hdelay] at hp
      exact Or.inr ⟨he, hp.congr hpos⟩

theorem reinsert_fits (h : ∀ e ∈ w.slot L s, w.position + w.delay e < range) :
    ∃ w', w.reinsert L s = some w' := by
  refine insertAll_fits (w.slot L s) (w.setLevel L ((w.levels L).clear s)) fun e he => ?_
  rw [position_congr fun L' => w.clear_cursor L L' s, delay_congr rfl]
  exact h e he

end Xyco.Time.Wheel
