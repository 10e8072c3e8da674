import Xyco.Time.Proofs.PlaceProofs

/-!
# Proofs: what `walk` does

`walk` from position `T` to `T'` empties the slots that end at or before `T'`, re-inserts two slots
of the last level it moves, and takes what is due. `WalkRes` says where every event of the wheel is
afterwards; the invariants of a run are derived from it alone.
-/

namespace Xyco.Time.Wheel

open Level (slotNum rotate)
open Radix

variable {w w' : Wheel} {e : Event}

theorem exists_rotate (it s : Fin slotNum) : ∃ k < slotNum, s = rotate it k := by
  have h1 := it.isLt
  have h2 := s.isLt
  refine ⟨(s.val + slotNum - it.val) % slotNum, Nat.mod_lt _ slotNum_pos, Fin.ext ?_⟩
  show s.val = (it.val + (s.val + slotNum - it.val) % slotNum) % slotNum
  rw [Nat.add_mod_mod, show it.val + (s.val + slotNum - it.val) = s.val + slotNum by omega,
    Nat.add_mod_right, Nat.mod_eq_of_lt h2]

/-! ## The loops that expire slots -/

/-- What a level loses to `new` is what the wheel loses. -/
theorem stored_of_take {w w₁ : Wheel} {K : Fin levelNum} {l l' : Level} {new₁ new : List Event}
    (h₁ : w₁.stored + new₁ = w.stored) (hevents : l'.events = l.events)
    (htake : l.stored + new = (w₁.levels K).stored) :
    (w₁.setLevel K l').stored + ↑(new₁ ++ new) = w.stored := by
  have hset := stored_setLevel w₁ K l'
  have hl : l'.stored = l.stored := by
    unfold Level.stored
    exact Finset.sum_congr rfl fun s _ => by rw [hevents]
  rw [← htake, hl, ← add_assoc, add_right_comm] at hset
  rw [← h₁, ← add_right_cancel hset, ← Multiset.coe_add]
  abel

/-- What the first loop of `walk` does: the levels below `i` are emptied and their cursors moved,
the others are left alone. -/
structure ExpireRes (w : Wheel) (ds : List (Fin slotNum)) (i : ℕ) (w' : Wheel) (new : List Event) :
    Prop where
  now : w'.now = w.now
  low : ∀ L : Fin levelNum, L.val < i → (∀ s, w'.slot L s = []) ∧
    (w'.levels L).currentIt = Level.advance (w.levels L).currentIt (ds.getD L 0)
  high : ∀ L : Fin levelNum, i ≤ L.val → w'.levels L = w.levels L
  stored : w'.stored + new = w.stored
  out : ∀ e ∈ new, ∃ L s, L.val < i ∧ e ∈ w.slot L s

theorem expireLevels_spec (w : Wheel) (ds : List (Fin slotNum)) (events : List Event) (i : ℕ)
    (hi : i ≤ levelNum) :
    ∃ w' new, expireLevels ds i w events = some (w', events ++ new) ∧ ExpireRes w ds i w' new := by
  induction i with
  | zero =>
    refine ⟨w, [], by simp [expireLevels], rfl, fun L hL => absurd hL (by omega), fun L _ => rfl,
      by simp, by simp⟩
  | succ i ih =>
    obtain ⟨w₁, new₁, hrun, h₁⟩ := ih (by omega)
    have hlt : i < levelNum := hi
    set K : Fin levelNum := ⟨i, hlt⟩ with hK
    have hwK : w₁.levels K = w.levels K := h₁.high K le_rfl
    obtain ⟨l, new, hr, htake⟩ :=
      Level.takeSlots_spec slotNum (w.levels K) (w.levels K).currentIt (events ++ new₁)
    rw [Level.rotate_slotNum] at hr
    set l' : Level :=
      { l with currentIt := Level.advance (w.levels K).currentIt (ds.getD i 0) } with hl'
    have hne : ∀ L : Fin levelNum, L.val ≠ i → L ≠ K := fun L h hc => h (congrArg Fin.val hc)
    refine ⟨w₁.setLevel K l', new₁ ++ new, ?_, h₁.now, fun L hL => ?_, fun L hL => ?_, ?_, ?_⟩
    · simp only [expireLevels, hrun, Option.bind_eq_bind, Option.bind_some, at?_of_lt hlt, ← hK, hwK,
        hr]
      rw [List.append_assoc]
      rfl
    · by_cases hLi : L.val = i
      · obtain rfl : L = K := Fin.ext hLi
        refine ⟨fun s => ?_, ?_⟩
        · obtain ⟨k, hk, hs⟩ := exists_rotate (w.levels K).currentIt s
          rw [slot, setLevel_self, hs]
          exact htake.taken k hk
        · rw [setLevel_self]
      · obtain ⟨hempty, hcur⟩ := h₁.low L (by omega)
        refine ⟨fun s => ?_, ?_⟩
        · rw [slot, setLevel_of_ne _ _ (hne L hLi)]
          exact hempty s
        · rw [setLevel_of_ne _ _ (hne L hLi)]
          exact hcur
    · rw [setLevel_of_ne _ _ (hne L (by omega))]
      exact h₁.high L (by omega)
    · refine stored_of_take (l := l) h₁.stored rfl ?_
      rw [hwK]
      exact htake.stored
    · intro e he
      rcases List.mem_append.mp he with he | he
      · obtain ⟨L, s, hL, hes⟩ := h₁.out e he
        exact ⟨L, s, by omega, hes⟩
      · obtain ⟨k, _, hek⟩ := htake.out e he
        exact ⟨K, _, by simp [hK], hek⟩

/-- What the two loops together do on the way from the position to `T'`, whose last level is `K`:
the cursors are the digits of `T'`, only slots that end at or before `T'` are taken, and what is left
lies in a block that `T'` is still in. -/
structure DrainRes (w : Wheel) (T' : ℕ) (K : Fin levelNum) (w' : Wheel) (new : List Event) :
    Prop where
  now : w'.now = w.now
  cursor : ∀ L, (w'.levels L).currentIt.val = digit slotNum T' L
  same : SameBlock slotNum (K + 1) w.position T'
  slot : ∀ L s e, e ∈ w'.slot L s → e ∈ w.slot L s ∧ K ≤ L ∧
    (L = K → s.val < digit slotNum w.position L ∨ digit slotNum T' L ≤ s.val)
  stored : w'.stored + new = w.stored
  out : ∀ e ∈ new, ∃ L s, e ∈ w.slot L s ∧ slotStart slotNum w.position L (s.val + 1) ≤ T'

/-- Between two digits of one level, a slot is reached by fewer steps than the digits are apart. -/
theorem eq_rotate_of_mem {it s : Fin slotNum} {n : ℕ} (h1 : it.val ≤ s.val) (h2 : s.val < it.val + n) :
    ∃ k < n, s = rotate it k := by
  refine ⟨s.val - it.val, by omega, Fin.ext ?_⟩
  show s.val = (it.val + (s.val - it.val)) % slotNum
  rw [Nat.add_sub_cancel' h1, Nat.mod_eq_of_lt s.isLt]

/-- The walk leaves the block of every level below the last one. -/
theorem slotEnd_le_of_topLevel {T d K L : ℕ} (htop : TopLevel slotNum T (T + d) K) (hL : L < K)
    (s : Fin slotNum) : slotStart slotNum T L (s.val + 1) ≤ T + d := by
  refine slotEnd_le_of_differ (Nat.le_add_right _ _) (fun hsame => ?_) s.isLt
  rcases htop.differ with hzero | hne
  · omega
  · exact hne (hsame.mono (by omega))

theorem drain_spec (w : Wheel) {d : ℕ} {ds : List (Fin slotNum)} (events : List Event)
    (hds : CarrySteps slotNum w.position d (ds.map Fin.val)) (hlen : ds.length - 1 < levelNum) :
    ∃ w₁ ev₁ w₂ new, expireLevels ds (ds.length - 1) w events = some (w₁, ev₁) ∧
      w₁.expireSlots ⟨ds.length - 1, hlen⟩ (ds.getD (ds.length - 1) 0) ev₁ = (w₂, events ++ new) ∧
      DrainRes w (w.position + d) ⟨ds.length - 1, hlen⟩ w₂ new := by
  set K : Fin levelNum := ⟨ds.length - 1, hlen⟩ with hK
  obtain ⟨w₁, new₁, hrun, h₁⟩ := expireLevels_spec w ds events (ds.length - 1) (by omega)
  have hwK : w₁.levels K = w.levels K := h₁.high K le_rfl
  set n : ℕ := (ds.getD (ds.length - 1) 0).val with hn
  obtain ⟨l, new, hr, htake⟩ :=
    Level.takeSlots_spec n (w.levels K) (w.levels K).currentIt (events ++ new₁)
  set it : Fin slotNum := rotate (w.levels K).currentIt n with hitdef
  have htop := hds.topLevel
  have hlast := hds.digit_add_last slotNum_pos
  rw [List.length_map, getD_map_val, ← hn] at hlast
  rw [List.length_map] at htop
  have hcurK : (w.levels K).currentIt.val + n = digit slotNum (w.position + d) K := by
    rw [cursor_eq_digit]
    exact hlast
  -- the cursor of the last level does not wrap around
  have hit : it.val = digit slotNum (w.position + d) K := by
    rw [← hcurK]
    refine Nat.mod_eq_of_lt ?_
    rw [hcurK]
    exact Nat.mod_lt _ slotNum_pos
  have hne : ∀ {L : Fin levelNum}, L.val ≠ ds.length - 1 → L ≠ K :=
    fun h hc => h (congrArg Fin.val hc)
  refine ⟨w₁, _, w₁.setLevel K { l with currentIt := it }, new₁ ++ new, hrun, ?_, h₁.now, fun L => ?_,
    htop.same, fun L s e he => ?_, ?_, fun e he => ?_⟩
  · simp only [expireSlots, hwK, hr]
    rw [List.append_assoc]
  · rcases lt_trichotomy L.val (ds.length - 1) with hL | hL | hL
    · rw [setLevel_of_ne _ _ (hne (by omega)), (h₁.low L hL).2, Level.advance_eq_rotate]
      show (_ + _) % slotNum = _
      rw [cursor_eq_digit, ← getD_map_val]
      exact hds.digit_add slotNum_pos L
    · obtain rfl : L = K := Fin.ext hL
      rw [setLevel_self]
      exact hit
    · rw [setLevel_of_ne _ _ (hne (by omega)), h₁.high L (by omega), cursor_eq_digit]
      exact (htop.same.mono (by omega)).digit_eq
  · rcases lt_trichotomy L.val (ds.length - 1) with hL | hL | hL
    · rw [slot, setLevel_of_ne _ _ (hne (by omega))] at he
      have hempty : (w₁.levels L).events s = [] := (h₁.low L hL).1 s
      rw [hempty] at he
      exact absurd he List.not_mem_nil
    · obtain rfl : L = K := Fin.ext hL
      rw [slot, setLevel_self] at he
      obtain ⟨hes, hrot⟩ := htake.events_sub he
      refine ⟨hes, le_rfl, fun _ => ?_⟩
      by_contra hcon
      rw [not_or, not_lt, not_le, ← cursor_eq_digit, ← hcurK] at hcon
      obtain ⟨k, hk, hs⟩ := eq_rotate_of_mem hcon.1 hcon.2
      exact hrot k hk hs
    · rw [slot, setLevel_of_ne _ _ (hne (by omega)), h₁.high L (by omega)] at he
      exact ⟨he, Fin.le_def.mpr (by simp only [hK]; omega), fun hc => absurd hc (hne (by omega))⟩
  · refine stored_of_take (l := l) h₁.stored rfl ?_
    rw [hwK]
    exact htake.stored
  · rcases List.mem_append.mp he with he | he
    · obtain ⟨L, s, hL, hes⟩ := h₁.out e he
      exact ⟨L, s, hes, slotEnd_le_of_topLevel htop hL s⟩
    · obtain ⟨k, hk, hek⟩ := htake.out e he
      refine ⟨K, _, hek, slotEnd_le_of_lt_digit htop.same ?_⟩
      show ((w.levels K).currentIt.val + k) % slotNum < digit slotNum (w.position + d) K
      have hlt : digit slotNum (w.position + d) K < slotNum := Nat.mod_lt _ slotNum_pos
      rw [Nat.mod_eq_of_lt (by omega)]
      omega

/-! ## The whole of `walk` -/

/-- What `walk` does on the way from the position to `T'`. An event that is still stored lies ahead
of the cursors, and has either not been touched or been placed anew; an event that is taken was in a
slot that ends at or before `T'`, or has been found to be due. -/
structure WalkRes (w : Wheel) (T' : ℕ) (w' : Wheel) (new : List Event) : Prop where
  now : w'.now = w.now
  position : w'.position = T'
  stored : w'.stored + new = w.stored
  slot : ∀ L s e, e ∈ w'.slot L s → digit slotNum T' L < s.val ∧
    ((e ∈ w.slot L s ∧ SameBlock slotNum (L + 1) w.position T') ∨
      (e ∈ w.stored ∧ w'.Placed (T' + w.delay e) L s))
  out : ∀ e ∈ new, (∃ L s, e ∈ w.slot L s ∧ slotStart slotNum w.position L (s.val + 1) ≤ T') ∨
    (e ∈ w.stored ∧ w.delay e = 0)

/-- After the loops and the first re-insertion, what has not been re-inserted is ahead of the
cursors. -/
theorem DrainRes.ahead {T' : ℕ} {K L : Fin levelNum} {w₂ : Wheel} {new : List Event}
    {s : Fin slotNum} {e : Event} (h : DrainRes w T' K w₂ new) (hA : w.Ahead)
    (he : e ∈ w₂.slot L s) (hne : ¬ (L = K ∧ s = (w₂.levels K).currentIt)) :
    digit slotNum T' L < s.val ∧ e ∈ w.slot L s ∧ SameBlock slotNum (L + 1) w.position T' := by
  obtain ⟨hes, hKL, hK⟩ := h.slot L s e he
  obtain ⟨hle, hlt⟩ := hA L s e hes
  have hKL' : K.val ≤ L.val := hKL
  refine ⟨?_, hes, h.same.mono (by omega)⟩
  rcases eq_or_lt_of_le hKL with rfl | hKL
  · have hge : digit slotNum T' K ≤ s.val := by
      rcases hK rfl with hc | hc
      · omega
      · exact hc
    refine lt_of_le_of_ne hge fun hc => hne ⟨rfl, Fin.ext ?_⟩
    rw [h.cursor, hc]
  · have hsame : SameBlock slotNum L w.position T' := h.same.mono hKL
    rw [← hsame.digit_eq]
    refine hlt ?_
    rintro rfl
    exact absurd hKL (by simp)

/-- What the two re-insertions into the wheel `w` do. -/
structure ReinsertBothRes (w : Wheel) (K : Fin levelNum) (w' : Wheel) : Prop where
  now : w'.now = w.now
  cursor : ∀ L, (w'.levels L).currentIt = (w.levels L).currentIt
  stored : w'.stored = w.stored
  slot : ∀ L s e, e ∈ w'.slot L s →
    (e ∈ w.slot L s ∧ ¬ (L = K ∧ s = (w.levels K).currentIt)) ∨
      (e ∈ w.stored ∧ w'.Placed (w.position + w.delay e) L s)

theorem reinsertBoth_res {K : Fin levelNum} {w₁ w₂ : Wheel} {s s' : Fin slotNum}
    (hs : s = (w.levels K).currentIt) (hrun₁ : w.reinsert K s = some w₁)
    (hrun₂ : w₁.reinsert K s' = some w₂) : ReinsertBothRes w K w₂ := by
  have h₁ := reinsert_res hrun₁
  have h₂ := reinsert_res hrun₂
  have hdelay : ∀ e, w₁.delay e = w.delay e := delay_congr h₁.now
  have hmem : ∀ {L s e}, e ∈ w₁.slot L s → e ∈ w.stored := by
    intro L s e he
    rw [← h₁.stored]
    exact mem_stored.mpr ⟨L, s, he⟩
  have hpos : w₂.position = w.position := h₂.position.trans h₁.position
  refine ⟨h₂.now.trans h₁.now, fun L => (h₂.cursor L).trans (h₁.cursor L),
    h₂.stored.trans h₁.stored, fun L s e he => ?_⟩
  rcases h₂.slot L s e he with ⟨he, -⟩ | ⟨he, hp⟩
  · rcases h₁.slot L s e he with hkept | ⟨he, hp⟩
    · exact Or.inl (hs ▸ hkept)
    · exact Or.inr ⟨mem_stored.mpr ⟨_, _, he⟩, hp.congr hpos.symm⟩
  · rw [h₁.position, hdelay] at hp
    exact Or.inr ⟨hmem he, hp.congr (h₁.position.trans hpos.symm)⟩

theorem reinsertBoth_fits (K : Fin levelNum) (s s' : Fin slotNum)
    (hR : ∀ e ∈ w.stored, w.position + w.delay e < range) :
    ∃ w₁ w₂, w.reinsert K s = some w₁ ∧ w₁.reinsert K s' = some w₂ := by
  obtain ⟨w₁, hrun₁⟩ := reinsert_fits (w := w) (L := K) (s := s) fun e he =>
    hR e (mem_stored.mpr ⟨_, _, he⟩)
  have h₁ := reinsert_res hrun₁
  obtain ⟨w₂, hrun₂⟩ := reinsert_fits (w := w₁) (L := K) (s := s') fun e he => by
    rw [h₁.position, delay_congr h₁.now]
    refine hR e ?_
    rw [← h₁.stored]
    exact mem_stored.mpr ⟨_, _, he⟩
  exact ⟨w₁, w₂, hrun₁, hrun₂⟩

/-- `walk` within the range is the loops, the two re-insertions and the last collection. -/
theorem walk_eq (steps : Int) (events : List Event) (hT : w.position + steps.toNat < range) :
    ∃ K w₂ new, DrainRes w (w.position + steps.toNat) K w₂ new ∧
      w.walk steps events = (w₂.reinsert K (w₂.levels K).currentIt).bind fun w₃ =>
        (w₃.reinsert K (Level.next (w₂.levels K).currentIt)).map fun w₄ =>
          w₄.takeCurrent (events ++ new) := by
  obtain ⟨ds, hds, hcarry, hlen⟩ := levelLoop_fits hT
  obtain ⟨w₁, ev₁, w₂, new, hrun₁, hrun₂, h₂⟩ := drain_spec w events hcarry hlen
  refine ⟨⟨ds.length - 1, hlen⟩, w₂, new, h₂, ?_⟩
  have hrun₂' : w₁.expireSlots ⟨ds.length - 1, hlen⟩ (ds.getD (ds.length - 1) 0).val ev₁ =
      (w₂, events ++ new) := hrun₂
  simp only [walk, hds, hrun₁, at?_of_lt hlen, Option.bind_eq_bind, Option.bind_some, hrun₂']
  exact congrArg _ (funext fun w₃ => by rw [Option.map_eq_bind]; rfl)

/-- The whole of `walk`, from what its parts do. -/
theorem DrainRes.walkRes {T' : ℕ} {K : Fin levelNum} {w₂ w₄ : Wheel} {new : List Event}
    (h₂ : DrainRes w T' K w₂ new) (h₄ : ReinsertBothRes w₂ K w₄) (hA : w.Ahead) (hT : T' < range)
    (events : List Event) : WalkRes w T' (w₄.takeCurrent (events ++ new)).1
      (new ++ w₄.slot 0 (w₄.levels 0).currentIt) := by
  have hpos₂ : w₂.position = T' := position_eq_of_digits hT h₂.cursor
  have hdelay₂ : ∀ e, w₂.delay e = w.delay e := delay_congr h₂.now
  have hmem₂ : ∀ e ∈ w₂.stored, e ∈ w.stored := by
    intro e he
    rw [← h₂.stored]
    exact Multiset.mem_add.mpr (Or.inl he)
  have hpos₄ : w₄.position = T' := (position_congr h₄.cursor).trans hpos₂
  have hslot₄ : ∀ L s e, e ∈ w₄.slot L s →
      (e ∈ w₂.slot L s ∧ ¬ (L = K ∧ s = (w₂.levels K).currentIt)) ∨
        (e ∈ w.stored ∧ w₄.Placed (T' + w.delay e) L s) := by
    intro L s e he
    rcases h₄.slot L s e he with hkept | ⟨he, hp⟩
    · exact Or.inl hkept
    · rw [hpos₂, hdelay₂] at hp
      exact Or.inr ⟨hmem₂ e he, hp⟩
  have hcur : (w₄.levels 0).currentIt.val = digit slotNum T' 0 := by
    rw [cursor_eq_digit, hpos₄]
    rfl
  have hpos₅ : (w₄.takeCurrent (events ++ new)).1.position = T' := by
    rw [← hpos₄]
    exact position_congr fun L => w₄.clear_cursor 0 L _
  refine ⟨?_, hpos₅, ?_, fun L s e he => ?_, fun e he => ?_⟩
  · exact h₄.now.trans h₂.now
  · have hclear := w₄.clear_stored 0 (w₄.levels 0).currentIt
    rw [← h₂.stored, ← h₄.stored, ← hclear, ← Multiset.coe_add]
    simp only [takeCurrent]
    abel
  · obtain ⟨he, hne⟩ := mem_clear he
    rcases hslot₄ L s e he with ⟨he, hnK⟩ | ⟨he, hp⟩
    · obtain ⟨hlt, hes, hsame⟩ := h₂.ahead hA he hnK
      exact ⟨hlt, Or.inl ⟨hes, hsame⟩⟩
    · have hahead := hp.ahead (by rw [hpos₄]; omega)
      rw [hpos₄] at hahead
      refine ⟨?_, Or.inr ⟨he, hp.congr (hpos₄.trans hpos₅.symm)⟩⟩
      by_cases hL : L = 0
      · subst hL
        refine lt_of_le_of_ne hahead.1 fun hc => hne ⟨rfl, Fin.ext ?_⟩
        rw [hcur, ← hc]
        rfl
      · exact hahead.2 hL
  · rcases List.mem_append.mp he with he | he
    · exact Or.inl (h₂.out e he)
    · right
      rcases hslot₄ 0 _ e he with ⟨he, hnK⟩ | ⟨he, hp⟩
      · -- what is left on level 0 when it is not the last level to move: nothing
        obtain ⟨-, hK0, -⟩ := h₂.slot 0 _ e he
        have hK0' : K = 0 := le_antisymm hK0 (Fin.zero_le _)
        refine absurd ⟨hK0'.symm, ?_⟩ hnK
        rw [hK0', h₄.cursor]
      · refine ⟨he, ?_⟩
        have := hp.eq_position (by rw [hpos₄]; exact hcur)
        omega

theorem walk_none {steps : Int} (events : List Event) (hT : range ≤ w.position + steps.toNat) :
    w.walk steps events = none := by
  simp only [walk, levelLoop_overflows hT]
  rfl

/-- What a `walk` does that does not throw. -/
theorem walk_cases (hA : w.Ahead) {steps : Int} {events out : List Event}
    (h : w.walk steps events = some (w', out)) :
    ∃ new, out = events ++ new ∧ WalkRes w (w.position + steps.toNat) w' new := by
  have hT : w.position + steps.toNat < range := by
    by_contra hover
    rw [walk_none events (Nat.not_lt.mp hover)] at h
    cases h
  obtain ⟨K, w₂, new, h₂, heq⟩ := walk_eq steps events hT
  rw [heq] at h
  obtain ⟨w₃, hrun₃, h⟩ := Option.bind_eq_some_iff.mp h
  obtain ⟨w₄, hrun₄, h⟩ := Option.map_eq_some_iff.mp h
  obtain ⟨rfl, rfl⟩ := Prod.mk.inj h
  exact ⟨_, List.append_assoc _ _ _,
    h₂.walkRes (reinsertBoth_res rfl hrun₃ hrun₄) hA hT events⟩

/-- `walk` throws nothing if it and what it re-inserts stay within the range. -/
theorem walk_fits {steps : Int} (events : List Event) (hT : w.position + steps.toNat < range)
    (hR : ∀ e ∈ w.stored, w.position + steps.toNat + w.delay e < range) :
    (w.walk steps events).isSome = true := by
  obtain ⟨K, w₂, new, h₂, heq⟩ := walk_eq steps events hT
  obtain ⟨w₃, w₄, hrun₃, hrun₄⟩ := reinsertBoth_fits (w := w₂) K (w₂.levels K).currentIt
    (Level.next (w₂.levels K).currentIt) fun e he => by
      rw [position_eq_of_digits hT h₂.cursor, delay_congr h₂.now]
      refine hR e ?_
      rw [← h₂.stored]
      exact Multiset.mem_add.mpr (Or.inl he)
  rw [heq, hrun₃, Option.bind_some, hrun₄]
  rfl

/-! ## The vector of events -/

theorem expireLevels_append (ds : List (Fin slotNum)) (i : ℕ) (w : Wheel) (events : List Event) :
    expireLevels ds i w events =
      (expireLevels ds i w []).map fun p => (p.1, events ++ p.2) := by
  induction i with
  | zero => simp [expireLevels]
  | succ i ih =>
    simp only [expireLevels, Option.bind_eq_bind]
    rw [ih]
    cases expireLevels ds i w [] with
    | none => rfl
    | some p =>
      cases at? i with
      | none => rfl
      | some level =>
        simp only [Option.map_some, Option.bind_some]
        rw [Level.takeSlots_append _ _ _ (events ++ p.2), Level.takeSlots_append _ _ _ p.2]
        simp

theorem expireSlots_append (w : Wheel) (level : Fin levelNum) (n : ℕ) (events : List Event) :
    w.expireSlots level n events =
      ((w.expireSlots level n []).1, events ++ (w.expireSlots level n []).2) := by
  unfold expireSlots
  rw [Level.takeSlots_append]

theorem walk_append (w : Wheel) (steps : Int) (events : List Event) :
    w.walk steps events = (w.walk steps []).map fun p => (p.1, events ++ p.2) := by
  unfold walk
  simp only [Option.bind_eq_bind]
  cases levelLoop w.cursors steps.toNat with
  | none => rfl
  | some ds =>
    simp only [Option.bind_some]
    rw [expireLevels_append]
    cases expireLevels ds (ds.length - 1) w [] with
    | none => rfl
    | some p =>
      cases at? (ds.length - 1) with
      | none => rfl
      | some level =>
        simp only [Option.map_some, Option.bind_some]
        rw [expireSlots_append _ _ _ (events ++ p.2), expireSlots_append _ _ _ p.2]
        simp [Option.map_bind, takeCurrent]

/-- `expire` only appends to its vector. -/
theorem expire_append (w : Wheel) (r : Int) (events : List Event) :
    w.expire r events = (w.expire r []).map fun p => (p.1, events ++ p.2) := by
  unfold expire
  split
  · exact walk_append _ _ events
  · simp

end Xyco.Time.Wheel
