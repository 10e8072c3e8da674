import Xyco.Machine.Table
import Xyco.Runtime.Future

/-!
# Proofs: what a step does to coroutines and futures

The invariants read the tables through a few functions of them: the status of a coroutine, and
`future_`, `self_`, `waiting_` and `waited_`. Here is what each of the assignments that the steps are
made of does to these.
-/

namespace Xyco.Runtime.Tasks

open Table

variable {V E : Type*} {s s' t : Tasks V E} {g h c p q : ℕ} {f : Future V E}

def waitedOf (s : Tasks V E) (p : ℕ) : Option ℕ := s.futures[p]?.bind Future.waited

def pollsOf (s : Tasks V E) (p : ℕ) : Option Bool := s.futures[p]?.map Future.polls

/-! ## The parts that no suspension or resumption changes -/

structure Static (s s' : Tasks V E) : Prop where
  length : s'.futures.length = s.futures.length
  futureOf : ∀ c, s'.futureOf c = s.futureOf c
  selfOf : ∀ p, s'.selfOf p = s.selfOf p
  pollsOf : ∀ p, s'.pollsOf p = s.pollsOf p

theorem Static.trans (h : Static s s') (h' : Static s' t) : Static s t where
  length := h'.length.trans h.length
  futureOf c := (h'.futureOf c).trans (h.futureOf c)
  selfOf p := (h'.selfOf p).trans (h.selfOf p)
  pollsOf p := (h'.pollsOf p).trans (h.pollsOf p)

theorem static_refl (s : Tasks V E) : Static s s := ⟨rfl, fun _ => rfl, fun _ => rfl, fun _ => rfl⟩

/-- A change of one `Future` that leaves `self_` alone. -/
theorem static_modify {update : Future V E → Future V E} (hself : ∀ f, (update f).self = f.self)
    (hpolls : ∀ f, (update f).polls = f.polls) (s : Tasks V E) (p : ℕ) :
    Static s { s with futures := s.futures.modify p update } where
  length := List.length_modify _ _ _
  futureOf _ := rfl
  selfOf q := bind_modify hself s.futures p q
  pollsOf q := map_modify hpolls s.futures p q

theorem static_setStatus (s : Tasks V E) (g : ℕ) (st : Status) : Static s (s.setStatus g st) where
  length := rfl
  futureOf c := bind_modify (fun _ => by rfl) s.frames g c
  selfOf _ := rfl
  pollsOf _ := rfl

theorem static_setWaited (s : Tasks V E) (g : ℕ) (c : Option ℕ) : Static s (s.setWaited g c) := by
  unfold setWaited
  split
  · exact static_modify (fun _ => by rfl) (fun _ => by rfl) s _
  · exact static_refl s

theorem static_setWaiting (s : Tasks V E) (p g : ℕ) : Static s (s.setWaiting p g) :=
  static_modify (fun _ => by rfl) (fun _ => by rfl) s p

theorem static_store (s : Tasks V E) (p : ℕ) (r : Except (Thrown E) V) : Static s (s.store p r) :=
  static_modify (fun f => by cases r <;> rfl) (fun f => by cases r <;> rfl) s p

theorem static_suspend (s : Tasks V E) (g p : ℕ) (self : Option ℕ) :
    Static s (s.suspend g p self) :=
  (static_setWaiting s p g).trans (static_setWaited _ g self)

theorem static_clearWaited (s : Tasks V E) (f : Future V E) : Static s (s.clearWaited f) := by
  unfold clearWaited
  split
  · exact static_setWaited s _ none
  · exact static_refl s

/-! ## The status of a coroutine -/

theorem status_setStatus (s : Tasks V E) (g c : ℕ) (st : Status) :
    (s.setStatus g st).status c = if g = c then (s.status c).map fun _ => st else s.status c := by
  simp only [status, setStatus, List.getElem?_modify]
  cases s.frames[c]? with
  | none => split <;> rfl
  | some frame => split <;> rfl

theorem status_setStatus_self (h : s.status g ≠ none) (st : Status) :
    (s.setStatus g st).status g = some st := by
  obtain ⟨old, hold⟩ := Option.ne_none_iff_exists'.mp h
  rw [status_setStatus, if_pos rfl, hold]
  rfl

theorem status_setStatus_ne (h : g ≠ c) (st : Status) :
    (s.setStatus g st).status c = s.status c := by
  rw [status_setStatus, if_neg h]

@[simp] theorem status_setWaited (s : Tasks V E) (g c : ℕ) (w : Option ℕ) :
    (s.setWaited g w).status c = s.status c := by
  unfold setWaited
  split <;> rfl

@[simp] theorem status_clearWaited (s : Tasks V E) (f : Future V E) (c : ℕ) :
    (s.clearWaited f).status c = s.status c := by
  unfold clearWaited
  split
  · exact status_setWaited s _ c none
  · rfl

@[simp] theorem status_suspend (s : Tasks V E) (g p c : ℕ) (self : Option ℕ) :
    (s.suspend g p self).status c = s.status c :=
  status_setWaited _ g c self

@[simp] theorem status_store (s : Tasks V E) (p c : ℕ) (r : Except (Thrown E) V) :
    (s.store p r).status c = s.status c := rfl

/-! ## `waiting_` and `waited_` -/

@[simp] theorem waitingOf_setWaited (s : Tasks V E) (g p : ℕ) (w : Option ℕ) :
    (s.setWaited g w).waitingOf p = s.waitingOf p := by
  unfold setWaited
  split
  · exact bind_modify (fun _ => by rfl) s.futures _ p
  · rfl

@[simp] theorem waitingOf_clearWaited (s : Tasks V E) (f : Future V E) (p : ℕ) :
    (s.clearWaited f).waitingOf p = s.waitingOf p := by
  unfold clearWaited
  split
  · exact waitingOf_setWaited s _ p none
  · rfl

@[simp] theorem waitingOf_store (s : Tasks V E) (p q : ℕ) (r : Except (Thrown E) V) :
    (s.store p r).waitingOf q = s.waitingOf q :=
  bind_modify (fun f => by cases r <;> rfl) s.futures p q

theorem waitingOf_suspend (s : Tasks V E) (g p q : ℕ) (self : Option ℕ) :
    (s.suspend g p self).waitingOf q =
      if p = q then (s.futures[q]?).map fun _ => g else s.waitingOf q := by
  rw [suspend, waitingOf_setWaited]
  simp only [waitingOf, setWaiting, List.getElem?_modify]
  cases s.futures[q]? with
  | none => split <;> rfl
  | some f => split <;> rfl

theorem waitedOf_setWaited (s : Tasks V E) (g p : ℕ) (w : Option ℕ) :
    (s.setWaited g w).waitedOf p =
      if s.futureOf g = some p then (s.futures[p]?).bind fun _ => w else s.waitedOf p := by
  unfold setWaited
  split
  · rename_i o ho
    rw [ho]
    simp only [waitedOf, List.getElem?_modify, Option.some.injEq]
    cases s.futures[p]? with
    | none => split <;> rfl
    | some f => split <;> rfl
  · rename_i ho
    rw [ho, if_neg (by simp)]

theorem waitedOf_setWaiting (s : Tasks V E) (p g q : ℕ) :
    (s.setWaiting p g).waitedOf q = s.waitedOf q :=
  bind_modify (fun _ => by rfl) s.futures p q

@[simp] theorem waitedOf_store (s : Tasks V E) (p q : ℕ) (r : Except (Thrown E) V) :
    (s.store p r).waitedOf q = s.waitedOf q :=
  bind_modify (fun f => by cases r <;> rfl) s.futures p q

/-- `await_resume` clears `waited_` for the coroutine in `waiting_`. -/
theorem waitedOf_clearWaited (s : Tasks V E) (f : Future V E) (p : ℕ) :
    (s.clearWaited f).waitedOf p =
      if f.waiting.bind s.futureOf = some p then none else s.waitedOf p := by
  unfold clearWaited
  split
  · rename_i h hh
    rw [hh, waitedOf_setWaited]
    show (if s.futureOf h = some p then _ else _) = if s.futureOf h = some p then none else _
    split
    · cases s.futures[p]? <;> rfl
    · rfl
  · rename_i hh
    rw [hh]
    rfl

/-! ## Inversion of the steps -/

theorem resume_cases (h : s.resume g p = some s') :
    ∃ f, s.futures[p]? = some f ∧ s' = { (s.clearWaited f).setStatus g .running with
      outcomes := s.outcomes ++ [(p, f.awaitResume)] } := by
  unfold resume at h
  split at h
  · cases h
  · rename_i f hf
    exact ⟨f, hf, (Option.some.inj h).symm⟩

theorem await_cases {poll : Option (Except (Thrown E) V)} (h : s.await g p poll = some s') :
    s.status g = some .running ∧ ∃ f, s.futures[p]? = some f ∧
      ((∃ c, f.self = some c ∧ s.status c = some .done ∧ s.resume g p = some s') ∨
        (∃ c, f.self = some c ∧ s.status c = some .created ∧
          s' = ((s.suspend g p (some c)).setStatus g (.awaiting p)).setStatus c .running) ∨
        (f.self = none ∧ s' = (s.suspend g p none).setStatus g (.awaiting p)) ∨
        (f.self = none ∧ ∃ v, ((s.suspend g p none).store p (.ok v)).resume g p = some s') ∨
        (f.self = none ∧ f.polls = true ∧ ∃ e, s' = { s.suspend g p none with
          outcomes := s.outcomes ++ [(p, .thrown e)] })) := by
  unfold await at h
  split at h
  · rename_i hg
    refine ⟨hg, ?_⟩
    split at h
    · cases h
    · rename_i f hf
      refine ⟨f, hf, ?_⟩
      split at h
      · rename_i c hc
        split at h
        · rename_i hdone
          exact Or.inl ⟨c, hc, hdone, h⟩
        · rename_i hcreated
          exact Or.inr (Or.inl ⟨c, hc, hcreated, (Option.some.inj h).symm⟩)
        · cases h
      · rename_i hnone
        split at h
        · exact Or.inr (Or.inr (Or.inl ⟨hnone, (Option.some.inj h).symm⟩))
        · rename_i v _
          exact Or.inr (Or.inr (Or.inr (Or.inl ⟨hnone, v, h⟩)))
        · rename_i e he
          have hpolls : f.polls = true := by
            by_contra hpolls
            rw [if_neg hpolls] at he
            cases he
          exact Or.inr (Or.inr (Or.inr (Or.inr ⟨hnone, hpolls, e, (Option.some.inj h).symm⟩)))
  · cases h

theorem finish_cases {r : Except (Thrown E) V} (h : s.finish g r = some s') :
    s.status g = some .running ∧
      ((s.futureOf g = none ∧ s' = s.setStatus g .done) ∨
        ∃ p, s.futureOf g = some p ∧
          ((s.waitingOf p = none ∧ s' = (s.setStatus g .done).store p r) ∨
            ∃ h, s.waitingOf p = some h ∧ s.status h = some (.awaiting p) ∧
              ((s.setStatus g .done).store p r).resume h p = some s')) := by
  unfold finish at h
  split at h
  · rename_i hg
    refine ⟨hg, ?_⟩
    split at h
    · rename_i hnone
      exact Or.inl ⟨hnone, (Option.some.inj h).symm⟩
    · rename_i p hp
      refine Or.inr ⟨p, hp, ?_⟩
      split at h
      · rename_i hnone
        exact Or.inl ⟨hnone, (Option.some.inj h).symm⟩
      · rename_i w hw
        split at h
        · rename_i hstatus
          exact Or.inr ⟨w, hw, hstatus, h⟩
        · cases h
  · cases h

theorem complete_cases {r : Except (Thrown E) V} (h : s.complete p r = some s') :
    ∃ g, s.pollsOf p = some true ∧ s.waitingOf p = some g ∧ s.status g = some (.awaiting p) ∧
      (s.store p r).resume g p = some s' := by
  unfold complete at h
  split at h
  · cases h
  · rename_i f hf
    split at h
    · rename_i g hpolls hwaiting
      split at h
      · rename_i hstatus
        refine ⟨g, ?_, ?_, hstatus, h⟩
        · rw [pollsOf, hf, Option.map_some, hpolls]
        · rw [waitingOf, hf, Option.bind_some, hwaiting]
      · cases h
    · cases h

theorem move_cases (h : s.move p = some s') :
    ∃ f, s.futures[p]? = some f ∧ (∀ g, s.status g ≠ some (.awaiting p)) ∧
      s' = { s with
        futures := s.futures.modify p (fun f =>
            { f with self := none, waiting := none, waited := none }) ++
          [{ f with exceptionPtr := none, cancelled := false }]
        frames := match f.self with
          | some c => s.frames.modify c fun frame => { frame with future := some s.futures.length }
          | none => s.frames } := by
  unfold move at h
  split at h
  · cases h
  · rename_i f hf
    obtain ⟨hnot, rfl⟩ := Machine.eq_of_guard h
    refine ⟨f, hf, ?_, rfl⟩
    intro g hg
    obtain ⟨frame, hframe, hstatus⟩ := Option.map_eq_some_iff.mp hg
    exact hnot frame (List.mem_of_getElem? hframe) hstatus

end Xyco.Runtime.Tasks
