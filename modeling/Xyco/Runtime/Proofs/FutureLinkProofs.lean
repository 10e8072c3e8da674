import Xyco.Runtime.Proofs.FutureOwnedProofs

/-!
# Proofs: the links between awaiting coroutines

`Linked` says that `waited_` is the coroutine that is awaited. It is kept by every step but one:
`await_resume` of an async function that has finished before clears `waited_` for whoever awaited it
then.
-/

namespace Xyco.Runtime.Tasks

open Table

variable {V E : Type*} {s s' t : Tasks V E} {g c p q : ℕ} {f : Future V E} {st : Status}

def Linked (s : Tasks V E) : Prop :=
  ∀ g q o, s.status g = some (.awaiting q) → s.futureOf g = some o → s.waitedOf o = s.selfOf q

/-! ## `Linked` and the steps of coroutines -/

/-- `await_resume` clears `waited_` for the coroutine that goes on, or for one that awaits no async
function. -/
theorem resume_linked (hown : Owned s) (h : Linked s) (hres : s.resume g p = some s')
    (hw : ∀ w q, s.waitingOf p = some w → w ≠ g → s.status w = some (.awaiting q) →
      s.selfOf q = none) : Linked s' := by
  obtain ⟨f, hf, rfl⟩ := resume_cases hres
  have hs : Static s ((s.clearWaited f).setStatus g .running) :=
    (static_clearWaited s f).trans (static_setStatus _ g .running)
  intro d q o hd ho
  have hd' : ((s.clearWaited f).setStatus g .running).status d = some (.awaiting q) := hd
  have ho' : s.futureOf d = some o := (hs.futureOf d).symm.trans ho
  have hgd : g ≠ d := by
    rintro rfl
    rw [status_setStatus, if_pos rfl] at hd'
    obtain ⟨old, -, hold⟩ := Option.map_eq_some_iff.mp hd'
    cases hold
  rw [status_setStatus_ne hgd, status_clearWaited] at hd'
  show (s.clearWaited f).waitedOf o = ((s.clearWaited f).setStatus g .running).selfOf q
  rw [hs.selfOf, waitedOf_clearWaited]
  split
  · rename_i hcleared
    obtain ⟨w, hwaiting, hwo⟩ := Option.bind_eq_some_iff.mp hcleared
    obtain rfl := hown.unique hwo ho'
    exact (hw w q ((waitingOf_eq hf).trans hwaiting) (Ne.symm hgd) hd').symm
  · exact h d q o hd' ho'

theorem store_linked (h : Linked s) (p : ℕ) (r : Except (Thrown E) V) : Linked (s.store p r) := by
  intro d q o hd ho
  rw [waitedOf_store, (static_store s p r).selfOf]
  exact h d q o hd ho

/-- The coroutine `g` is not suspended, so nothing is known of its `waited_`. -/
theorem suspend_linked (hown : Owned s) (h : Linked s) (hg : s.status g = some .running)
    (self : Option ℕ) : Linked (s.suspend g p self) := by
  intro d q o hd ho
  rw [status_suspend] at hd
  rw [(static_suspend s g p self).futureOf] at ho
  rw [(static_suspend s g p self).selfOf, suspend, waitedOf_setWaited, waitedOf_setWaiting]
  have hne : (s.setWaiting p g).futureOf g ≠ some o := by
    intro hgo
    obtain rfl := hown.unique hgo ho
    rw [hg] at hd
    cases hd
  rw [if_neg hne]
  exact h d q o hd ho

theorem setStatus_linked (h : Linked s)
    (hst : ∀ q o, st = .awaiting q → s.futureOf g = some o → s.waitedOf o = s.selfOf q) :
    Linked (s.setStatus g st) := by
  intro d q o hd ho
  rw [(static_setStatus s g st).futureOf] at ho
  show s.waitedOf o = s.selfOf q
  rw [status_setStatus] at hd
  split at hd
  · rename_i hgd
    subst hgd
    obtain ⟨old, -, hold⟩ := Option.map_eq_some_iff.mp hd
    exact hst q o hold ho
  · exact h d q o hd ho

/-- `await_suspend` sets `waited_` to what is awaited. -/
theorem waitedOf_suspend (hown : Owned s) {o : ℕ} (ho : s.futureOf g = some o)
    (self : Option ℕ) : (s.suspend g p self).waitedOf o = self := by
  have ho' : (s.setWaiting p g).futureOf g = some o := ho
  rw [suspend, waitedOf_setWaited, if_pos ho']
  have hself : (s.setWaiting p g).selfOf o = some g := by
    rw [(static_setWaiting s p g).selfOf]
    exact (hown.own g o).mp ho
  obtain ⟨f, hf, -⟩ := Option.bind_eq_some_iff.mp hself
  rw [hf, Option.bind_some]

theorem await_linked {poll : Option (Except (Thrown E) V)} (hown : Owned s) (h : Linked s)
    (hG : s.AwaitsFresh (.await g p poll)) (hstep : s.await g p poll = some s') : Linked s' := by
  obtain ⟨hg, f, hf, hcases⟩ := await_cases hstep
  rcases hcases with ⟨c, hself, hc, hres⟩ | ⟨c, hself, hc, rfl⟩ | ⟨hself, rfl⟩ | ⟨hself, v, hres⟩ |
    ⟨hself, -, e, rfl⟩
  · -- an async function that has finished before
    apply resume_linked hown h hres
    intro w q hw _ hq
    have hdone : (s.selfOf p).bind s.status = some .done := by
      rw [selfOf_eq hf, hself]
      exact hc
    have hnone := hG hdone
    rw [hw, Option.bind_some, awaited, hq] at hnone
    exact hnone
  · have hawaiting : Linked ((s.suspend g p (some c)).setStatus g (.awaiting p)) := by
      apply setStatus_linked (suspend_linked hown h hg (some c))
      intro q o hq ho
      cases hq
      rw [(static_suspend s g p (some c)).futureOf] at ho
      rw [waitedOf_suspend hown ho, (static_suspend s g p (some c)).selfOf, selfOf_eq hf, hself]
    apply setStatus_linked hawaiting
    intro q o hq
    cases hq
  · apply setStatus_linked (suspend_linked hown h hg none)
    intro q o hq ho
    cases hq
    rw [(static_suspend s g p none).futureOf] at ho
    rw [waitedOf_suspend hown ho, (static_suspend s g p none).selfOf, selfOf_eq hf, hself]
  · have hsuspended : Owned (s.suspend g p none) := hown.suspend_object ((selfOf_eq hf).trans hself)
    apply resume_linked (hsuspended.store p (.ok v)) (store_linked (suspend_linked hown h hg none) p _)
      hres
    intro w q hw hwg
    rw [waitingOf_store, waitingOf_suspend, if_pos rfl, hf] at hw
    exact absurd (Option.some.inj hw).symm hwg
  · exact suspend_linked hown h hg none

theorem finish_linked {r : Except (Thrown E) V} (hown : Owned s) (h : Linked s)
    (hstep : s.finish g r = some s') : Linked s' := by
  obtain ⟨hg, ⟨-, rfl⟩ | ⟨p, hp, ⟨-, rfl⟩ | ⟨w, hw, hstatus, hres⟩⟩⟩ := finish_cases hstep
  all_goals
    have hdone : Linked (s.setStatus g .done) := setStatus_linked h fun q o hq => by cases hq
  · exact hdone
  · exact store_linked hdone p r
  · have hdone' : Owned (s.setStatus g .done) :=
      hown.setStatus_of_running hg fun q hq => by cases hq
    apply resume_linked (hdone'.store p r) (store_linked hdone p r) hres
    intro u q hu huw
    rw [waitingOf_store] at hu
    have hu' : s.waitingOf p = some u := hu
    rw [hw] at hu'
    exact absurd (Option.some.inj hu').symm huw

theorem complete_linked {r : Except (Thrown E) V} (hown : Owned s) (h : Linked s)
    (hstep : s.complete p r = some s') : Linked s' := by
  obtain ⟨g, -, hw, -, hres⟩ := complete_cases hstep
  apply resume_linked (hown.store p r) (store_linked h p r) hres
  intro u q hu hug
  rw [waitingOf_store, hw] at hu
  exact absurd (Option.some.inj hu).symm hug

/-! ## New objects, coroutines and moves -/

theorem spawn_linked (h : Linked s) : Linked s.spawn := by
  intro d q o hd ho
  have hd' : (if d = s.frames.length then some Status.running else s.status d) =
      some (.awaiting q) := (map_concat Frame.status s.frames _ d).symm.trans hd
  have ho' : (if d = s.frames.length then none else s.futureOf d) = some o :=
    (bind_concat Frame.future s.frames _ d).symm.trans ho
  split at hd'
  · cases hd'
  · rename_i hne
    rw [if_neg hne] at ho'
    exact h d q o hd' ho'

theorem make_linked (hown : Owned s) (h : Linked s) : Linked s.make := by
  intro d q o hd ho
  have hq := hown.bound d q hd
  have ho' := hown.future_lt ho
  rw [waitedOf, selfOf, make, bind_concat, bind_concat, if_neg (Nat.ne_of_lt ho'),
    if_neg (Nat.ne_of_lt hq)]
  exact h d q o hd ho

theorem call_linked (hown : Owned s) (h : Linked s) : Linked s.call := by
  intro d q o hd ho
  have hd' : (if d = s.frames.length then some Status.created else s.status d) =
      some (.awaiting q) := (map_concat Frame.status s.frames _ d).symm.trans hd
  have ho' : (if d = s.frames.length then some s.futures.length else s.futureOf d) = some o :=
    (bind_concat Frame.future s.frames _ d).symm.trans ho
  split at hd'
  · cases hd'
  · rename_i hne
    rw [if_neg hne] at ho'
    have hq := hown.bound d q hd'
    have holt := hown.future_lt ho'
    rw [waitedOf, selfOf, call, bind_concat, bind_concat, if_neg (Nat.ne_of_lt holt),
      if_neg (Nat.ne_of_lt hq)]
    exact h d q o hd' ho'

theorem move_linked (hown : Owned s) (h : Linked s) (hstep : s.move p = some s') : Linked s' := by
  obtain ⟨f, hf, hnot, hm⟩ := move_moved hown hstep
  intro d q o hd ho
  rw [hm.status] at hd
  rw [hm.futureOf] at ho
  have hq := hown.bound d q hd
  have hpq : p ≠ q := by
    rintro rfl
    exact hnot d hd
  rw [hm.selfOf, if_neg (Nat.ne_of_lt hq), if_neg hpq, hm.waitedOf]
  by_cases hfd : f.self = some d
  · have hold := h d q p hd ((hown.own d p).mpr ((selfOf_eq hf).trans hfd))
    rw [if_pos hfd] at ho
    rw [if_pos (Option.some.inj ho).symm, ← hold, waitedOf, hf, Option.bind_some]
  · rw [if_neg hfd] at ho
    have holt := hown.future_lt ho
    have hpo : p ≠ o := by
      rintro rfl
      exact hfd ((selfOf_eq hf).symm.trans ((hown.own d p).mp ho))
    rw [if_neg (Nat.ne_of_lt holt), if_neg hpo]
    exact h d q o hd ho

end Xyco.Runtime.Tasks
