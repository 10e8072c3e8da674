import Xyco.Runtime.GlobalRegistry

/-!
# Proofs: global registries

Only one thread of a runtime is in `add_thread` at a time, and live runtimes have different addresses.
So between the check and the insertion of a thread nobody else inserts under its address, and what the
map has for the address of a live runtime was made for that runtime, as long as it was not there
before the runtime was.
-/

namespace Xyco.Runtime

namespace CallPoint

/-- The thread has found its key missing. -/
def missed : CallPoint → Bool
  | .making | .inserting _ => true
  | _ => false

/-- The thread is in `add_thread`. -/
def inside : CallPoint → Bool
  | .outside | .done => false
  | _ => true

end CallPoint

namespace RuntimeObject

open Table

variable {o o' : RuntimeObject} {t u : ℕ} {p q : CallPoint}

/-- The constructing thread comes first, and then the workers under the mutex. -/
structure Serial (o : RuntimeObject) : Prop where
  first : ∀ (t : ℕ) p, o.threads[t]? = some p → t ≠ 0 → p ≠ .outside → o.threads[0]? = some .done
  mutex : ∀ (t : ℕ) p, o.threads[t]? = some p → t ≠ 0 → p.inside = true → o.launchMutex = some t

theorem outside_ne (hp : p.inside = true) : p ≠ .outside := by
  rintro rfl
  cases hp

theorem Serial.eq_zero (hs : Serial o) (h0 : o.threads[0]? = some p) (hp : p ≠ .done)
    (hq : o.threads[u]? = some q) (hne : q ≠ .outside) : u = 0 := by
  by_contra hu
  exact hp (Option.some.inj (h0.symm.trans (hs.first u q hq hu hne)))

theorem Serial.unique (hs : Serial o) (hp : o.threads[t]? = some p) (hq : o.threads[u]? = some q)
    (hpi : p.inside = true) (hqi : q.inside = true) : t = u := by
  have hdone : ∀ {r : CallPoint}, r.inside = true → r ≠ .done := by
    rintro r hr rfl
    cases hr
  by_cases ht : t = 0
  · subst ht
    exact (hs.eq_zero hp (hdone hpi) hq (outside_ne hqi)).symm
  · by_cases hu : u = 0
    · subst hu
      exact hs.eq_zero hq (hdone hqi) hp (outside_ne hpi)
    · exact Option.some.inj ((hs.mutex t p hp ht hpi).symm.trans (hs.mutex u q hq hu hqi))

theorem serial_new (address n : ℕ) :
    Serial ⟨address, true, none, List.replicate n .outside⟩ := by
  constructor
  · intro t p hp _ hne
    exact absurd (List.eq_of_mem_replicate (List.mem_of_getElem? hp)) hne
  · intro t p hp _ hpi
    exact absurd (List.eq_of_mem_replicate (List.mem_of_getElem? hp)) (outside_ne hpi)

/-- The constructing thread goes on, before the workers are started. -/
theorem Serial.zero (hs : Serial o) (hp : o.threads[0]? = some p) (hne : p ≠ .done)
    (hthreads : o'.threads = o.threads.set 0 q) : Serial o' := by
  have houtside : ∀ (u : ℕ) r, o'.threads[u]? = some r → u ≠ 0 → r = .outside := by
    intro u r hr hu
    rw [hthreads, get_set hp, if_neg hu] at hr
    by_contra hout
    exact hu (hs.eq_zero hp hne hr hout)
  constructor
  · intro u r hr hu hout
    exact absurd (houtside u r hr hu) hout
  · intro u r hr hu hri
    exact absurd (houtside u r hr hu) (outside_ne hri)

/-- A worker goes on. It is inside with the mutex only, and does not take it from another. -/
theorem Serial.worker (hs : Serial o) (hp : o.threads[t]? = some p) (ht : t ≠ 0)
    (h0 : o.threads[0]? = some .done) (hthreads : o'.threads = o.threads.set t q)
    (hq : q.inside = true → o'.launchMutex = some t)
    (hother : ∀ u, u ≠ t → o.launchMutex = some u → o'.launchMutex = some u) : Serial o' := by
  constructor
  · intro u r hr hu hout
    rw [hthreads, get_set hp, if_neg (Ne.symm ht)]
    exact h0
  · intro u r hr hu hri
    rw [hthreads, get_set hp] at hr
    split at hr
    · rename_i hut
      obtain rfl := Option.some.inj hr
      rw [hut]
      exact hq hri
    · rename_i hut
      exact hother u hut (hs.mutex u r hr hu hri)

/-- A thread goes on inside `add_thread`. -/
theorem Serial.inside (hs : Serial o) (hp : o.threads[t]? = some p) (hpi : p.inside = true) :
    Serial (o.goTo t q) := by
  by_cases ht : t = 0
  · subst ht
    exact hs.zero hp (by rintro rfl; cases hpi) rfl
  · have h0 := hs.first t p hp ht (outside_ne hpi)
    exact hs.worker hp ht h0 rfl (fun _ => hs.mutex t p hp ht hpi) fun _ _ h => h

end RuntimeObject

namespace GlobalRegistry

open Machine Table RuntimeObject

variable {s s' : GlobalRegistry} {a : RegistryAction} {r t i : ℕ} {o o' : RuntimeObject}
variable {p q : CallPoint}

/-! ## What one step does -/

inductive Turn (s : GlobalRegistry) : RegistryAction → GlobalRegistry → Prop where
  | construct {address n : ℕ} (hfree : ∀ o ∈ s.runtimes, o.alive = true → o.address ≠ address) :
      Turn s (.construct address n) { s with
        runtimes := s.runtimes ++ [⟨address, true, none, List.replicate (n + 1) .outside⟩] }
  | move {a : RegistryAction} {r t : ℕ} {o o' : RuntimeObject} {p q : CallPoint}
      (ho : s.runtimes[r]? = some o) (hp : o.threads[t]? = some p) (hne : p ≠ .done)
      (haddress : o'.address = o.address) (halive : o'.alive = o.alive)
      (hthreads : o'.threads = o.threads.set t q) (hserial : Serial o → Serial o')
      (hq : q.missed = true → q = .making ∧ s.find o.address = none) :
      Turn s a (s.setRuntime r o')
  | hit {a : RegistryAction} {r t i : ℕ} {o : RuntimeObject} (ho : s.runtimes[r]? = some o)
      (hp : o.threads[t]? = some .checking) (hi : s.find o.address = some i) :
      Turn s a
        ({ s with returned := s.returned ++ [(r, i)] }.setRuntime r (o.goTo t .adding))
  | make {a : RegistryAction} {r t : ℕ} {o : RuntimeObject} (ho : s.runtimes[r]? = some o)
      (hp : o.threads[t]? = some .making) :
      Turn s a
        ({ s with made := s.made ++ [r] }.setRuntime r (o.goTo t (.inserting s.made.length)))
  | insert {a : RegistryAction} {r t i : ℕ} {o : RuntimeObject} (ho : s.runtimes[r]? = some o)
      (hp : o.threads[t]? = some (.inserting i)) :
      Turn s a
        ({ s with
          registries := (o.address, i) :: s.registries
          returned := s.returned ++ [(r, i)] }.setRuntime r (o.goTo t .adding))
  | destroy {a : RegistryAction} {r : ℕ} {o : RuntimeObject} (ho : s.runtimes[r]? = some o)
      (hdone : ∀ p ∈ o.threads, p = .done) :
      Turn s a (s.setRuntime r { o with alive := false })

theorem enter_cases (hstep : s.enter r t = some s') : Turn s a s' := by
  unfold enter at hstep
  split at hstep
  · cases hstep
  · rename_i o ho
    split at hstep
    · rename_i hp
      split at hstep
      · rename_i ht
        subst ht
        obtain rfl := Option.some.inj hstep
        exact .move ho hp nofun rfl rfl rfl (fun hs => hs.zero hp nofun rfl) nofun
      · rename_i ht
        obtain ⟨⟨h0, hfree⟩, rfl⟩ := eq_of_guard hstep
        refine .move ho hp nofun rfl rfl rfl (fun hs => ?_) nofun
        refine hs.worker hp ht h0 rfl (fun _ => rfl) fun u _ hu => ?_
        rw [hfree] at hu
        cases hu
    · cases hstep

theorem call_cases (hstep : s.call r t = some s') : Turn s a s' := by
  unfold call at hstep
  split at hstep
  · cases hstep
  · rename_i o ho
    obtain ⟨hp, rfl⟩ := eq_of_guard hstep
    exact .move ho hp nofun rfl rfl rfl (fun hs => hs.inside hp rfl) nofun

theorem advance_cases (hstep : s.advance r t = some s') : Turn s a s' := by
  unfold advance at hstep
  split at hstep
  · cases hstep
  · rename_i o ho
    split at hstep
    · rename_i hp
      split at hstep
      · rename_i i hi
        obtain rfl := Option.some.inj hstep
        exact .hit ho hp hi
      · rename_i hnone
        obtain rfl := Option.some.inj hstep
        exact .move ho hp nofun rfl rfl rfl (fun hs => hs.inside hp rfl) fun _ => ⟨rfl, hnone⟩
    · rename_i hp
      obtain rfl := Option.some.inj hstep
      exact .make ho hp
    · rename_i i hp
      obtain rfl := Option.some.inj hstep
      exact .insert ho hp
    · cases hstep

theorem leave_cases (hstep : s.leave r t = some s') : Turn s a s' := by
  unfold leave at hstep
  split at hstep
  · cases hstep
  · rename_i o ho
    split at hstep
    · rename_i hp
      split at hstep
      · rename_i ht
        subst ht
        obtain rfl := Option.some.inj hstep
        exact .move ho hp nofun rfl rfl rfl (fun hs => hs.zero hp nofun rfl) nofun
      · rename_i ht
        obtain rfl := Option.some.inj hstep
        refine .move ho hp nofun rfl rfl rfl (fun hs => ?_) nofun
        have h0 := hs.first t _ hp ht nofun
        have hmutex := hs.mutex t _ hp ht rfl
        refine hs.worker hp ht h0 rfl nofun fun u hu hother => ?_
        rw [hmutex] at hother
        exact absurd (Option.some.inj hother).symm hu
    · cases hstep

theorem destroy_cases (hstep : s.destroy r = some s') : Turn s a s' := by
  unfold destroy at hstep
  split at hstep
  · cases hstep
  · rename_i o ho
    obtain ⟨⟨-, hdone⟩, rfl⟩ := eq_of_guard hstep
    exact .destroy ho hdone

theorem step_cases (hstep : s.step a = some s') : Turn s a s' := by
  cases a with
  | construct address n =>
    obtain ⟨hfree, rfl⟩ := eq_of_guard hstep
    exact .construct hfree
  | enter r t => exact enter_cases hstep
  | call r t => exact call_cases hstep
  | advance r t => exact advance_cases hstep
  | leave r t => exact leave_cases hstep
  | destroy r => exact destroy_cases hstep

/-! ## Whose registry it is -/

structure Owned (s : GlobalRegistry) : Prop where
  serial : ∀ (r : ℕ) o, s.runtimes[r]? = some o → Serial o
  dead : ∀ (r : ℕ) o, s.runtimes[r]? = some o → o.alive = false → ∀ p ∈ o.threads, p = .done
  distinct : ∀ (r r' : ℕ) o o', s.runtimes[r]? = some o → s.runtimes[r']? = some o' →
    o.alive = true → o'.alive = true → o.address = o'.address → r = r'
  current : ∀ (r : ℕ) o, s.runtimes[r]? = some o → o.alive = true →
    ∀ i, s.find o.address = some i → s.made[i]? = some r
  missed : ∀ (r : ℕ) o, s.runtimes[r]? = some o → ∀ (t : ℕ) p, o.threads[t]? = some p →
    p.missed = true → s.find o.address = none
  pending : ∀ (r : ℕ) o, s.runtimes[r]? = some o → ∀ (t : ℕ) p, o.threads[t]? = some p →
    ∀ i, p = .inserting i → s.made[i]? = some r
  made : ∀ x ∈ s.returned, s.made[x.2]? = some x.1
  kept : ∀ x ∈ s.returned, ∃ o, s.runtimes[x.1]? = some o ∧ s.find o.address = some x.2

theorem owned_init : Owned init where
  serial := nofun
  dead := nofun
  distinct := nofun
  current := nofun
  missed := nofun
  pending := nofun
  made := nofun
  kept := nofun

theorem Owned.onePerRuntime (hs : Owned s) : s.OnePerRuntime := by
  intro x hx y hy
  constructor
  · intro heq
    have hmade := hs.made x hx
    rw [heq, hs.made y hy] at hmade
    exact (Option.some.inj hmade).symm
  · intro heq
    obtain ⟨o, ho, hfind⟩ := hs.kept x hx
    obtain ⟨o', ho', hfind'⟩ := hs.kept y hy
    rw [heq, ho'] at ho
    obtain rfl := Option.some.inj ho
    exact Option.some.inj (hfind.symm.trans hfind')

/-- A thread that is not done belongs to a live runtime. -/
theorem Owned.alive (hs : Owned s) (ho : s.runtimes[r]? = some o) (hp : o.threads[t]? = some p)
    (hne : p ≠ .done) : o.alive = true := by
  by_contra hdead
  exact hne (hs.dead r o ho (Bool.eq_false_iff.mpr hdead) p (List.mem_of_getElem? hp))

/-- The runtimes after a change of one that keeps its address and its life. -/
theorem runtime_before (ho : s.runtimes[r]? = some o) (hruntimes : s'.runtimes = s.runtimes.set r o')
    (haddress : o'.address = o.address) (halive : o'.alive = o.alive) (v : ℕ) (x : RuntimeObject)
    (hx : s'.runtimes[v]? = some x) :
    ∃ y, s.runtimes[v]? = some y ∧ x.address = y.address ∧ x.alive = y.alive := by
  rw [hruntimes, get_set ho] at hx
  split at hx
  · rename_i hv
    obtain rfl := Option.some.inj hx
    exact ⟨o, hv ▸ ho, haddress, halive⟩
  · exact ⟨x, hx, rfl, rfl⟩

theorem runtime_after {g : GlobalRegistry} (ho : s.runtimes[r]? = some o)
    (hruntimes : g.runtimes = s.runtimes.set r o') (haddress : o'.address = o.address) (v : ℕ)
    (y : RuntimeObject) (hy : s.runtimes[v]? = some y) :
    ∃ x, g.runtimes[v]? = some x ∧ x.address = y.address := by
  rw [hruntimes, get_set ho]
  split
  · rename_i hv
    rw [hv, ho] at hy
    obtain rfl := Option.some.inj hy
    exact ⟨o', rfl, haddress⟩
  · exact ⟨y, hy, rfl⟩

theorem Owned.distinct_after (hs : Owned s)
    (hbefore : ∀ (v : ℕ) x, s'.runtimes[v]? = some x →
      ∃ y, s.runtimes[v]? = some y ∧ x.address = y.address ∧ x.alive = y.alive) :
    ∀ (v v' : ℕ) x x', s'.runtimes[v]? = some x → s'.runtimes[v']? = some x' →
      x.alive = true → x'.alive = true → x.address = x'.address → v = v' := by
  intro v v' x x' hx hx' hlx hlx' heq
  obtain ⟨y, hy, hay, hly⟩ := hbefore v x hx
  obtain ⟨y', hy', hay', hly'⟩ := hbefore v' x' hx'
  exact hs.distinct v v' y y' hy hy' (hly ▸ hlx) (hly' ▸ hlx') (hay ▸ hay' ▸ heq)

/-- A thread goes on, and the map stays as it is. -/
theorem Owned.of_thread (hs : Owned s) (ho : s.runtimes[r]? = some o)
    (hp : o.threads[t]? = some p) (hne : p ≠ .done)
    (hruntimes : s'.runtimes = s.runtimes.set r o') (hregistries : s'.registries = s.registries)
    (haddress : o'.address = o.address) (halive : o'.alive = o.alive)
    (hthreads : o'.threads = o.threads.set t q) (hserial : Serial o')
    (hmade : ∀ (i : ℕ) x, s.made[i]? = some x → s'.made[i]? = some x)
    (hmissed : q.missed = true → s.find o.address = none)
    (hpending : ∀ i, q = .inserting i → s'.made[i]? = some r)
    (hreturned : ∀ x ∈ s'.returned, x ∈ s.returned ∨ x.1 = r ∧ s.find o.address = some x.2) :
    Owned s' := by
  have hfind : ∀ address, s'.find address = s.find address := by
    intro address
    rw [find, find, hregistries]
  have hlive := hs.alive ho hp hne
  have hbefore := runtime_before ho hruntimes haddress halive
  have hafter := runtime_after ho hruntimes haddress
  refine ⟨?_, ?_, ?_, ?_, ?_, ?_, ?_, ?_⟩
  · rw [hruntimes]
    exact forall_set hs.serial hserial
  · rw [hruntimes]
    refine forall_set hs.dead fun hdead => ?_
    cases (halive.trans hlive).symm.trans hdead
  · exact hs.distinct_after hbefore
  · intro v x hx hlx i hi
    obtain ⟨y, hy, hay, hly⟩ := hbefore v x hx
    rw [hfind, hay] at hi
    exact hmade i v (hs.current v y hy (hly ▸ hlx) i hi)
  · rw [hruntimes]
    apply forall_set
    · intro v x hx u c hc hmc
      rw [hfind]
      exact hs.missed v x hx u c hc hmc
    · rw [hthreads, haddress]
      apply forall_set
      · intro u c hc hmc
        rw [hfind]
        exact hs.missed r o ho u c hc hmc
      · intro hmq
        rw [hfind]
        exact hmissed hmq
  · rw [hruntimes]
    apply forall_set
    · intro v x hx u c hc i hi
      exact hmade i v (hs.pending v x hx u c hc i hi)
    · rw [hthreads]
      apply forall_set
      · intro u c hc i hi
        exact hmade i r (hs.pending r o ho u c hc i hi)
      · exact hpending
  · intro x hx
    rcases hreturned x hx with hold | ⟨rfl, hi⟩
    · exact hmade x.2 x.1 (hs.made x hold)
    · exact hmade x.2 x.1 (hs.current x.1 o ho hlive x.2 hi)
  · intro x hx
    rcases hreturned x hx with hold | ⟨rfl, hi⟩
    · obtain ⟨y, hy, hfy⟩ := hs.kept x hold
      obtain ⟨z, hz, haz⟩ := hafter x.1 y hy
      exact ⟨z, hz, by rw [hfind, haz, hfy]⟩
    · obtain ⟨z, hz, haz⟩ := hafter x.1 o ho
      exact ⟨z, hz, by rw [hfind, haz, hi]⟩

theorem find_insert (hregistries : s'.registries = (o.address, i) :: s.registries) (address : ℕ) :
    s'.find address = if address = o.address then some i else s.find address := by
  rw [find, hregistries, List.lookup_cons]
  by_cases h : address = o.address
  · rw [if_pos h, beq_iff_eq.mpr h]
  · rw [if_neg h, beq_eq_false_iff_ne.mpr h]
    rfl

/-- Another thread that has missed the same address would be one of this runtime, and in `add_thread`
as well. -/
theorem Owned.alone (hs : Owned s) (ho : s.runtimes[r]? = some o)
    (hp : o.threads[t]? = some (.inserting i)) {v u : ℕ} {x : RuntimeObject} {c : CallPoint}
    (hx : s.runtimes[v]? = some x) (hc : x.threads[u]? = some c) (hmc : c.missed = true)
    (heq : x.address = o.address) : v = r ∧ u = t := by
  have hlive := hs.alive ho hp nofun
  have hci : c.inside = true := by cases c <;> first | rfl | cases hmc
  have hlx := hs.alive hx hc (by rintro rfl; cases hmc)
  obtain rfl := hs.distinct v r x o hx ho hlx hlive heq
  obtain rfl := Option.some.inj (hx.symm.trans ho)
  exact ⟨rfl, (hs.serial v x ho).unique hc hp hci rfl⟩

/-- The registry that a thread has made is stored. -/
theorem Owned.insert (hs : Owned s) (ho : s.runtimes[r]? = some o)
    (hp : o.threads[t]? = some (.inserting i))
    (hruntimes : s'.runtimes = s.runtimes.set r (o.goTo t .adding))
    (hregistries : s'.registries = (o.address, i) :: s.registries) (hmade : s'.made = s.made)
    (hreturned : s'.returned = s.returned ++ [(r, i)]) : Owned s' := by
  have hfind := find_insert hregistries
  have hlive := hs.alive ho hp nofun
  have hnone := hs.missed r o ho t _ hp rfl
  have hown := hs.pending r o ho t _ hp i rfl
  have hserial := hs.serial r o ho
  have hbefore := runtime_before ho hruntimes rfl rfl
  have hafter := runtime_after ho hruntimes rfl
  refine ⟨?_, ?_, ?_, ?_, ?_, ?_, ?_, ?_⟩
  · rw [hruntimes]
    exact forall_set hs.serial (hserial.inside hp rfl)
  · rw [hruntimes]
    refine forall_set hs.dead fun hdead => ?_
    cases hlive.symm.trans hdead
  · exact hs.distinct_after hbefore
  · intro v x hx hlx j hj
    obtain ⟨y, hy, hay, hly⟩ := hbefore v x hx
    rw [hmade]
    rw [hfind, hay] at hj
    split at hj
    · rename_i heq
      obtain rfl := Option.some.inj hj
      obtain rfl := hs.distinct v r y o hy ho (hly ▸ hlx) hlive heq
      exact hown
    · exact hs.current v y hy (hly ▸ hlx) j hj
  · rw [hruntimes]
    intro v x hx u c hc hmc
    rw [get_set ho] at hx
    split at hx
    · rename_i hvr
      subst hvr
      obtain rfl := Option.some.inj hx
      have hc' : (o.threads.set t .adding)[u]? = some c := hc
      rw [get_set hp] at hc'
      split at hc'
      · obtain rfl := Option.some.inj hc'
        cases hmc
      · rename_i hut
        exact absurd (hs.alone ho hp ho hc' hmc rfl).2 hut
    · rename_i hvr
      rw [hfind, if_neg fun heq => hvr (hs.alone ho hp hx hc hmc heq).1]
      exact hs.missed v x hx u c hc hmc
  · rw [hruntimes, hmade]
    exact forall_set hs.pending (forall_set (hs.pending r o ho) nofun)
  · rw [hreturned, hmade]
    exact forall_mem_concat hs.made hown
  · rw [hreturned]
    apply forall_mem_concat
    · intro x hx
      obtain ⟨y, hy, hfy⟩ := hs.kept x hx
      obtain ⟨z, hz, haz⟩ := hafter x.1 y hy
      refine ⟨z, hz, ?_⟩
      rw [hfind, haz, if_neg, hfy]
      intro heq
      rw [heq, hnone] at hfy
      cases hfy
    · obtain ⟨z, hz, haz⟩ := hafter r o ho
      exact ⟨z, hz, by rw [hfind, if_pos haz]⟩

theorem Owned.construct (hs : Owned s) {address n : ℕ}
    (hfree : ∀ o ∈ s.runtimes, o.alive = true → o.address ≠ address) (hnew : s.find address = none) :
    Owned { s with
      runtimes := s.runtimes ++ [⟨address, true, none, List.replicate (n + 1) .outside⟩] } := by
  have houtside : ∀ (t : ℕ) p, (List.replicate (n + 1) CallPoint.outside)[t]? = some p →
      p = .outside := fun t p hp => List.eq_of_mem_replicate (List.mem_of_getElem? hp)
  refine ⟨?_, ?_, ?_, ?_, ?_, ?_, hs.made, ?_⟩
  · exact forall_concat hs.serial (serial_new address (n + 1))
  · exact forall_concat hs.dead nofun
  · intro v v' x x' hx hx' hlx hlx' heq
    have hold : ∀ (w : ℕ) z, s.runtimes[w]? = some z → z.alive = true → z.address ≠ address :=
      fun w z hz => hfree z (List.mem_of_getElem? hz)
    rw [get_concat] at hx hx'
    split at hx
    · rename_i hv
      obtain rfl := Option.some.inj hx
      split at hx'
      · rename_i hv'
        rw [hv, hv']
      · exact absurd heq.symm (hold v' x' hx' hlx')
    · split at hx'
      · obtain rfl := Option.some.inj hx'
        exact absurd heq (hold v x hx hlx)
      · exact hs.distinct v v' x x' hx hx' hlx hlx' heq
  · refine forall_concat hs.current fun _ i hi => ?_
    cases hnew.symm.trans hi
  · refine forall_concat hs.missed fun t p hp hmp => ?_
    obtain rfl := houtside t p hp
    cases hmp
  · refine forall_concat hs.pending fun t p hp i hpi => ?_
    obtain rfl := houtside t p hp
    cases hpi
  · intro x hx
    obtain ⟨y, hy, hfy⟩ := hs.kept x hx
    refine ⟨y, ?_, hfy⟩
    obtain ⟨hlt, -⟩ := List.getElem?_eq_some_iff.mp hy
    exact (List.getElem?_append_left hlt).trans hy

theorem Owned.destroy (hs : Owned s) (ho : s.runtimes[r]? = some o)
    (hdone : ∀ p ∈ o.threads, p = .done) : Owned (s.setRuntime r { o with alive := false }) := by
  have hlive : ∀ (v : ℕ) x, (s.setRuntime r { o with alive := false }).runtimes[v]? = some x →
      x.alive = true → s.runtimes[v]? = some x := by
    intro v x hx hlx
    have hx' : (s.runtimes.set r { o with alive := false })[v]? = some x := hx
    rw [get_set ho] at hx'
    split at hx'
    · obtain rfl := Option.some.inj hx'
      cases hlx
    · exact hx'
  have hserial := hs.serial r o ho
  refine ⟨?_, ?_, ?_, ?_, ?_, ?_, hs.made, ?_⟩
  · exact forall_set hs.serial ⟨hserial.first, hserial.mutex⟩
  · exact forall_set hs.dead fun _ => hdone
  · intro v v' x x' hx hx' hlx hlx'
    exact hs.distinct v v' x x' (hlive v x hx hlx) (hlive v' x' hx' hlx') hlx hlx'
  · intro v x hx hlx
    exact hs.current v x (hlive v x hx hlx) hlx
  · exact forall_set hs.missed (hs.missed r o ho)
  · exact forall_set hs.pending (hs.pending r o ho)
  · intro x hx
    obtain ⟨y, hy, hfy⟩ := hs.kept x hx
    obtain ⟨z, hz, haz⟩ := runtime_after ho (g := s.setRuntime r { o with alive := false }) rfl rfl
      x.1 y hy
    exact ⟨z, hz, haz ▸ hfy⟩

theorem step_owned (hs : Owned s) (hnew : s.NewAddress a) (hstep : s.step a = some s') : Owned s' := by
  cases step_cases hstep with
  | construct hfree => exact hs.construct hfree hnew
  | move ho hp hne haddress halive hthreads hserial hq =>
    refine hs.of_thread ho hp hne rfl rfl haddress halive hthreads (hserial (hs.serial _ _ ho))
      (fun _ _ h => h) (fun hmq => (hq hmq).2) (fun i hi => ?_) fun _ hx => Or.inl hx
    subst hi
    cases (hq rfl).1
  | hit ho hp hi =>
    refine hs.of_thread ho hp nofun rfl rfl rfl rfl rfl ((hs.serial _ _ ho).inside hp rfl)
      (fun _ _ h => h) nofun nofun ?_
    exact forall_mem_concat (fun _ hx => Or.inl hx) (Or.inr ⟨rfl, hi⟩)
  | make ho hp =>
    refine hs.of_thread ho hp nofun rfl rfl rfl rfl rfl ((hs.serial _ _ ho).inside hp rfl)
      ?_ (fun _ => hs.missed _ _ ho _ _ hp rfl) ?_ fun _ hx => Or.inl hx
    · intro i x hx
      obtain ⟨hlt, -⟩ := List.getElem?_eq_some_iff.mp hx
      exact (List.getElem?_append_left hlt).trans hx
    · rintro i hi
      cases hi
      exact List.getElem?_concat_length
  | insert ho hp => exact hs.insert ho hp rfl rfl rfl rfl
  | destroy ho hdone => exact hs.destroy ho hdone

/-- For every history of runtimes that are constructed and destroyed, and every interleaving of their
threads: if no runtime is constructed at an address that the map has an entry for, two calls of
`get_instance` return the same registry if and only if they were made for the same runtime. -/
theorem one_registry_per_runtime (as : List RegistryAction) (s : GlobalRegistry)
    (hrun : run step init as = some s) (hnew : Along step NewAddress init as) : s.OnePerRuntime := by
  have howned : Owned s :=
    run_invariant_along (fun _ _ _ hs hg hstep => step_owned hs hg hstep) owned_init hnew hrun
  exact howned.onePerRuntime

/-- Two runtimes at a time, one with a worker, and a third one at an address that was never used. -/
theorem one_registry_per_runtime_three :
    ∃ as s, run step init as = some s ∧ Along step NewAddress init as ∧
      s.returned = [(1, 1), (0, 0), (0, 0), (2, 2)] ∧ s.OnePerRuntime := by
  have hrun : ∃ as s, run step init as = some s ∧ Along step NewAddress init as ∧
      s.returned = [(1, 1), (0, 0), (0, 0), (2, 2)] := by
    refine ⟨[.construct 10 1, .construct 20 0, .enter 0 0, .call 0 0, .advance 0 0, .advance 0 0,
      .enter 1 0, .call 1 0, .advance 1 0, .advance 1 0, .advance 1 0, .advance 0 0, .leave 0 0,
      .leave 1 0, .destroy 1, .enter 0 1, .call 0 1, .advance 0 1, .leave 0 1, .construct 30 0,
      .enter 2 0, .call 2 0, .advance 2 0, .advance 2 0, .advance 2 0], ?_⟩
    exact exists_run (by decide)
  obtain ⟨as, s, hrun, hnew, hreturned⟩ := hrun
  exact ⟨as, s, hrun, hnew, hreturned, one_registry_per_runtime as s hrun hnew⟩

/-- A runtime without workers is destroyed, and the next one is constructed at its address: it gets
the registry of the first. -/
theorem registry_of_destroyed_runtime :
    ∃ s, run step init
      [.construct 10 0, .enter 0 0, .call 0 0, .advance 0 0, .advance 0 0, .advance 0 0, .leave 0 0,
       .destroy 0, .construct 10 0, .enter 1 0, .call 1 0, .advance 1 0] = some s ∧
      s.returned = [(0, 0), (1, 0)] ∧ ¬ s.OnePerRuntime :=
  exists_run (by decide)

end GlobalRegistry

end Xyco.Runtime
