import Xyco.Net.UringStream

/-!
# Proofs: a stream on io_uring

If each operation starts after the ones before it are over, there is one request at a time, and it is
the request of the one future that is suspended. What `select` stores is then the result of that
request, and `future_` is that future.
-/

namespace Xyco.Net.UringStream

open Machine Table Io

variable {s t : UringStream} {a : StreamAction} {i j r thread : ℕ} {op op' : StreamOp}
variable {q : StreamRequest} {res : ℤ}

/-! ## Operations -/

/-- What is known of an operation in its phase. -/
def OpOk (s : UringStream) (i : ℕ) (op : StreamOp) : Prop :=
  match op.phase with
  | .fresh | .abandoned => True
  | .suspended => s.future = some i ∧ ∃ r q, op.request = some r ∧ s.requests[r]? = some q ∧ q.op = i ∧
      (q.phase.outstanding = true ∨
        s.ready ≠ [] ∧ s.extra.completed = true ∧ q.phase = .consumed s.extra.ret)
  | .queued => s.ready = [] ∧ s.extra.completed = true ∧ s.Answered i op s.extra.ret
  | .ready result | .finished result => ∃ res, s.Answered i op res ∧ result = op.output res

/-- Requests that are consumed stay so. -/
def Keeps (s t : UringStream) : Prop :=
  ∀ (r : ℕ) q res, s.requests[r]? = some q → q.phase = .consumed res → t.requests[r]? = some q

theorem Keeps.answered (hk : Keeps s t) (h : s.Answered i op res) : t.Answered i op res := by
  obtain ⟨r, q, hr, hq, hi, hp⟩ := h
  exact ⟨r, q, hr, hk r q res hq hp, hi, hp⟩

theorem Keeps.of_eq (h : t.requests = s.requests) : Keeps s t := by
  intro r q res hq _
  rw [h]
  exact hq

theorem OpOk.suspended (h : OpOk s i op) (hp : op.phase = .suspended) :
    s.future = some i ∧ ∃ r q, op.request = some r ∧ s.requests[r]? = some q ∧ q.op = i ∧
      (q.phase.outstanding = true ∨
        s.ready ≠ [] ∧ s.extra.completed = true ∧ q.phase = .consumed s.extra.ret) := by
  unfold OpOk at h
  rw [hp] at h
  exact h

theorem OpOk.queued (h : OpOk s i op) (hp : op.phase = .queued) :
    s.ready = [] ∧ s.extra.completed = true ∧ s.Answered i op s.extra.ret := by
  unfold OpOk at h
  rw [hp] at h
  exact h

theorem opOk_suspended (hp : op.phase = .suspended) (hfuture : s.future = some i)
    (hr : op.request = some r) (hq : s.requests[r]? = some q) (hi : q.op = i)
    (hphase : q.phase.outstanding = true ∨
      s.ready ≠ [] ∧ s.extra.completed = true ∧ q.phase = .consumed s.extra.ret) : OpOk s i op := by
  unfold OpOk
  rw [hp]
  exact ⟨hfuture, r, q, hr, hq, hi, hphase⟩

/-- Only an operation that waits or is in the run queue depends on the event. -/
theorem OpOk.transfer (h : OpOk s i op) (hk : Keeps s t)
    (hsuspended : op.phase = .suspended → OpOk t i op) (hqueued : op.phase = .queued → OpOk t i op) :
    OpOk t i op := by
  cases hp : op.phase with
  | suspended => exact hsuspended hp
  | queued => exact hqueued hp
  | fresh | abandoned =>
    unfold OpOk
    rw [hp]
    trivial
  | ready result | finished result =>
    unfold OpOk at h ⊢
    rw [hp] at h ⊢
    obtain ⟨res, hres, heq⟩ := h
    exact ⟨res, hk.answered hres, heq⟩

theorem OpOk.keep (h : OpOk s i op) (hk : Keeps s t) (hinactive : op.phase.active = false) :
    OpOk t i op := by
  refine h.transfer hk (fun hp => ?_) fun hp => ?_
  · rw [hp] at hinactive
    cases hinactive
  · rw [hp] at hinactive
    cases hinactive

/-- No other operation than `i` is active. -/
def Only (s : UringStream) (i : ℕ) : Prop :=
  ∀ (j : ℕ) op, s.ops[j]? = some op → op.phase.active = true → j = i

structure Solo (s : UringStream) : Prop where
  unique : ∀ (i : ℕ) op, s.ops[i]? = some op → op.phase.active = true → s.Only i
  each : ∀ (i : ℕ) op, s.ops[i]? = some op → OpOk s i op

/-- One operation goes on, and no other one is active. -/
theorem Solo.set (hs : Solo s) (hop : s.ops[i]? = some op) (honly : s.Only i)
    (hops : t.ops = s.ops.set i op') (hk : Keeps s t) (hok : OpOk t i op') : Solo t := by
  have honly' : t.Only i := by
    intro j x hx hactive
    rw [hops, get_set hop] at hx
    split at hx
    · assumption
    · exact honly j x hx hactive
  constructor
  · intro j x hx hactive
    obtain rfl := honly' j x hx hactive
    exact honly'
  · intro j x hx
    rw [hops, get_set hop] at hx
    split at hx
    · rename_i hji
      obtain rfl := Option.some.inj hx
      rw [hji]
      exact hok
    · rename_i hji
      refine (hs.each j x hx).keep hk (Bool.eq_false_iff.mpr fun hactive => ?_)
      exact hji (honly j x hx hactive)

/-- All operations stay as they are. -/
theorem Solo.same (hs : Solo s) (hops : t.ops = s.ops)
    (heach : ∀ (i : ℕ) op, s.ops[i]? = some op → OpOk s i op → OpOk t i op) : Solo t := by
  constructor
  · intro i x hx hactive j y hy
    rw [hops] at hx hy
    exact hs.unique i x hx hactive j y hy
  · intro i x hx
    rw [hops] at hx
    exact heach i x hx (hs.each i x hx)

theorem Solo.create (hs : Solo s) (args : UringArgs) : Solo (s.create args) := by
  constructor
  · refine forall_concat ?_ nofun
    intro i x hx hactive
    exact forall_concat (hs.unique i x hx hactive) nofun
  · refine forall_concat ?_ trivial
    intro i x hx
    exact hs.each i x hx

/-! ## Requests -/

structure Flow (s : UringStream) : Prop where
  single : s.requests.countP (fun q => q.phase.outstanding) + (if s.extra.completed then 1 else 0) ≤ 1
  brief : s.ready.length ≤ 1
  early : s.ready ≠ [] → s.extra.completed = true
  listed : ∀ q ∈ s.requests, q.phase.outstanding = true → s.registered = [q.thread]
  unlisted : (∀ q ∈ s.requests, q.phase.outstanding = false) →
    s.registered = [] ∧ s.extra.registered = false

/-- The requests and the event stay as they are. -/
theorem Flow.same (hf : Flow s) (hrequests : t.requests = s.requests) (hextra : t.extra = s.extra)
    (hregistered : t.registered = s.registered) (hready : t.ready = s.ready) : Flow t := by
  constructor
  · rw [hrequests, hextra]
    exact hf.single
  · rw [hready]
    exact hf.brief
  · rw [hready, hextra]
    exact hf.early
  · rw [hrequests, hregistered]
    exact hf.listed
  · rw [hrequests, hregistered, hextra]
    exact hf.unlisted

/-- A request that is outstanding is the only one, and there is no result to be taken. -/
theorem Flow.alone (hf : Flow s) (hq : s.requests[r]? = some q) (hout : q.phase.outstanding = true) :
    s.extra.completed = false ∧ s.ready = [] ∧ s.registered = [q.thread] := by
  have hmem := List.mem_of_getElem? hq
  have hpos : 0 < s.requests.countP fun q => q.phase.outstanding :=
    List.countP_pos_iff.mpr ⟨q, hmem, hout⟩
  have hsingle := hf.single
  have hcompleted : s.extra.completed = false := by
    by_contra h
    rw [if_pos (Bool.not_eq_false _ ▸ h)] at hsingle
    omega
  refine ⟨hcompleted, ?_, hf.listed q hmem hout⟩
  by_contra hne
  rw [hf.early hne] at hcompleted
  cases hcompleted

/-- Without it no request is outstanding. -/
theorem Flow.rest (hf : Flow s) (hq : s.requests[r]? = some q)
    (hout : q.phase.outstanding = true) {p : StreamRequest} (hout' : p.phase.outstanding = false) :
    ∀ x ∈ s.requests.set r p, x.phase.outstanding = false := by
  have hset := Table.countP_set hq (fun q => q.phase.outstanding) p
  have hsingle := hf.single
  rw [if_pos hout, if_neg (Bool.eq_false_iff.mp hout')] at hset
  have hzero : (s.requests.set r p).countP (fun q => q.phase.outstanding) = 0 := by
    split at hsingle <;> omega
  exact fun x hx => Bool.eq_false_iff.mpr (List.countP_eq_zero.mp hzero x hx)

theorem Flow.unique (hf : Flow s) (hq : s.requests[r]? = some q) (hout : q.phase.outstanding = true)
    {v : ℕ} {x : StreamRequest} (hx : s.requests[v]? = some x) (hxo : x.phase.outstanding = true) :
    v = r := by
  by_contra hvr
  have hnone := hf.rest hq hout (p := { q with phase := .consumed 0 }) rfl
  have hmem : x ∈ s.requests.set r { q with phase := .consumed 0 } := by
    apply List.mem_of_getElem? (i := v)
    rw [get_set hq, if_neg hvr]
    exact hx
  rw [hnone x hmem] at hxo
  cases hxo

/-- Once there is a result to be taken, no request is outstanding. -/
theorem Flow.settled (hf : Flow s) (hcompleted : s.extra.completed = true) :
    ∀ q ∈ s.requests, q.phase.outstanding = false := by
  have hsingle := hf.single
  rw [hcompleted, if_pos rfl] at hsingle
  have hzero : s.requests.countP (fun q => q.phase.outstanding) = 0 := by omega
  exact fun q hq => Bool.eq_false_iff.mpr (List.countP_eq_zero.mp hzero q hq)

structure Good (s : UringStream) : Prop where
  solo : Solo s
  flow : Flow s

theorem good_init (fd : ℤ) : Good (init fd) :=
  ⟨⟨nofun, nofun⟩, ⟨Nat.zero_le 1, Nat.zero_le 1, fun h => absurd rfl h, nofun, fun _ => ⟨rfl, rfl⟩⟩⟩

/-! ## The steps -/

theorem Good.poll_ready (hs : Good s) (hop : s.ops[i]? = some op) (hqueued : op.phase = .queued) :
    Good ({ s with extra := { s.extra with completed := false } }.setOp i
      { op with phase := .ready (op.output s.extra.ret) }) := by
  obtain ⟨hready, hcompleted, hanswered⟩ := (hs.solo.each i op hop).queued hqueued
  have hactive : op.phase.active = true := by
    rw [hqueued]
    rfl
  refine ⟨?_, ?_⟩
  · refine hs.solo.set hop (hs.solo.unique i op hop hactive) rfl (Keeps.of_eq rfl) ?_
    exact ⟨s.extra.ret, hanswered, rfl⟩
  · have hsingle := hs.flow.single
    refine ⟨?_, hs.flow.brief, fun hne => absurd hready hne, hs.flow.listed, hs.flow.unlisted⟩
    show s.requests.countP _ + (if false = true then 1 else 0) ≤ 1
    rw [if_neg Bool.false_ne_true]
    omega

/-- The first `poll` of an operation, with nothing left of the earlier ones. -/
theorem Good.poll_first (hs : Good s) (hclear : s.Clear) (hop : s.ops[i]? = some op) :
    Good (({ s with future := some i, extra := { s.extra with args := op.args } }.register
      i thread).setOp i { op with phase := .suspended, request := some s.requests.length }) := by
  obtain ⟨hcompleted, hready, hrequests, hops⟩ := hclear
  obtain ⟨hregistered, hflag⟩ := hs.flow.unlisted hrequests
  have honly : s.Only i := by
    intro j x hx hactive
    rw [hops x (List.mem_of_getElem? hx)] at hactive
    cases hactive
  have hkeep : ∀ (v : ℕ) x, s.requests[v]? = some x →
      (s.requests ++ [⟨i, op.args, thread, .inFlight⟩])[v]? = some x := by
    intro v x hx
    obtain ⟨hlt, -⟩ := List.getElem?_eq_some_iff.mp hx
    rw [List.getElem?_append_left hlt]
    exact hx
  have hzero : s.requests.countP (fun q => q.phase.outstanding) = 0 :=
    List.countP_eq_zero.mpr fun q hq => Bool.eq_false_iff.mp (hrequests q hq)
  refine ⟨hs.solo.set hop honly rfl (fun v x _ hx _ => hkeep v x hx) ?_, ?_⟩
  · exact ⟨rfl, s.requests.length, _, rfl, List.getElem?_concat_length, rfl, Or.inl rfl⟩
  · refine ⟨?_, hs.flow.brief, hs.flow.early, ?_, ?_⟩
    · show (s.requests ++ [_]).countP _ + (if s.extra.completed then 1 else 0) ≤ 1
      rw [List.countP_append, hzero, hcompleted]
      exact Nat.le_refl 1
    · refine forall_mem_concat (fun q hq hout => ?_) fun _ => ?_
      · rw [hrequests q hq] at hout
        cases hout
      · show (if s.extra.registered then s.registered else s.registered ++ [thread]) = [thread]
        rw [hflag, hregistered]
        rfl
    · intro hnone
      cases hnone _ (List.mem_append_right _ (List.mem_singleton.mpr rfl))

theorem Good.poll (hs : Good s) (hseq : s.Sequential (.poll i thread))
    (hstep : s.poll i thread = some t) : Good t := by
  unfold UringStream.poll at hstep
  split at hstep
  · cases hstep
  · rename_i op hop
    split at hstep
    · rename_i hphase
      have hclear : op.phase = .fresh → s.Clear := by
        intro hfresh
        apply hseq
        rw [hop, Option.map_some, hfresh]
      split at hstep
      · rename_i hcompleted
        obtain rfl := Option.some.inj hstep
        rcases hphase with hfresh | hqueued
        · cases (hclear hfresh).1.symm.trans hcompleted
        · exact hs.poll_ready hop hqueued
      · rename_i hcompleted
        obtain rfl := Option.some.inj hstep
        rcases hphase with hfresh | hqueued
        · exact hs.poll_first (hclear hfresh) hop
        · exact absurd ((hs.solo.each i op hop).queued hqueued).2.1 hcompleted
    · cases hstep

/-- The outstanding request goes on. An operation that waits for it finds it as before, or the event
is about to wake it. -/
theorem OpOk.of_request (hok : OpOk s i op) (hf : Flow s) (hq : s.requests[r]? = some q)
    (hout : q.phase.outstanding = true) {p : StreamRequest} (hop : p.op = q.op)
    (hrequests : t.requests = s.requests.set r p) (hfuture : t.future = s.future)
    (hnew : p.phase.outstanding = true ∨
      t.ready ≠ [] ∧ t.extra.completed = true ∧ p.phase = .consumed t.extra.ret) : OpOk t i op := by
  obtain ⟨hcompleted, -, -⟩ := hf.alone hq hout
  have hkeep : Keeps s t := by
    intro v x res hx hp
    rw [hrequests, get_set hq, if_neg]
    · exact hx
    · rintro rfl
      obtain rfl := Option.some.inj (hq.symm.trans hx)
      rw [hp] at hout
      cases hout
  refine hok.transfer hkeep (fun hp => ?_) fun hp => ?_
  · obtain ⟨hi, v, x, hv, hx, hxi, hphase⟩ := hok.suspended hp
    rcases hphase with hxo | ⟨-, htrue, -⟩
    · obtain rfl := hf.unique hq hout hx hxo
      obtain rfl := Option.some.inj (hq.symm.trans hx)
      refine opOk_suspended hp (hfuture.trans hi) hv ?_ (hop.trans hxi) hnew
      rw [hrequests]
      exact get_set_self hq p
    · cases hcompleted.symm.trans htrue
  · cases hcompleted.symm.trans (hok.queued hp).2.1

theorem Good.complete (hs : Good s) (hstep : s.complete r res = some t) : Good t := by
  unfold UringStream.complete at hstep
  split at hstep
  · cases hstep
  · rename_i q hq
    obtain ⟨hphase, rfl⟩ := eq_of_guard hstep
    have hout : q.phase.outstanding = true := by
      rw [hphase]
      rfl
    refine ⟨hs.solo.same rfl fun i op _ hok => ?_, ?_⟩
    · exact hok.of_request hs.flow hq hout (p := { q with phase := .completed res }) rfl rfl rfl
        (Or.inl rfl)
    · have hout' : ({ q with phase := .completed res } : StreamRequest).phase.outstanding = true := rfl
      have hcount := Table.countP_set hq (fun q => q.phase.outstanding)
        { q with phase := .completed res }
      rw [if_pos hout, if_pos hout'] at hcount
      have hsingle := hs.flow.single
      refine ⟨?_, hs.flow.brief, hs.flow.early, ?_, ?_⟩
      · show (s.requests.set r _).countP _ + _ ≤ 1
        rw [Nat.add_right_cancel hcount]
        exact hsingle
      · refine forall_mem_set hs.flow.listed fun _ => ?_
        exact hs.flow.listed q (List.mem_of_getElem? hq) hout
      · intro hnone
        cases hnone _ (List.mem_of_getElem? (get_set_self hq _))

theorem Good.consume (hs : Good s) (hstep : s.consume r = some t) : Good t := by
  unfold UringStream.consume at hstep
  split at hstep
  · cases hstep
  · rename_i q hq
    split at hstep
    · rename_i res hphase
      have hout : q.phase.outstanding = true := by
        rw [hphase]
        rfl
      obtain ⟨-, hready, hregistered⟩ := hs.flow.alone hq hout
      rw [if_pos (by rw [hregistered]; exact List.mem_singleton.mpr rfl)] at hstep
      obtain rfl := Option.some.inj hstep
      have hnone := hs.flow.rest hq hout (p := { q with phase := .consumed res }) rfl
      have hpush : s.ready ++ [q.thread] ≠ [] := List.append_ne_nil_of_right_ne_nil _ nofun
      refine ⟨hs.solo.same rfl fun i op _ hok => ?_, ?_⟩
      · exact hok.of_request hs.flow hq hout (p := { q with phase := .consumed res }) rfl rfl rfl
          (Or.inr ⟨hpush, rfl, rfl⟩)
      · have hzero := List.countP_eq_zero.mpr fun x hx => Bool.eq_false_iff.mp (hnone x hx)
        refine ⟨?_, ?_, fun _ => rfl, ?_, fun _ => ⟨?_, rfl⟩⟩
        · show (s.requests.set r _).countP _ + 1 ≤ 1
          rw [hzero]
        · show (s.ready ++ [q.thread]).length ≤ 1
          rw [hready]
          exact Nat.le_refl 1
        · intro x hx hxo
          rw [hnone x hx] at hxo
          cases hxo
        · show s.registered.erase q.thread = []
          rw [hregistered, List.erase_cons_head]
    · cases hstep

/-- The event is taken from the list of ready events. -/
theorem Flow.wake (hf : Flow s) (hmem : thread ∈ s.ready) (hrequests : t.requests = s.requests)
    (hextra : t.extra = s.extra) (hregistered : t.registered = s.registered)
    (hready : t.ready = s.ready.erase thread) : t.ready = [] ∧ Flow t := by
  have hempty : t.ready = [] := by
    have hlength := List.length_erase_of_mem hmem
    have := hf.brief
    apply List.eq_nil_of_length_eq_zero
    rw [hready]
    omega
  refine ⟨hempty, ?_, ?_, fun hne => absurd hempty hne, ?_, ?_⟩
  · rw [hrequests, hextra]
    exact hf.single
  · rw [hempty]
    exact Nat.zero_le 1
  · rw [hrequests, hregistered]
    exact hf.listed
  · rw [hrequests, hregistered, hextra]
    exact hf.unlisted

/-- `wake` finds no future that is suspended: no operation is. -/
theorem Good.wake_nobody (hs : Good s) (hmem : thread ∈ s.ready)
    (hnobody : ∀ i op, s.future = some i → s.ops[i]? = some op → op.phase ≠ .suspended)
    (hops : t.ops = s.ops) (hrequests : t.requests = s.requests) (hextra : t.extra = s.extra)
    (hregistered : t.registered = s.registered) (hready : t.ready = s.ready.erase thread) :
    Good t := by
  obtain ⟨-, hflow⟩ := hs.flow.wake hmem hrequests hextra hregistered hready
  refine ⟨hs.solo.same hops fun i op hop hok => ?_, hflow⟩
  refine hok.transfer (Keeps.of_eq hrequests) (fun hp => ?_) fun hp => ?_
  · exact absurd hp (hnobody i op (hok.suspended hp).1 hop)
  · rw [(hok.queued hp).1] at hmem
    cases hmem

theorem Good.wake (hs : Good s) (hstep : s.wake thread = some t) : Good t := by
  unfold UringStream.wake at hstep
  split at hstep
  · rename_i hmem
    split at hstep
    · rename_i hnone
      obtain rfl := Option.some.inj hstep
      refine hs.wake_nobody hmem (fun i _ hi => ?_) rfl rfl rfl rfl rfl
      cases hnone.symm.trans hi
    · rename_i i hi
      split at hstep
      · cases hstep
      · rename_i op hop
        split at hstep
        · rename_i hp
          obtain rfl := Option.some.inj hstep
          have hcompleted := hs.flow.early (List.ne_nil_of_mem hmem)
          obtain ⟨-, r, q, hr, hq, hqi, hphase⟩ := (hs.solo.each i op hop).suspended hp
          have hflow := hs.flow.wake (t := { s with ready := s.ready.erase thread, future := none })
            hmem rfl rfl rfl rfl
          refine ⟨?_, hflow.2.same rfl rfl rfl rfl⟩
          have hactive : op.phase.active = true := by
            rw [hp]
            rfl
          refine hs.solo.set hop (hs.solo.unique i op hop hactive) rfl (Keeps.of_eq rfl) ?_
          refine ⟨hflow.1, hcompleted, r, q, hr, hq, hqi, ?_⟩
          rcases hphase with hout | ⟨-, -, hconsumed⟩
          · rw [hs.flow.settled hcompleted q (List.mem_of_getElem? hq)] at hout
            cases hout
          · exact hconsumed
        · rename_i hp
          obtain rfl := Option.some.inj hstep
          refine hs.wake_nobody hmem (fun j x hj hx => ?_) rfl rfl rfl rfl rfl
          obtain rfl := Option.some.inj (hi.symm.trans hj)
          obtain rfl := Option.some.inj (hop.symm.trans hx)
          exact hp
  · cases hstep

theorem Good.finish (hs : Good s) (hstep : s.finish i = some t) : Good t := by
  unfold UringStream.finish at hstep
  split at hstep
  · cases hstep
  · rename_i op hop
    split at hstep
    · rename_i result hp
      obtain rfl := Option.some.inj hstep
      have hok := hs.solo.each i op hop
      unfold OpOk at hok
      rw [hp] at hok
      have hactive : op.phase.active = true := by
        rw [hp]
        rfl
      refine ⟨?_, hs.flow.same rfl rfl rfl rfl⟩
      exact hs.solo.set hop (hs.solo.unique i op hop hactive) rfl (Keeps.of_eq rfl) hok
    · cases hstep

theorem Good.abandon (hs : Good s) (hstep : s.abandon i = some t) : Good t := by
  unfold UringStream.abandon at hstep
  split at hstep
  · cases hstep
  · rename_i op hop
    split at hstep
    · rename_i hp
      have hactive : op.phase.active = true := by
        rcases hp with hp | hp <;> rw [hp] <;> rfl
      have honly := hs.solo.unique i op hop hactive
      split at hstep
      · obtain rfl := Option.some.inj hstep
        exact ⟨hs.solo.set hop honly rfl (Keeps.of_eq rfl) trivial, hs.flow.same rfl rfl rfl rfl⟩
      · obtain rfl := Option.some.inj hstep
        exact ⟨hs.solo.set hop honly rfl (Keeps.of_eq rfl) trivial, hs.flow.same rfl rfl rfl rfl⟩
    · cases hstep

theorem Good.create (hs : Good s) (args : UringArgs) : Good (s.create args) :=
  ⟨hs.solo.create args, hs.flow.same rfl rfl rfl rfl⟩

theorem step_good (hs : Good s) (hseq : s.Sequential a) (hstep : s.step a = some t) : Good t := by
  cases a with
  | read buf len =>
    obtain rfl := Option.some.inj hstep
    exact hs.create _
  | write buf len =>
    obtain rfl := Option.some.inj hstep
    exact hs.create _
  | shutdown how =>
    obtain rfl := Option.some.inj hstep
    exact hs.create _
  | poll i thread => exact hs.poll hseq hstep
  | complete r res => exact hs.complete hstep
  | consume r => exact hs.consume hstep
  | wake thread => exact hs.wake hstep
  | finish i => exact hs.finish hstep
  | abandon i => exact hs.abandon hstep

theorem Good.paired (hs : Good s) : Paired s := by
  constructor
  · intro i op hop result hp
    have hok := hs.solo.each i op hop
    unfold OpOk at hok
    rcases hp with hp | hp <;> rw [hp] at hok <;> exact hok
  · intro i op hop hp res hanswered
    obtain ⟨hi, r, q, hr, hq, -, hphase⟩ := (hs.solo.each i op hop).suspended hp
    obtain ⟨r', q', hr', hq', -, hp'⟩ := hanswered
    obtain rfl := Option.some.inj (hr.symm.trans hr')
    obtain rfl := Option.some.inj (hq.symm.trans hq')
    refine ⟨hi, ?_⟩
    rcases hphase with hout | ⟨hready, -, -⟩
    · rw [hp'] at hout
      cases hout
    · exact hready

/-- If each operation is polled for the first time after the ones before it are over, then in every
state: an operation that returns has the result of the request that it submitted, and one that is
suspended with its request consumed is about to be woken. -/
theorem operation_gets_own_result (fd : ℤ) (as : List StreamAction) (s : UringStream)
    (hrun : run step (init fd) as = some s) (hseq : Along step Sequential (init fd) as) : Paired s := by
  have hgood : Good s :=
    run_invariant_along (fun _ _ _ hs hg hstep => step_good hs hg hstep) (good_init fd) hseq hrun
  exact hgood.paired

/-- A read and then a write, on two threads. -/
theorem operation_gets_own_result_read_write :
    ∃ as s, run step (init 3) as = some s ∧ Along step Sequential (init 3) as ∧
      s.ops.map StreamOp.phase = [.finished (.value 5), .ready (.value 7)] ∧ Paired s := by
  have hrun : ∃ as s, run step (init 3) as = some s ∧ Along step Sequential (init 3) as ∧
      s.ops.map StreamOp.phase = [.finished (.value 5), .ready (.value 7)] := by
    refine ⟨[.read 0 8, .write 8 8, .poll 0 0, .complete 0 5, .consume 0, .wake 0, .poll 0 1, .finish 0,
      .poll 1 1, .complete 1 7, .consume 1, .wake 1, .poll 1 0], ?_⟩
    exact exists_run (by decide)
  obtain ⟨as, s, hrun, hseq, hphase⟩ := hrun
  exact ⟨as, s, hrun, hseq, hphase, operation_gets_own_result 3 as s hrun hseq⟩

/-- An operation that returns before its request is answered. -/
theorem not_paired {result : StreamResult} (hop : s.ops[i]? = some op) (hp : op.phase = .ready result)
    (hr : op.request = some r) (hq : s.requests[r]? = some q) (hout : q.phase.outstanding = true) :
    ¬ Paired s := by
  intro hpaired
  obtain ⟨res, ⟨r', q', hr', hq', -, hphase⟩, -⟩ := hpaired.own i op hop result (Or.inl hp)
  obtain rfl := Option.some.inj (hr.symm.trans hr')
  obtain rfl := Option.some.inj (hq.symm.trans hq')
  rw [hphase] at hout
  cases hout

/-- A write is polled while a read is in flight. The completion of the read wakes the write, which
returns what was read; the read stays suspended with nobody to wake it. The same happens to the write
if the read was abandoned before. -/
theorem operation_gets_other_result :
    (∃ s, run step (init 3)
      [.read 0 8, .write 8 8, .poll 0 0, .poll 1 0, .complete 0 5, .consume 0, .wake 0,
       .poll 1 0] = some s ∧
      s.ops = [⟨.read 0 8 0, .suspended, some 0⟩, ⟨.write 8 8 0, .ready (.value 5), some 1⟩] ∧
      s.requests = [⟨0, .read 0 8 0, 0, .consumed 5⟩, ⟨1, .write 8 8 0, 0, .inFlight⟩] ∧
      s.future = none ∧ s.ready = [] ∧ ¬ Paired s) ∧
    ∃ s, run step (init 3)
      [.read 0 8, .poll 0 0, .abandon 0, .write 8 8, .poll 1 0, .complete 0 5, .consume 0, .wake 0,
       .poll 1 0] = some s ∧
      s.ops = [⟨.read 0 8 0, .abandoned, some 0⟩, ⟨.write 8 8 0, .ready (.value 5), some 1⟩] ∧
      s.requests = [⟨0, .read 0 8 0, 0, .consumed 5⟩, ⟨1, .write 8 8 0, 0, .inFlight⟩] ∧
      ¬ Paired s := by
  constructor
  · refine ⟨_, rfl, rfl, rfl, rfl, rfl, ?_⟩
    exact not_paired (i := 1) (r := 1) rfl rfl rfl rfl rfl
  · refine ⟨_, rfl, rfl, rfl, ?_⟩
    exact not_paired (i := 1) (r := 1) rfl rfl rfl rfl rfl

end Xyco.Net.UringStream
