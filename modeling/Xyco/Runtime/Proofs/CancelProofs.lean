import Mathlib.Data.List.Perm.Subperm
import Xyco.Runtime.Proofs.FutureLinkProofs

/-!
# Proofs: `cancel`

`cancel` follows `waited_` from a future to the future it awaits. As long as these links are right,
this is the chain of suspended coroutines, and `cancelled_` is set on all of it and on nothing else.
`cancelled_` is never taken back, so no `co_await` of a future of the chain returns a value.
-/

namespace Xyco.Runtime.Tasks

open Machine Table

variable {V E : Type*} {s s' t u : Tasks V E} {g c p q : ℕ} {f : Future V E}
variable {a : TaskAction V E} {frames : List Frame} {futures : List (Future V E)} {l : List ℕ}

/-! ## The futures that `cancel` reaches -/

/-- `waited_.promise().future()`. -/
def next (frames : List Frame) (futures : List (Future V E)) (p : ℕ) : Option ℕ :=
  futures[p]?.bind fun f => f.waited.bind fun c => frames[c]?.bind Frame.future

theorem next_set (hf : futures[p]? = some f) :
    next frames (futures.set p { f with cancelled := true }) = next frames futures := by
  funext q
  unfold next
  rw [get_set hf]
  by_cases hq : q = p
  · rw [if_pos hq, hq, hf]
    rfl
  · rw [if_neg hq]

/-- `cancel` does nothing but set `cancelled_`. -/
theorem cancelFrom_get (frames : List Frame) (calls : ℕ) (futures : List (Future V E)) (p : ℕ) :
    ∃ reached : ℕ → Bool, ∀ q, (cancelFrom frames calls futures p)[q]? =
      futures[q]?.map fun f : Future V E => { f with cancelled := f.cancelled || reached q } := by
  induction calls generalizing futures p with
  | zero => exact ⟨fun _ => false, fun q => by simp [cancelFrom]⟩
  | succ calls ih =>
    unfold cancelFrom
    split
    · exact ⟨fun _ => false, fun q => by simp⟩
    · rename_i f hf
      have hset : ∀ q, (futures.set p { f with cancelled := true })[q]? = futures[q]?.map
          fun f : Future V E => { f with cancelled := f.cancelled || decide (q = p) } := by
        intro q
        rw [get_set hf]
        by_cases hq : q = p
        · simp [hq, hf]
        · simp [hq]
      split
      · exact ⟨fun q => decide (q = p), hset⟩
      · rename_i q hq
        obtain ⟨reached, hreached⟩ := ih (futures.set p { f with cancelled := true }) q
        refine ⟨fun q => decide (q = p) || reached q, fun q => ?_⟩
        rw [hreached, hset, Option.map_map]
        congr 1
        funext f
        simp [Bool.or_assoc]

theorem cancelFrom_length (frames : List Frame) (calls : ℕ) (futures : List (Future V E)) (p : ℕ) :
    (cancelFrom frames calls futures p).length = futures.length := by
  induction calls generalizing futures p with
  | zero => rfl
  | succ calls ih =>
    unfold cancelFrom
    split
    · rfl
    · split
      · exact List.length_set
      · rw [ih]
        exact List.length_set

/-- Along a path of `waited_` links, `cancel` sets `cancelled_` on the path and nowhere else. -/
theorem cancelFrom_path {link : ℕ → Option ℕ} (h : Path link p l)
    (hlink : next frames futures = link) {calls : ℕ} (hcalls : l.length ≤ calls) (q : ℕ) :
    (cancelFrom frames calls futures p)[q]? =
      futures[q]?.map fun f => if q ∈ l then { f with cancelled := true } else f := by
  induction h generalizing futures calls with
  | @last p hnone =>
    obtain ⟨calls, rfl⟩ : ∃ k, calls = k + 1 := ⟨calls - 1, by simp at hcalls; omega⟩
    unfold cancelFrom
    split
    · rename_i hp
      by_cases hq : q = p
      · rw [hq, hp]
        rfl
      · simp [hq]
    · rename_i f hf
      have hend : f.waited.bind (fun c => frames[c]?.bind Frame.future) = none := by
        rw [← hlink, next, hf] at hnone
        exact hnone
      rw [hend]
      show (futures.set p { f with cancelled := true })[q]? = _
      rw [get_set hf]
      by_cases hq : q = p
      · simp [hq, hf]
      · simp [hq]
  | @cons p b l hsome hl ih =>
    obtain ⟨calls, rfl⟩ : ∃ k, calls = k + 1 := ⟨calls - 1, by simp at hcalls; omega⟩
    have hnot : p ∉ l := (List.nodup_cons.mp (Path.cons hsome hl).nodup).1
    rw [← hlink, next] at hsome
    obtain ⟨f, hf, hwaited⟩ := Option.bind_eq_some_iff.mp hsome
    have hstep : cancelFrom frames (calls + 1) futures p =
        cancelFrom frames calls (futures.set p { f with cancelled := true }) b := by
      rw [cancelFrom, hf]
      simp only [hwaited]
    rw [hstep, ih (by rw [next_set hf, hlink]) (by simpa using hcalls), get_set hf]
    by_cases hq : q = p
    · subst hq
      simp [hf, hnot]
    · simp [hq]

/-- A chain of suspended coroutines is a path of `waited_` links. -/
theorem Chain.path (hown : Owned s) (hlinked : Linked s) (h : Chain s p l) :
    Path (next s.frames s.futures) p l := by
  have hnext : ∀ p, next s.frames s.futures p = (s.waitedOf p).bind s.futureOf := by
    intro p
    unfold next waitedOf
    cases s.futures[p]? <;> rfl
  induction h with
  | @object p c q hself hstatus hobject =>
    apply Path.last
    rw [hnext, hlinked c q p hstatus ((hown.own c p).mpr hself), hobject, Option.bind_none]
  | @cons p c q d l hself hstatus hasync _ ih =>
    refine Path.cons (b := q) ?_ ih
    rw [hnext, hlinked c q p hstatus ((hown.own c p).mpr hself), hasync, Option.bind_some]
    exact (hown.own d q).mpr hasync

theorem Chain.self_of_mem (h : Chain s p l) (hq : q ∈ l) : ∃ c, s.selfOf q = some c := by
  induction h with
  | object hself =>
    obtain rfl := List.mem_singleton.mp hq
    exact ⟨_, hself⟩
  | cons hself _ _ _ ih =>
    rcases List.mem_cons.mp hq with rfl | hq
    · exact ⟨_, hself⟩
    · exact ih hq

theorem Chain.length_le (hown : Owned s) (hlinked : Linked s) (h : Chain s p l) :
    l.length ≤ s.futures.length := by
  have hsub : l ⊆ List.range s.futures.length := by
    intro q hq
    obtain ⟨c, hc⟩ := h.self_of_mem hq
    obtain ⟨f, hf, -⟩ := Option.bind_eq_some_iff.mp hc
    exact List.mem_range.mpr (lt_of_get hf)
  have := ((h.path hown hlinked).nodup.subperm hsub).length_le
  simpa using this

theorem Chain.cancel_get (hown : Owned s) (hlinked : Linked s) (h : Chain s p l) (q : ℕ) :
    (s.cancel p).futures[q]? =
      s.futures[q]?.map fun f => if q ∈ l then { f with cancelled := true } else f :=
  cancelFrom_path (h.path hown hlinked) rfl (h.length_le hown hlinked) q

/-! ## The links along a run -/

theorem cancel_owned_linked (p : ℕ) (hown : Owned s) :
    Owned (s.cancel p) ∧ (Linked s → Linked (s.cancel p)) := by
  obtain ⟨reached, hreached⟩ := cancelFrom_get s.frames s.futures.length s.futures p
  have hbind : ∀ field : Future V E → Option ℕ,
      (∀ f b, field { f with cancelled := b } = field f) →
      ∀ q : ℕ, (s.cancel p).futures[q]?.bind field = s.futures[q]?.bind field := by
    intro field hfield q
    show (cancelFrom s.frames s.futures.length s.futures p)[q]?.bind field = _
    rw [hreached]
    cases s.futures[q]? with
    | none => rfl
    | some f => exact hfield f _
  have hlength : (s.cancel p).futures.length = s.futures.length := cancelFrom_length _ _ _ _
  have hstatic : Static s (s.cancel p) := by
    refine ⟨hlength, fun _ => rfl, hbind Future.self fun _ _ => rfl, fun q => ?_⟩
    show (cancelFrom s.frames s.futures.length s.futures p)[q]?.map Future.polls = _
    rw [hreached, Option.map_map]
    rfl
  refine ⟨hown.same hstatic (fun _ => rfl) (hbind Future.waiting fun _ _ => rfl), ?_⟩
  intro h d q o hd ho
  rw [hstatic.selfOf]
  exact (hbind Future.waited (fun _ _ => rfl) o).trans (h d q o hd ho)

theorem step_owned (h : Owned s) (hstep : s.step a = some s') : Owned s' := by
  cases a with
  | spawn =>
    obtain rfl := Option.some.inj hstep
    exact spawn_owned h
  | call =>
    obtain rfl := Option.some.inj hstep
    exact call_owned h
  | make =>
    obtain rfl := Option.some.inj hstep
    exact make_owned h
  | move p => exact move_owned h hstep
  | await g p poll => exact await_owned h hstep
  | finish g r => exact finish_owned h hstep
  | complete p r => exact complete_owned h hstep
  | cancel p =>
    obtain rfl := Option.some.inj hstep
    exact (cancel_owned_linked p h).1

theorem step_linked (hown : Owned s) (h : Linked s) (hG : s.AwaitsFresh a)
    (hstep : s.step a = some s') : Linked s' := by
  cases a with
  | spawn =>
    obtain rfl := Option.some.inj hstep
    exact spawn_linked h
  | call =>
    obtain rfl := Option.some.inj hstep
    exact call_linked hown h
  | make =>
    obtain rfl := Option.some.inj hstep
    exact make_linked hown h
  | move p => exact move_linked hown h hstep
  | await g p poll => exact await_linked hown h hG hstep
  | finish g r => exact finish_linked hown h hstep
  | complete p r => exact complete_linked hown h hstep
  | cancel p =>
    obtain rfl := Option.some.inj hstep
    exact (cancel_owned_linked p hown).2 h

theorem owned_init : Owned (init : Tasks V E) := by
  refine ⟨fun c p => ?_, fun g q h => ?_, fun p h => ?_, fun c q w h => ?_⟩
  · constructor
    · intro h
      cases h
    · intro h
      cases h
  · cases h
  · cases h
  · cases h

theorem linked_init : Linked (init : Tasks V E) := fun _ _ _ h => by cases h

/-- In every run, a running coroutine can return or throw. -/
theorem finish_enabled {as : List (TaskAction V E)} (hrun : run step init as = some s)
    (hg : s.status g = some .running) (r : Except (Thrown E) V) :
    ∃ s', s.step (.finish g r) = some s' := by
  have hown : Owned s := run_invariant (I := Owned) (fun _ _ _ h hstep => step_owned h hstep)
    owned_init hrun
  show ∃ s', s.finish g r = some s'
  unfold finish
  rw [if_pos hg]
  split
  · exact ⟨_, rfl⟩
  · rename_i p hp
    split
    · exact ⟨_, rfl⟩
    · rename_i w hw
      have hstatus := hown.waiter g p w hp (by rw [hg]; simp) (by rw [hg]; simp) hw
      rw [if_pos hstatus]
      obtain ⟨f, hf, -⟩ := Option.bind_eq_some_iff.mp ((hown.own g p).mp hp)
      have hstored : ((s.setStatus g .done).store p r).futures[p]? = some (f.store r) := by
        rw [store, List.getElem?_modify_eq]
        exact congrArg (Option.map _) hf
      rw [resume, hstored]
      exact ⟨_, rfl⟩

/-! ## `cancelled_` is never taken back -/

/-- Every `Future` stays what it is, and stays cancelled if it is. -/
def Grows (s s' : Tasks V E) : Prop :=
  ∀ (q : ℕ) (f : Future V E), s.futures[q]? = some f → ∃ f' : Future V E,
    s'.futures[q]? = some f' ∧ f'.polls = f.polls ∧ (f.cancelled = true → f'.cancelled = true)

theorem grows_of_eq (h : s'.futures = s.futures) : Grows s s' :=
  fun _ f hf => ⟨f, by rw [h, hf], rfl, id⟩

theorem Grows.trans (h : Grows s s') (h' : Grows s' t) : Grows s t := by
  intro q f hf
  obtain ⟨f', hf', hpolls, hcancelled⟩ := h q f hf
  obtain ⟨f'', hf'', hpolls', hcancelled'⟩ := h' q f' hf'
  exact ⟨f'', hf'', hpolls'.trans hpolls, fun hc => hcancelled' (hcancelled hc)⟩

theorem grows_modify {update : Future V E → Future V E}
    (hpolls : ∀ f, (update f).polls = f.polls) (hcancelled : ∀ f, (update f).cancelled = f.cancelled)
    (hs' : s'.futures = s.futures.modify p update) : Grows s s' := by
  intro q f hf
  rw [hs', List.getElem?_modify, hf]
  by_cases hp : p = q
  · exact ⟨update f, by simp [hp], hpolls f, fun hc => (hcancelled f).trans hc⟩
  · exact ⟨f, by simp [hp], rfl, id⟩

theorem grows_concat {new : Future V E} (hs' : s'.futures = s.futures ++ [new]) : Grows s s' := by
  intro q f hf
  refine ⟨f, ?_, rfl, id⟩
  rw [hs', List.getElem?_append_left (lt_of_get hf)]
  exact hf

theorem grows_setWaited (s : Tasks V E) (g : ℕ) (w : Option ℕ) : Grows s (s.setWaited g w) := by
  unfold setWaited
  split
  · exact grows_modify (fun _ => by rfl) (fun _ => by rfl) rfl
  · exact grows_of_eq rfl

theorem grows_store (s : Tasks V E) (p : ℕ) (r : Except (Thrown E) V) : Grows s (s.store p r) :=
  grows_modify (fun f => by cases r <;> rfl) (fun f => by cases r <;> rfl) rfl

theorem grows_suspend (s : Tasks V E) (g p : ℕ) (self : Option ℕ) :
    Grows s (s.suspend g p self) := by
  have hwaiting : Grows s (s.setWaiting p g) :=
    grows_modify (fun _ => by rfl) (fun _ => by rfl) rfl
  exact hwaiting.trans (grows_setWaited _ g self)

theorem resume_grows (h : s.resume g p = some s') : Grows s s' := by
  obtain ⟨f, -, rfl⟩ := resume_cases h
  have hclear : Grows s (s.clearWaited f) := by
    unfold clearWaited
    split
    · exact grows_setWaited s _ none
    · exact grows_of_eq rfl
  exact hclear

theorem step_grows (h : s.step a = some s') : Grows s s' := by
  cases a with
  | spawn =>
    obtain rfl := Option.some.inj h
    exact grows_of_eq rfl
  | call =>
    obtain rfl := Option.some.inj h
    exact grows_concat rfl
  | make =>
    obtain rfl := Option.some.inj h
    exact grows_concat rfl
  | move p =>
    obtain ⟨f, -, -, rfl⟩ := move_cases h
    have hleft : Grows s { s with futures := s.futures.modify p fun f =>
        { f with self := none, waiting := none, waited := none } } :=
      grows_modify (fun _ => by rfl) (fun _ => by rfl) rfl
    exact hleft.trans (grows_concat rfl)
  | await g p poll =>
    obtain ⟨-, f, -, hcases⟩ := await_cases h
    rcases hcases with ⟨c, -, -, hres⟩ | ⟨c, -, -, rfl⟩ | ⟨-, rfl⟩ | ⟨-, v, hres⟩ | ⟨-, -, e, rfl⟩
    · exact resume_grows hres
    · exact grows_suspend s g p (some c)
    · exact grows_suspend s g p none
    · exact ((grows_suspend s g p none).trans (grows_store _ p _)).trans (resume_grows hres)
    · exact grows_suspend s g p none
  | finish g r =>
    obtain ⟨-, ⟨-, rfl⟩ | ⟨p, -, ⟨-, rfl⟩ | ⟨w, -, -, hres⟩⟩⟩ := finish_cases h
    · exact grows_of_eq rfl
    · exact grows_store s p r
    · exact (grows_store (s.setStatus g .done) p r).trans (resume_grows hres)
  | complete p r =>
    obtain ⟨g, -, -, -, hres⟩ := complete_cases h
    exact (grows_store s p r).trans (resume_grows hres)
  | cancel p =>
    obtain rfl := Option.some.inj h
    intro q f hf
    obtain ⟨reached, hreached⟩ := cancelFrom_get s.frames s.futures.length s.futures p
    refine ⟨{ f with cancelled := f.cancelled || reached q }, ?_, rfl, fun hc => by simp [hc]⟩
    show (cancelFrom s.frames s.futures.length s.futures p)[q]? = _
    rw [hreached, hf]
    rfl

/-! ## How a `co_await` ends -/

/-- What `await_resume` gives is a matter of the `Future` alone. -/
theorem resume_outcome (h : s.resume g p = some s') :
    ∃ f, s'.futures[p]? = some f ∧ s'.outcomes = s.outcomes ++ [(p, f.awaitResume)] := by
  obtain ⟨f, hf, rfl⟩ := resume_cases h
  have hcleared : ∃ w, (s.clearWaited f).futures[p]? = some { f with waited := w } := by
    unfold clearWaited
    split
    · unfold setWaited
      split
      · rename_i h _ o _
        by_cases hop : o = p
        · subst hop
          exact ⟨none, by simp [hf]⟩
        · exact ⟨f.waited, by simp [hop, hf]⟩
      · exact ⟨f.waited, hf⟩
    · exact ⟨f.waited, hf⟩
  obtain ⟨w, hw⟩ := hcleared
  exact ⟨{ f with waited := w }, hw, rfl⟩

/-- A step ends one `co_await` at most, by `await_resume` or by an exception of `poll`. -/
theorem step_outcome (h : s.step a = some s') :
    s'.outcomes = s.outcomes ∨ ∃ q o f, s'.outcomes = s.outcomes ++ [(q, o)] ∧
      s'.futures[q]? = some f ∧ (o = f.awaitResume ∨ f.polls = true) := by
  have hresume : ∀ {t : Tasks V E} {g p : ℕ}, t.resume g p = some s' → t.outcomes = s.outcomes →
      ∃ q o f, s'.outcomes = s.outcomes ++ [(q, o)] ∧ s'.futures[q]? = some f ∧
        (o = f.awaitResume ∨ f.polls = true) := by
    intro t g p hres ht
    obtain ⟨f, hf, houtcomes⟩ := resume_outcome hres
    exact ⟨p, f.awaitResume, f, ht ▸ houtcomes, hf, Or.inl rfl⟩
  have hsuspend : ∀ g p self, (s.suspend g p self).outcomes = s.outcomes := by
    intro g p self
    unfold suspend setWaited
    split <;> rfl
  cases a with
  | spawn =>
    obtain rfl := Option.some.inj h
    exact Or.inl rfl
  | call =>
    obtain rfl := Option.some.inj h
    exact Or.inl rfl
  | make =>
    obtain rfl := Option.some.inj h
    exact Or.inl rfl
  | move p =>
    obtain ⟨f, -, -, rfl⟩ := move_cases h
    exact Or.inl rfl
  | await g p poll =>
    obtain ⟨-, f, hf, hcases⟩ := await_cases h
    rcases hcases with ⟨c, -, -, hres⟩ | ⟨c, -, -, rfl⟩ | ⟨-, rfl⟩ | ⟨-, v, hres⟩ |
      ⟨-, hpolls, e, rfl⟩
    · exact Or.inr (hresume hres (by rfl))
    · exact Or.inl (hsuspend g p (some c))
    · exact Or.inl (hsuspend g p none)
    · exact Or.inr (hresume hres (hsuspend g p none))
    · obtain ⟨f', hf', hpolls', -⟩ := grows_suspend s g p none p f hf
      exact Or.inr ⟨p, .thrown e, f', rfl, hf', Or.inr (hpolls'.trans hpolls)⟩
  | finish g r =>
    obtain ⟨-, ⟨-, rfl⟩ | ⟨p, -, ⟨-, rfl⟩ | ⟨w, -, -, hres⟩⟩⟩ := finish_cases h
    · exact Or.inl rfl
    · exact Or.inl rfl
    · exact Or.inr (hresume hres (by rfl))
  | complete p r =>
    obtain ⟨g, -, -, -, hres⟩ := complete_cases h
    exact Or.inr (hresume hres (by rfl))
  | cancel p =>
    obtain rfl := Option.some.inj h
    exact Or.inl rfl

theorem awaitResume_of_cancelled (h : f.cancelled = true) :
    f.awaitResume = .thrown .cancelException ∨
      ∃ e, f.exceptionPtr = some e ∧ f.awaitResume = .thrown e := by
  unfold Future.awaitResume
  cases he : f.exceptionPtr with
  | some e => exact Or.inr ⟨e, rfl, rfl⟩
  | none =>
    left
    simp only [h, if_true]

/-- `cancel` reaches every future of a chain of suspended coroutines and no other, as long as no async
function that has finished is awaited again at the wrong moment; and no `co_await` of these futures
returns a value after that. -/
theorem cancel_reaches_chain {as : List (TaskAction V E)}
    (hG : Along step AwaitsFresh init as) (hrun : run step init as = some s) (hchain : Chain s p l) :
    (∀ q : ℕ, (s.cancel p).futures[q]? =
      s.futures[q]?.map fun f => if q ∈ l then { f with cancelled := true } else f) ∧
    ∀ bs t a u q o, run step (s.cancel p) bs = some t → t.step a = some u → q ∈ l →
      u.outcomes = t.outcomes ++ [(q, o)] → o = .thrown .cancelException ∨
        ∃ f e, u.futures[q]? = some f ∧ f.exceptionPtr = some e ∧ o = .thrown e := by
  obtain ⟨hown, hlinked⟩ : Owned s ∧ Linked s :=
    run_invariant_along (I := fun s => Owned s ∧ Linked s)
      (fun _ _ _ h hG hstep => ⟨step_owned h.1 hstep, step_linked h.1 h.2 hG hstep⟩)
      ⟨owned_init, linked_init⟩ hG hrun
  have hget := hchain.cancel_get hown hlinked
  refine ⟨hget, ?_⟩
  intro bs t a u q o hbs hstep hq houtcomes
  -- the futures of the chain stay cancelled
  have hstart : ∃ f, (s.cancel p).futures[q]? = some f ∧ f.cancelled = true ∧ f.polls = false := by
    obtain ⟨c, hc⟩ := hchain.self_of_mem hq
    obtain ⟨f, hf, hself⟩ := Option.bind_eq_some_iff.mp hc
    refine ⟨{ f with cancelled := true }, by rw [hget, hf, Option.map_some, if_pos hq], rfl, ?_⟩
    show f.polls = false
    by_contra hpolls
    have hobject := hown.object q (by rw [pollsOf, hf]; simpa using hpolls)
    rw [hc] at hobject
    cases hobject
  have hkeep : ∀ s s' : Tasks V E, Grows s s' →
      (∃ f, s.futures[q]? = some f ∧ f.cancelled = true ∧ f.polls = false) →
      ∃ f, s'.futures[q]? = some f ∧ f.cancelled = true ∧ f.polls = false := by
    rintro s s' hgrows ⟨f, hf, hc, hp⟩
    obtain ⟨f', hf', hpolls, hcancelled⟩ := hgrows q f hf
    exact ⟨f', hf', hcancelled hc, hpolls.trans hp⟩
  have ht := run_invariant (fun s a s' h hstep => hkeep s s' (step_grows hstep) h) hstart hbs
  obtain ⟨f, hf, hcancelled, hpolls⟩ := hkeep t u (step_grows hstep) ht
  rcases step_outcome hstep with hsame | ⟨q', o', f', houtcomes', hf', ho'⟩
  · rw [hsame] at houtcomes
    simp at houtcomes
  · rw [houtcomes'] at houtcomes
    obtain ⟨rfl, rfl⟩ : q' = q ∧ o' = o := by simpa using houtcomes
    obtain rfl : f' = f := Option.some.inj (hf'.symm.trans hf)
    rcases ho' with rfl | hpolls'
    · rcases awaitResume_of_cancelled hcancelled with hcancel | ⟨e, he, hthrown⟩
      · exact Or.inl hcancel
      · exact Or.inr ⟨f', e, hf, he, hthrown⟩
    · rw [hpolls] at hpolls'
      cases hpolls'

/-- A task calls an async function that calls another, which awaits a `Future` object. -/
def nestedAwaits : List (TaskAction ℕ ℕ) :=
  [.spawn, .call, .await 0 0 none, .call, .await 1 1 none, .make, .await 2 2 none]

theorem cancel_reaches_chain_nested :
    ∃ s, run step init nestedAwaits = some s ∧ Chain s 0 [0, 1] ∧
      ∀ q : ℕ, (s.cancel 0).futures[q]? =
        s.futures[q]?.map fun f => if q ∈ [0, 1] then { f with cancelled := true } else f := by
  have hnested : ∃ s, run step init nestedAwaits = some s ∧
      (s.selfOf 0 = some 1 ∧ s.status 1 = some (.awaiting 1)) ∧
      (s.selfOf 1 = some 2 ∧ s.status 2 = some (.awaiting 2)) ∧ s.selfOf 2 = none :=
    exists_run (by decide)
  obtain ⟨s, hrun, ⟨hself, hstatus⟩, ⟨hself', hstatus'⟩, hobject⟩ := hnested
  have hchain : Chain s 0 [0, 1] := .cons hself hstatus hself' (.object hself' hstatus' hobject)
  exact ⟨s, hrun, hchain, (cancel_reaches_chain (by decide) hrun hchain).1⟩

/-- An async function awaits the future `1` to its end, and then another async function that awaits
this future again before it awaits a `Future` object. -/
def awaitsTwice : List (TaskAction ℕ ℕ) :=
  [.spawn, .call, .await 0 0 none, .call, .await 1 1 none, .finish 2 (.ok 4), .call,
    .await 1 2 none, .await 3 1 none, .make, .await 3 3 none]

/-- The second `co_await` of the future `1` clears `waited_` of the coroutine that awaited it first.
`cancel` does not reach the future `2`, and its `co_await` returns. -/
theorem cancel_after_second_await :
    ∃ s, run step init awaitsTwice = some s ∧ Chain s 0 [0, 2] ∧
      (s.cancel 0).futures[2]?.map Future.cancelled = some false ∧
      ∃ t, run step (s.cancel 0) [.complete 3 (.ok 5), .finish 3 (.ok 6)] = some t ∧
        (2, .returned (some 6)) ∈ t.outcomes := by
  have htwice : ∃ s, run step init awaitsTwice = some s ∧
      (s.selfOf 0 = some 1 ∧ s.status 1 = some (.awaiting 2)) ∧
      (s.selfOf 2 = some 3 ∧ s.status 3 = some (.awaiting 3)) ∧ s.selfOf 3 = none ∧
      (s.cancel 0).futures[2]?.map Future.cancelled = some false ∧
      (run step (s.cancel 0) [.complete 3 (.ok 5), .finish 3 (.ok 6)]).map Tasks.outcomes =
        some [(1, .returned (some 4)), (1, .returned (some 4)), (3, .returned (some 5)),
          (2, .returned (some 6))] := exists_run (by decide)
  obtain ⟨s, hrun, ⟨hself, hstatus⟩, ⟨hself', hstatus'⟩, hobject, hcancelled, hrest⟩ := htwice
  obtain ⟨t, ht, houtcomes⟩ := Option.map_eq_some_iff.mp hrest
  refine ⟨s, hrun, .cons hself hstatus hself' (.object hself' hstatus' hobject), hcancelled, t, ht, ?_⟩
  rw [houtcomes]
  simp

end Xyco.Runtime.Tasks
