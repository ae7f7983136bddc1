import GreenLib.Sched

/-!
# What the scheduler does for a running thread

`Step a i r a'`: thread `i` runs in the scheduler `a`, asks for `r`, and `a'` is the
scheduler afterwards. The cases are the operations of `thread_lib.h`, without
pointers: sleeping with nobody ready and waking with nobody waiting do nothing, a
wakeup runs the woken thread at once, and thread 0 is never queued by
`thread_resume`. When thread 0 gets control back by id nobody is marked as running.

Each case is a composition of moves (`Sched.move`); the lemmas of the second half
compute what the composition does to the queues.
-/

namespace GreenLib

section Generic

variable {π : Type} [DecidableEq π]

/-- What a running thread can ask the scheduler for. A call of the library is such a request
together with an edit of its own data. -/
inductive Req (π : Type) : Type where
  | stay
  | sleep (p : π)
  | wakeup (p : π)
  | wakeupWait (p : π)
  | resume (id : ℕ)
  | exit

/-- The contents of the scheduler `a'`, which has the ids and primitives of `a`. The steps are
described by it, so that a proof can work with the queues and forget how the moves were made. -/
structure Becomes (a a' : Sched π) (running : Option ℕ) (ready : List ℕ) (waiting : π → List ℕ)
    (place : ℕ → Place π) : Prop where
  newId : a'.newId = a.newId
  prims : a'.prims = a.prims
  running : a'.running = running
  ready : a'.ready = ready
  waiting : a'.waiting = waiting
  place : a'.place = place

/-- Replacing one waiting queue changes the number of waiting threads accordingly. The counter
`waiting_num` follows from it. -/
theorem Becomes.total_update {a a' : Sched π} {run : Option ℕ} {rdy : List ℕ} {p : π}
    {xs : List ℕ} {pl : ℕ → Place π}
    (h : Becomes a a' run rdy (Function.update a.waiting p xs) pl) (hp : p ∈ a.prims) :
    a'.waitingTotal + (a.waiting p).length = a.waitingTotal + xs.length := by
  have htotal := Sched.waitingTotal_add hp h.prims fun q hq => by
    rw [h.waiting, Function.update_of_ne hq]
  rwa [h.waiting, Function.update_self] at htotal

theorem Becomes.total_same {a a' : Sched π} {run : Option ℕ} {rdy : List ℕ} {pl : ℕ → Place π}
    (h : Becomes a a' run rdy a.waiting pl) : a'.waitingTotal = a.waitingTotal := by
  unfold Sched.waitingTotal
  rw [h.prims, h.waiting]

/-- **The scheduler's steps.** One constructor for each branch of the library: what is asked for,
what the branch depends on, and the queues afterwards. All invariants of the scheduler are proved by
cases on it. -/
inductive Step (a : Sched π) (i : ℕ) : Req π → Sched π → Prop where
  | stay : Step a i .stay a
  /-- nobody else is ready: `thread_sleep` returns at once -/
  | sleepNone {p : π} (hr : a.ready = []) : Step a i (.sleep p) a
  | sleep {p : π} {j : ℕ} {tl : List ℕ} {a' : Sched π} (hp : p ∈ a.prims) (hr : a.ready = j :: tl)
      (h : Becomes a a' (some j) tl (Function.update a.waiting p (a.waiting p ++ [i]))
        (Function.update (Function.update a.place i (.waiting p)) j .running)) :
      Step a i (.sleep p) a'
  | wakeupNone {p : π} (hw : a.waiting p = []) : Step a i (.wakeup p) a
  | wakeup {p : π} {j : ℕ} {tl : List ℕ} {a' : Sched π} (hw : a.waiting p = j :: tl)
      (h : Becomes a a' (some j) (a.ready ++ [i]) (Function.update a.waiting p tl)
        (Function.update (Function.update a.place i .ready) j .running)) :
      Step a i (.wakeup p) a'
  | wakeupWaitNone {p : π} (hw : a.waiting p = []) : Step a i (.wakeupWait p) a
  | wakeupWait {p : π} {j : ℕ} {tl : List ℕ} {a' : Sched π} (hw : a.waiting p = j :: tl)
      (h : Becomes a a' (some j) a.ready (Function.update a.waiting p (tl ++ [i]))
        (Function.update (Function.update a.place i (.waiting p)) j .running)) :
      Step a i (.wakeupWait p) a'
  | resume {j : ℕ} {a' : Sched π} (hi : i ≠ 0) (hj : j ∈ a.ready)
      (h : Becomes a a' (some j) (a.ready.erase j ++ [i]) a.waiting
        (Function.update (Function.update a.place i .ready) j .running)) :
      Step a i (.resume j) a'
  /-- thread 0 is not put into the ready queue -/
  | handover {j : ℕ} {a' : Sched π} (hi : i = 0) (hj : j ∈ a.ready)
      (h : Becomes a a' (some j) (a.ready.erase j) a.waiting
        (Function.update (Function.update a.place i .parked) j .running)) :
      Step a i (.resume j) a'
  /-- thread 0 gets control without being taken from anywhere -/
  | handback {a' : Sched π} (hi : i ≠ 0)
      (h : Becomes a a' none (a.ready ++ [i]) a.waiting (Function.update a.place i .ready)) :
      Step a i (.resume 0) a'
  | exit {j : ℕ} {tl : List ℕ} {a' : Sched π} (hr : a.ready = j :: tl)
      (h : Becomes a a' (some j) tl a.waiting
        (Function.update (Function.update a.place i .nowhere) j .running)) :
      Step a i .exit a'
  /-- the last thread exits: thread 0 gets control -/
  | exitLast {a' : Sched π} (hr : a.ready = [])
      (h : Becomes a a' none [] a.waiting (Function.update a.place i .nowhere)) :
      Step a i .exit a'

/-- A step creates no thread: whoever is somewhere afterwards was somewhere before. -/
theorem Step.placed {a a' : Sched π} {i : ℕ} {r : Req π} (h : Step a i r a')
    (hi : a.running = some i) {k : ℕ} (hk : a'.place k ≠ .nowhere) : a.place k ≠ .nowhere := by
  have hpi : a.place i ≠ .nowhere := by simp [Sched.place_running hi]
  -- two threads move: the acting one, and one that was in a queue
  have hmove : ∀ {j : ℕ} {pl : Place π}, a.place j ≠ .nowhere →
      a'.place = Function.update (Function.update a.place i pl) j .running →
      a.place k ≠ .nowhere := by
    intro j pl hj hplace
    by_cases hkj : k = j
    · exact hkj ▸ hj
    · by_cases hki : k = i
      · exact hki ▸ hpi
      · rwa [hplace, Function.update_of_ne hkj, Function.update_of_ne hki] at hk
  have hmove' : ∀ {pl : Place π}, a'.place = Function.update a.place i pl →
      a.place k ≠ .nowhere := by
    intro pl hplace
    by_cases hki : k = i
    · exact hki ▸ hpi
    · rwa [hplace, Function.update_of_ne hki] at hk
  have hready : ∀ {j : ℕ}, j ∈ a.ready → a.place j ≠ .nowhere := fun hj => by
    simp [Sched.place_ready hj]
  have hwaiting : ∀ {p : π} {j : ℕ}, j ∈ a.waiting p → a.place j ≠ .nowhere := fun hj => by
    simp [Sched.place_waiting hj]
  cases h with
  | stay => exact hk
  | sleepNone => exact hk
  | sleep hp hr h => exact hmove (hready (by simp [hr])) h.place
  | wakeupNone => exact hk
  | wakeup hw h => exact hmove (hwaiting (by rw [hw]; exact List.mem_cons_self)) h.place
  | wakeupWaitNone => exact hk
  | wakeupWait hw h => exact hmove (hwaiting (by rw [hw]; exact List.mem_cons_self)) h.place
  | resume _ hj h => exact hmove (hready hj) h.place
  | handover _ hj h => exact hmove (hready hj) h.place
  | handback _ h => exact hmove' h.place
  | exit hr h => exact hmove (hready (by simp [hr])) h.place
  | exitLast _ h => exact hmove' h.place

/-- **Who moves.** A step moves the acting thread and the one that runs afterwards, which
was in a queue. -/
theorem Step.moves {a a' : Sched π} {i : ℕ} {r : Req π} (h : Step a i r a')
    (hi : a.running = some i) {k : ℕ} (hk : k ≠ i) :
    a'.running ≠ some k ∧ a'.place k = a.place k ∨
      a'.running = some k ∧ (a.place k = .ready ∨ ∃ p, a.place k = .waiting p) := by
  have hstay : a.running ≠ some k := by
    rw [hi]
    exact fun he => hk (Option.some.inj he).symm
  have hmove : ∀ {j : ℕ} {pl : Place π}, (a.place j = .ready ∨ ∃ p, a.place j = .waiting p) →
      a'.running = some j →
      a'.place = Function.update (Function.update a.place i pl) j .running →
      a'.running ≠ some k ∧ a'.place k = a.place k ∨
        a'.running = some k ∧ (a.place k = .ready ∨ ∃ p, a.place k = .waiting p) := by
    intro j pl hj hrun hplace
    by_cases hkj : k = j
    · exact .inr ⟨hkj ▸ hrun, hkj ▸ hj⟩
    · refine .inl ⟨?_, ?_⟩
      · rw [hrun]
        exact fun he => hkj (Option.some.inj he).symm
      · rw [hplace, Function.update_of_ne hkj, Function.update_of_ne hk]
  have hleave : ∀ {pl : Place π}, a'.running = none → a'.place = Function.update a.place i pl →
      a'.running ≠ some k ∧ a'.place k = a.place k := by
    intro pl hrun hplace
    exact ⟨by simp [hrun], by rw [hplace, Function.update_of_ne hk]⟩
  cases h with
  | stay => exact .inl ⟨hstay, rfl⟩
  | sleepNone => exact .inl ⟨hstay, rfl⟩
  | sleep hp hr h => exact hmove (.inl (Sched.place_ready (by simp [hr]))) h.running h.place
  | wakeupNone => exact .inl ⟨hstay, rfl⟩
  | wakeup hw h =>
    exact hmove (.inr ⟨_, Sched.place_waiting (hw ▸ List.mem_cons_self)⟩) h.running h.place
  | wakeupWaitNone => exact .inl ⟨hstay, rfl⟩
  | wakeupWait hw h =>
    exact hmove (.inr ⟨_, Sched.place_waiting (hw ▸ List.mem_cons_self)⟩) h.running h.place
  | resume _ hj h => exact hmove (.inl (Sched.place_ready hj)) h.running h.place
  | handover _ hj h => exact hmove (.inl (Sched.place_ready hj)) h.running h.place
  | handback _ h => exact .inl (hleave h.running h.place)
  | exit hr h => exact hmove (.inl (Sched.place_ready (by simp [hr]))) h.running h.place
  | exitLast _ h => exact .inl (hleave h.running h.place)

/-- The request works on the queue of `p`: it may put the caller there or take its head. -/
def Req.Touches (r : Req π) (p : π) : Prop := r = .sleep p ∨ r = .wakeup p ∨ r = .wakeupWait p

omit [DecidableEq π] in
theorem Req.Touches.inj {r : Req π} {p q : π} (hp : r.Touches p) (hq : r.Touches q) : p = q := by
  rcases hp with rfl | rfl | rfl <;> rcases hq with he | he | he <;> cases he <;> rfl

omit [DecidableEq π] in
@[simp] theorem Req.not_touches_stay (p : π) : ¬ (Req.stay : Req π).Touches p := by
  simp [Req.Touches]

omit [DecidableEq π] in
@[simp] theorem Req.touches_sleep {p q : π} : (Req.sleep p).Touches q ↔ q = p := by
  simp [Req.Touches, eq_comm]

omit [DecidableEq π] in
@[simp] theorem Req.touches_wakeup {p q : π} : (Req.wakeup p).Touches q ↔ q = p := by
  simp [Req.Touches, eq_comm]

omit [DecidableEq π] in
@[simp] theorem Req.touches_wakeupWait {p q : π} : (Req.wakeupWait p).Touches q ↔ q = p := by
  simp [Req.Touches, eq_comm]

/-- **Frame rule.** A queue that the request does not work on stays as it is. -/
theorem Step.waiting_of_not_touches {a a' : Sched π} {i : ℕ} {r : Req π} (h : Step a i r a') {p : π}
    (hp : ¬ r.Touches p) : a'.waiting p = a.waiting p := by
  have hother : ∀ {q xs}, r.Touches q → a'.waiting = Function.update a.waiting q xs →
      a'.waiting p = a.waiting p := by
    intro q xs hq hw
    rw [hw, Function.update_of_ne]
    rintro rfl
    exact hp hq
  cases h with
  | stay => rfl
  | sleepNone => rfl
  | wakeupNone => rfl
  | wakeupWaitNone => rfl
  | sleep _ _ h => exact hother (.inl rfl) h.waiting
  | wakeup _ h => exact hother (.inr (.inl rfl)) h.waiting
  | wakeupWait _ h => exact hother (.inr (.inr rfl)) h.waiting
  | resume _ _ h => rw [h.waiting]
  | handover _ _ h => rw [h.waiting]
  | handback _ h => rw [h.waiting]
  | exit _ h => rw [h.waiting]
  | exitLast _ h => rw [h.waiting]

/-- A thread that runs anew was ready, or in the queue that the request works on. Nobody starts to
run out of nothing. -/
theorem Step.running_from {a a' : Sched π} {i : ℕ} {r : Req π} (h : Step a i r a')
    (hi : a.running = some i) {j : ℕ} (hj : a'.running = some j) (hji : j ≠ i) :
    a.place j = .ready ∨ ∃ p, r.Touches p ∧ a.place j = .waiting p := by
  have hsame : a.running ≠ some j := by
    rw [hi]
    exact fun he => hji (Option.some.inj he).symm
  have hready : ∀ {k}, a'.running = some k → k ∈ a.ready → a.place j = .ready := by
    intro k hk hm
    obtain rfl := Option.some.inj (hk.symm.trans hj)
    exact Sched.place_ready hm
  have hwait : ∀ {k tl p}, a'.running = some k → a.waiting p = k :: tl →
      a.place j = .waiting p := by
    intro k tl p hk hw
    obtain rfl := Option.some.inj (hk.symm.trans hj)
    exact Sched.place_waiting (hw ▸ List.mem_cons_self)
  cases h with
  | stay => exact absurd hj hsame
  | sleepNone => exact absurd hj hsame
  | wakeupNone => exact absurd hj hsame
  | wakeupWaitNone => exact absurd hj hsame
  | sleep _ hr h => exact .inl (hready h.running (hr ▸ List.mem_cons_self))
  | wakeup hw h => exact .inr ⟨_, .inr (.inl rfl), hwait h.running hw⟩
  | wakeupWait hw h => exact .inr ⟨_, .inr (.inr rfl), hwait h.running hw⟩
  | resume _ hj' h => exact .inl (hready h.running hj')
  | handover _ hj' h => exact .inl (hready h.running hj')
  | handback _ h => cases h.running.symm.trans hj
  | exit hr h => exact .inl (hready h.running (hr ▸ List.mem_cons_self))
  | exitLast _ h => cases h.running.symm.trans hj

/-- A thread that waited on `p` and runs now has been woken from there, by one of the two requests
that do so. -/
theorem Step.woken {a a' : Sched π} {i : ℕ} {r : Req π} (h : Step a i r a') {j : ℕ} {p : π}
    (hp : a.place j = .waiting p) (hj : a'.running = some j) :
    r = .wakeup p ∨ r = .wakeupWait p := by
  have hrun : a.running ≠ some j := by
    intro he
    cases (Sched.place_running he).symm.trans hp
  have hready : ∀ {k}, a'.running = some k → k ∉ a.ready := by
    intro k hk hm
    obtain rfl := Option.some.inj (hk.symm.trans hj)
    cases (Sched.place_ready hm).symm.trans hp
  have hwait : ∀ {k tl q}, a'.running = some k → a.waiting q = k :: tl → q = p := by
    intro k tl q hk hq
    obtain rfl := Option.some.inj (hk.symm.trans hj)
    exact Place.waiting.inj ((Sched.place_waiting (hq ▸ List.mem_cons_self)).symm.trans hp)
  cases h with
  | stay => exact absurd hj hrun
  | sleepNone => exact absurd hj hrun
  | sleep _ hr h => exact absurd (hr ▸ List.mem_cons_self) (hready h.running)
  | wakeupNone => exact absurd hj hrun
  | wakeup hw h => exact .inl (by rw [hwait h.running hw])
  | wakeupWaitNone => exact absurd hj hrun
  | wakeupWait hw h => exact .inr (by rw [hwait h.running hw])
  | resume _ hm h => exact absurd hm (hready h.running)
  | handover _ hm h => exact absurd hm (hready h.running)
  | handback _ h => cases h.running.symm.trans hj
  | exit hr h => exact absurd (hr ▸ List.mem_cons_self) (hready h.running)
  | exitLast _ h => cases h.running.symm.trans hj

theorem Step.stay_eq {a a' : Sched π} {i : ℕ} (h : Step a i .stay a') : a' = a := by
  cases h
  rfl

/-- With nobody in the queue, `thread_wakeup` does nothing, and nothing is remembered for a later
sleeper. -/
theorem Step.wakeup_nil {a a' : Sched π} {i : ℕ} {p : π} (h : Step a i (.wakeup p) a')
    (hw : a.waiting p = []) : a' = a := by
  cases h with
  | wakeupNone => rfl
  | wakeup hw' => cases hw.symm.trans hw'

/-- With somebody in the queue, it runs the first one and puts the caller behind the ready queue. -/
theorem Step.wakeup_cons {a a' : Sched π} {i j : ℕ} {p : π} {tl : List ℕ}
    (h : Step a i (.wakeup p) a') (hw : a.waiting p = j :: tl) :
    Becomes a a' (some j) (a.ready ++ [i]) (Function.update a.waiting p tl)
      (Function.update (Function.update a.place i .ready) j .running) := by
  cases h with
  | wakeupNone hw' => cases hw.symm.trans hw'
  | wakeup hw' hb =>
    obtain ⟨rfl, rfl⟩ := List.cons.inj (hw.symm.trans hw')
    exact hb

/-- With somebody in the queue, `thread_wakeup_wait` runs the first one and puts the caller in its
place. -/
theorem Step.wakeupWait_cons {a a' : Sched π} {i j : ℕ} {p : π} {tl : List ℕ}
    (h : Step a i (.wakeupWait p) a') (hw : a.waiting p = j :: tl) :
    Becomes a a' (some j) a.ready (Function.update a.waiting p (tl ++ [i]))
      (Function.update (Function.update a.place i (.waiting p)) j .running) := by
  cases h with
  | wakeupWaitNone hw' => cases hw.symm.trans hw'
  | wakeupWait hw' hb =>
    obtain ⟨rfl, rfl⟩ := List.cons.inj (hw.symm.trans hw')
    exact hb

/-- With nobody ready, `thread_sleep` does nothing: the caller is not even entered into the
queue. -/
theorem Step.sleep_nil {a a' : Sched π} {i : ℕ} {p : π} (h : Step a i (.sleep p) a')
    (hr : a.ready = []) : a' = a := by
  cases h with
  | sleepNone => rfl
  | sleep _ hr' => cases hr.symm.trans hr'

/-- With somebody ready, it runs the first one and enters the caller into the queue of the
primitive. -/
theorem Step.sleep_cons {a a' : Sched π} {i j : ℕ} {p : π} {tl : List ℕ}
    (h : Step a i (.sleep p) a') (hr : a.ready = j :: tl) :
    Becomes a a' (some j) tl (Function.update a.waiting p (a.waiting p ++ [i]))
      (Function.update (Function.update a.place i (.waiting p)) j .running) := by
  cases h with
  | sleepNone hr' => cases hr.symm.trans hr'
  | sleep _ hr' hb =>
    obtain ⟨rfl, rfl⟩ := List.cons.inj (hr.symm.trans hr')
    exact hb

/-- With somebody ready, `thread_sleep` runs another thread. -/
theorem Step.sleep_other {a a' : Sched π} {i : ℕ} {p : π} (h : Step a i (.sleep p) a')
    (hi : a.running = some i) (hr : a.ready ≠ []) : ∃ j, j ≠ i ∧ a'.running = some j := by
  cases h with
  | sleepNone hnone => exact absurd hnone hr
  | @sleep j tl _ _ _ hready hb =>
    refine ⟨_, ?_, hb.running⟩
    rintro rfl
    cases (Sched.place_ready (hready ▸ List.mem_cons_self)).symm.trans (Sched.place_running hi)

/-- With somebody in the queue, `thread_wakeup` runs another thread. -/
theorem Step.wakeup_other {a a' : Sched π} {i : ℕ} {p : π} (h : Step a i (.wakeup p) a')
    (hi : a.running = some i) (hw : a.waiting p ≠ []) : ∃ j, j ≠ i ∧ a'.running = some j := by
  cases h with
  | wakeupNone hnone => exact absurd hnone hw
  | wakeup hcons hb =>
    refine ⟨_, ?_, hb.running⟩
    rintro rfl
    cases (Sched.place_waiting (hcons ▸ List.mem_cons_self)).symm.trans (Sched.place_running hi)

/-- Only the acting thread enters a queue, and only when it asks to wait there. -/
theorem Step.enqueued {a a' : Sched π} {i : ℕ} {r : Req π} (h : Step a i r a') {j : ℕ} {p : π}
    (hj : j ∈ a'.waiting p) (hnew : j ∉ a.waiting p) :
    j = i ∧ (r = .sleep p ∨ r = .wakeupWait p) := by
  have htouch : r.Touches p := by
    by_contra hp
    rw [h.waiting_of_not_touches hp] at hj
    exact hnew hj
  have hsame : a'.waiting p ≠ a.waiting p := fun he => hnew (he ▸ hj)
  rcases htouch with rfl | rfl | rfl
  · cases h with
    | sleepNone => exact absurd rfl hsame
    | sleep _ _ h =>
      rw [h.waiting, Function.update_self, List.mem_append] at hj
      exact ⟨List.mem_singleton.mp (hj.resolve_left hnew), .inl rfl⟩
  · cases h with
    | wakeupNone => exact absurd rfl hsame
    | wakeup hw h =>
      rw [h.waiting, Function.update_self] at hj
      exact absurd (hw ▸ List.mem_cons_of_mem _ hj) hnew
  · cases h with
    | wakeupWaitNone => exact absurd rfl hsame
    | wakeupWait hw h =>
      rw [h.waiting, Function.update_self, List.mem_append] at hj
      rcases hj with hj | hj
      · exact absurd (hw ▸ List.mem_cons_of_mem _ hj) hnew
      · exact ⟨List.mem_singleton.mp hj, .inr rfl⟩

/-- A step gives out no id and creates no primitive. Both are the business of other calls. -/
theorem Step.registry {a a' : Sched π} {i : ℕ} {r : Req π} (h : Step a i r a') :
    a'.newId = a.newId ∧ a'.prims = a.prims := by
  cases h with
  | stay => exact ⟨rfl, rfl⟩
  | sleepNone => exact ⟨rfl, rfl⟩
  | wakeupNone => exact ⟨rfl, rfl⟩
  | wakeupWaitNone => exact ⟨rfl, rfl⟩
  | sleep _ _ h => exact ⟨h.newId, h.prims⟩
  | wakeup _ h => exact ⟨h.newId, h.prims⟩
  | wakeupWait _ h => exact ⟨h.newId, h.prims⟩
  | resume _ _ h => exact ⟨h.newId, h.prims⟩
  | handover _ _ h => exact ⟨h.newId, h.prims⟩
  | handback _ h => exact ⟨h.newId, h.prims⟩
  | exit _ h => exact ⟨h.newId, h.prims⟩
  | exitLast _ h => exact ⟨h.newId, h.prims⟩

/-- Where the acting thread is left: only an exiting thread disappears, and only thread 0 is
parked. -/
theorem Step.self {a a' : Sched π} {i : ℕ} {r : Req π} (h : Step a i r a')
    (hi : a.running = some i) :
    (a'.place i = .nowhere ↔ r = .exit) ∧ (a'.place i = .parked → i = 0) := by
  have hpi := Sched.place_running hi
  have hq : ∀ {j : ℕ}, (a.place j = .ready ∨ ∃ p, a.place j = .waiting p) → i ≠ j := by
    rintro j hj rfl
    rw [hpi] at hj
    rcases hj with hj | ⟨p, hj⟩ <;> cases hj
  have hready : ∀ {j : ℕ}, j ∈ a.ready → i ≠ j := fun hj => hq (.inl (Sched.place_ready hj))
  have hwait : ∀ {j : ℕ} {tl : List ℕ} {p : π}, a.waiting p = j :: tl → i ≠ j := fun hw =>
    hq (.inr ⟨_, Sched.place_waiting (hw ▸ List.mem_cons_self)⟩)
  cases h with
  | stay => simp [hpi]
  | sleepNone => simp [hpi]
  | wakeupNone => simp [hpi]
  | wakeupWaitNone => simp [hpi]
  | sleep _ hr h => simp [h.place, Function.update_of_ne (hready (hr ▸ List.mem_cons_self))]
  | wakeup hw h => simp [h.place, Function.update_of_ne (hwait hw)]
  | wakeupWait hw h => simp [h.place, Function.update_of_ne (hwait hw)]
  | resume _ hj h => simp [h.place, Function.update_of_ne (hready hj)]
  | handover h0 hj h =>
    refine ⟨?_, fun _ => h0⟩
    simp [h.place, Function.update_of_ne (hready hj)]
  | handback _ h => simp [h.place]
  | exit hr h => simp [h.place, Function.update_of_ne (hready (hr ▸ List.mem_cons_self))]
  | exitLast _ h => simp [h.place]

/-- Only an exiting thread disappears; all others keep a place, whatever the step does. -/
theorem Step.placed_iff {a a' : Sched π} {i : ℕ} {r : Req π} (h : Step a i r a')
    (hi : a.running = some i) {k : ℕ} :
    a'.place k ≠ .nowhere ↔ a.place k ≠ .nowhere ∧ (k = i → r ≠ .exit) := by
  refine ⟨fun hk => ⟨h.placed hi hk, ?_⟩, fun ⟨hk, hr⟩ => ?_⟩
  · rintro rfl he
    exact hk ((h.self hi).1.mpr he)
  · rcases eq_or_ne k i with rfl | hne
    · exact fun he => hr rfl ((h.self hi).1.mp he)
    · rcases h.moves hi hne with ⟨-, hp⟩ | ⟨hrun, -⟩
      · rwa [hp]
      · simp [Sched.place_running hrun]

/-- Nobody runs afterwards only if thread 0 was resumed or the last thread exited. -/
theorem Step.running_ne_none {a a' : Sched π} {i : ℕ} {r : Req π} (h : Step a i r a')
    (hi : a.running = some i) (hr : r ≠ .resume 0) (he : r ≠ .exit) : a'.running ≠ none := by
  cases h with
  | stay => simp [hi]
  | sleepNone => simp [hi]
  | sleep _ _ h => simp [h.running]
  | wakeupNone => simp [hi]
  | wakeup _ h => simp [h.running]
  | wakeupWaitNone => simp [hi]
  | wakeupWait _ h => simp [h.running]
  | resume _ _ h => simp [h.running]
  | handover _ _ h => simp [h.running]
  | handback => exact absurd rfl hr
  | exit => exact absurd rfl he
  | exitLast => exact absurd rfl he

/-- A thread that exits hands over to a ready one if there is one. Otherwise thread 0 gets control,
and nobody counts as running. -/
theorem Step.exit_none {a a' : Sched π} {i : ℕ} (h : Step a i .exit a') (hr : a'.running = none) :
    a.ready = [] := by
  cases h with
  | exit _ h => cases h.running.symm.trans hr
  | exitLast h => exact h

namespace Sched

variable {a : Sched π} {i j : ℕ} {p : π} {tl : List ℕ}

/-! ## Permission to move -/

theorem canMove_waiting (hi : a.place i ≠ .nowhere) (hp : p ∈ a.prims) :
    a.CanMove i (.waiting p) :=
  ⟨a.place_lt hi, nofun, fun _ he => Place.waiting.inj he ▸ hp⟩

theorem canMove_ready (hi : i < a.newId) : a.CanMove i .ready := ⟨hi, nofun, nofun⟩

theorem canMove_parked (hi : a.place i ≠ .nowhere) : a.CanMove i .parked :=
  ⟨a.place_lt hi, nofun, nofun⟩

theorem canMove_nowhere (hi : a.place i ≠ .nowhere) : a.CanMove i .nowhere :=
  ⟨a.place_lt hi, nofun, nofun⟩

theorem canMove_running (hi : a.place i ≠ .nowhere) (hr : a.running = none) :
    a.CanMove i .running :=
  ⟨a.place_lt hi, fun _ => hr, nofun⟩

/-! ## Compositions of moves -/

/-- The running thread and a queued one differ, since a thread has one place. -/
theorem ne_running_of_place {pl : Place π} (hi : a.running = some i) (hj : a.place j = pl)
    (hpl : pl ≠ .running) : j ≠ i := by
  rintro rfl
  exact hpl (hj.symm.trans (place_running hi))

/-- **Switching.** The running thread goes to `pl`, then thread `j` runs. Every step that changes
the processor is an instance. -/
theorem switch_becomes {pl : Place π} (hi : a.running = some i) (hji : j ≠ i)
    (h₁ : a.CanMove i pl) (h₂ : (a.move i pl h₁).CanMove j .running) :
    Becomes a ((a.move i pl h₁).move j .running h₂) (some j)
      (a.ready.erase j ++ if pl = .ready then [i] else [])
      (fun p => (a.waiting p).erase j ++ if pl = .waiting p then [i] else [])
      (Function.update (Function.update a.place i pl) j .running) := by
  have hpl : a.place i = .running := place_running hi
  refine ⟨rfl, rfl, ?_, ?_, ?_, rfl⟩
  · rw [move_running, if_pos rfl]
  · rw [move_ready, if_neg (by simp), List.append_nil, move_ready,
      List.erase_of_not_mem (notMem_ready (by simp [hpl] : a.place i ≠ .ready))]
    by_cases hpr : pl = .ready
    · rw [if_pos hpr, List.erase_append]
      split
      · rfl
      · rename_i hnot
        rw [List.erase_of_not_mem hnot, List.erase_of_not_mem (by simpa using hji)]
    · rw [if_neg hpr, List.append_nil, List.append_nil]
  · funext p
    rw [move_waiting, if_neg (by simp), List.append_nil, move_waiting,
      List.erase_of_not_mem (notMem_waiting (by simp [hpl] : a.place i ≠ .waiting p))]
    by_cases hpr : pl = .waiting p
    · rw [if_pos hpr, List.erase_append]
      split
      · rfl
      · rename_i hnot
        rw [List.erase_of_not_mem hnot, List.erase_of_not_mem (by simpa using hji)]
    · rw [if_neg hpr, List.append_nil, List.append_nil]

/-- Erasing the head of a queue in a family of queues that share no thread touches that queue
only. -/
theorem erase_waiting (hw : a.waiting p = j :: tl) :
    (fun q => (a.waiting q).erase j) = Function.update a.waiting p tl := by
  have hj : a.place j = .waiting p := place_waiting (by simp [hw])
  funext q
  by_cases hq : q = p
  · subst hq
    rw [Function.update_self, hw, List.erase_cons_head]
  · rw [Function.update_of_ne hq]
    exact List.erase_of_not_mem (notMem_waiting (by simp [hj, Ne.symm hq]))

/-- Switching from a thread that does not go to wait to a ready one leaves the
waiting queues alone. -/
theorem waiting_of_ready (hj : a.place j = .ready) {pl : Place π} (hpl : ∀ q, pl ≠ .waiting q) :
    (fun q => (a.waiting q).erase j ++ if pl = .waiting q then [i] else []) = a.waiting := by
  funext q
  rw [if_neg (hpl q), List.append_nil]
  exact List.erase_of_not_mem (notMem_waiting (by simp [hj]))

/-- Sleeping, as two moves: the caller to the queue of the primitive, the head of the ready queue to
the processor. -/
theorem sleep_becomes (hi : a.running = some i) (hr : a.ready = j :: tl)
    (h₁ : a.CanMove i (.waiting p)) (h₂ : (a.move i (.waiting p) h₁).CanMove j .running) :
    Becomes a ((a.move i (.waiting p) h₁).move j .running h₂) (some j) tl
      (Function.update a.waiting p (a.waiting p ++ [i]))
      (Function.update (Function.update a.place i (.waiting p)) j .running) := by
  have hj : a.place j = .ready := place_ready (by simp [hr])
  obtain ⟨hid, hprims, hrun, hready, hwait, hplace⟩ :=
    switch_becomes hi (ne_running_of_place hi hj (by simp)) h₁ h₂
  refine ⟨hid, hprims, hrun, ?_, ?_, hplace⟩
  · rw [hready, if_neg (by simp), List.append_nil, hr, List.erase_cons_head]
  · rw [hwait]
    funext q
    rw [List.erase_of_not_mem (notMem_waiting (by simp [hj]))]
    by_cases hq : q = p
    · subst hq
      rw [if_pos rfl, Function.update_self]
    · rw [if_neg (by simp [Ne.symm hq]), List.append_nil, Function.update_of_ne hq]

/-- Taking the longest waiting thread `j` out of its queue, moving the running thread
to `pl`, and running `j`. -/
theorem wake_becomes (hi : a.running = some i) (hw : a.waiting p = j :: tl) {pl : Place π}
    (h₀ : a.CanMove j .parked) (h₁ : (a.move j .parked h₀).CanMove i pl)
    (h₂ : ((a.move j .parked h₀).move i pl h₁).CanMove j .running) :
    Becomes a (((a.move j .parked h₀).move i pl h₁).move j .running h₂) (some j)
      (a.ready ++ if pl = .ready then [i] else [])
      (fun q => Function.update a.waiting p tl q ++ if pl = .waiting q then [i] else [])
      (Function.update (Function.update a.place i pl) j .running) := by
  have hj : a.place j = .waiting p := place_waiting (by simp [hw])
  have hji : j ≠ i := ne_running_of_place hi hj (by simp)
  have hi' : (a.move j .parked h₀).running = some i := by
    rw [move_running_of_ne (by simp [hj]) (by simp), hi]
  obtain ⟨hid, hprims, hrun, hready, hwait, hplace⟩ := switch_becomes hi' hji h₁ h₂
  refine ⟨hid, hprims, hrun, ?_, ?_, ?_⟩
  · rw [hready, move_ready_of_ne (by simp [hj]) (by simp),
      List.erase_of_not_mem (notMem_ready (by simp [hj]))]
  · rw [hwait, ← erase_waiting hw]
    funext q
    rw [move_waiting, if_neg (by simp), List.append_nil, List.erase_of_not_mem]
    exact fun hm => ((a.waiting_nodup q).mem_erase_iff.mp hm).1 rfl
  · rw [hplace, move_place]
    funext k
    by_cases hkj : k = j
    · rw [hkj, Function.update_self, Function.update_self]
    · rw [Function.update_of_ne hkj, Function.update_of_ne hkj]
      by_cases hki : k = i
      · rw [hki, Function.update_self, Function.update_self]
      · rw [Function.update_of_ne hki, Function.update_of_ne hki, Function.update_of_ne hkj]

/-- Waking, as three moves: the head of the waiters aside, the caller to the ready queue, the head
to the processor. -/
theorem wakeup_becomes (hi : a.running = some i) (hw : a.waiting p = j :: tl)
    (h₀ : a.CanMove j .parked) (h₁ : (a.move j .parked h₀).CanMove i .ready)
    (h₂ : ((a.move j .parked h₀).move i .ready h₁).CanMove j .running) :
    Becomes a (((a.move j .parked h₀).move i .ready h₁).move j .running h₂) (some j)
      (a.ready ++ [i]) (Function.update a.waiting p tl)
      (Function.update (Function.update a.place i .ready) j .running) := by
  obtain ⟨hid, hprims, hrun, hready, hwait, hplace⟩ := wake_becomes hi hw h₀ h₁ h₂
  refine ⟨hid, hprims, hrun, by rw [hready, if_pos rfl], ?_, hplace⟩
  rw [hwait]
  funext q
  rw [if_neg (by simp), List.append_nil]

/-- Waking and waiting in one call, as three moves. The caller is appended when the head has left
already, so it may be alone in the queue. -/
theorem wakeupWait_becomes (hi : a.running = some i) (hw : a.waiting p = j :: tl)
    (h₀ : a.CanMove j .parked) (h₁ : (a.move j .parked h₀).CanMove i (.waiting p))
    (h₂ : ((a.move j .parked h₀).move i (.waiting p) h₁).CanMove j .running) :
    Becomes a (((a.move j .parked h₀).move i (.waiting p) h₁).move j .running h₂) (some j)
      a.ready (Function.update a.waiting p (tl ++ [i]))
      (Function.update (Function.update a.place i (.waiting p)) j .running) := by
  obtain ⟨hid, hprims, hrun, hready, hwait, hplace⟩ := wake_becomes hi hw h₀ h₁ h₂
  refine ⟨hid, hprims, hrun, ?_, ?_, hplace⟩
  · rw [hready, if_neg (by simp), List.append_nil]
  · rw [hwait]
    funext q
    by_cases hq : q = p
    · subst hq
      rw [if_pos rfl, Function.update_self, Function.update_self]
    · rw [if_neg (by simp [Ne.symm hq]), List.append_nil, Function.update_of_ne hq,
        Function.update_of_ne hq]

/-- Resuming a ready thread from a thread that stays ready, as two moves. -/
theorem resume_becomes (hi : a.running = some i) (hj : j ∈ a.ready)
    (h₁ : a.CanMove i .ready) (h₂ : (a.move i .ready h₁).CanMove j .running) :
    Becomes a ((a.move i .ready h₁).move j .running h₂) (some j) (a.ready.erase j ++ [i])
      a.waiting (Function.update (Function.update a.place i .ready) j .running) := by
  have hpl : a.place j = .ready := place_ready hj
  obtain ⟨hid, hprims, hrun, hready, hwait, hplace⟩ :=
    switch_becomes hi (ne_running_of_place hi hpl (by simp)) h₁ h₂
  refine ⟨hid, hprims, hrun, ?_, ?_, hplace⟩
  · rw [hready, if_pos rfl]
  · rw [hwait, waiting_of_ready hpl (by simp)]

/-- Resuming a ready thread from one that leaves the queues, as two moves. -/
theorem leave_becomes (hi : a.running = some i) (hj : j ∈ a.ready) {pl : Place π}
    (hpl : pl = .parked ∨ pl = .nowhere) (h₁ : a.CanMove i pl)
    (h₂ : (a.move i pl h₁).CanMove j .running) :
    Becomes a ((a.move i pl h₁).move j .running h₂) (some j) (a.ready.erase j)
      a.waiting (Function.update (Function.update a.place i pl) j .running) := by
  have hpj : a.place j = .ready := place_ready hj
  obtain ⟨hid, hprims, hrun, hready, hwait, hplace⟩ :=
    switch_becomes hi (ne_running_of_place hi hpj (by simp)) h₁ h₂
  refine ⟨hid, hprims, hrun, ?_, ?_, hplace⟩
  · rw [hready, if_neg (by rcases hpl with rfl | rfl <;> simp), List.append_nil]
  · rw [hwait, waiting_of_ready hpj (by rcases hpl with rfl | rfl <;> simp)]

/-- Control goes to thread 0 from a thread that stays ready. Thread 0 is in no queue, so nothing is
taken out. -/
theorem handback_becomes (hi : a.running = some i) (h₁ : a.CanMove i .ready) :
    Becomes a (a.move i .ready h₁) none (a.ready ++ [i]) a.waiting
      (Function.update a.place i .ready) := by
  have hpl : a.place i = .running := place_running hi
  refine ⟨rfl, rfl, move_running_none hi (by simp), ?_, ?_, rfl⟩
  · rw [move_ready, if_pos rfl, List.erase_of_not_mem (notMem_ready (by simp [hpl]))]
  · funext q
    exact move_waiting_of_ne (by simp [hpl]) (by simp)

/-- Control goes to thread 0 from a thread that exits, when nobody else is ready. -/
theorem exitLast_becomes (hi : a.running = some i) (hr : a.ready = []) (h₁ : a.CanMove i .nowhere) :
    Becomes a (a.move i .nowhere h₁) none [] a.waiting (Function.update a.place i .nowhere) := by
  have hpl : a.place i = .running := place_running hi
  refine ⟨rfl, rfl, move_running_none hi (by simp), ?_, ?_, rfl⟩
  · rw [move_ready_of_ne (by simp [hpl]) (by simp), hr]
  · funext q
    exact move_waiting_of_ne (by simp [hpl]) (by simp)

end Sched

end Generic

end GreenLib
