import GreenLib.Moves
import GreenLib.Represent

/-!
# The library refines the scheduler

For each operation of `thread_lib.c`: on a memory that represents a scheduler, the
operation does what `Step` says and the result represents the new scheduler. The
lemmas come in two forms. The first says that the operation succeeds, with its
result; the second starts from a successful call and lists what it can have been.
-/

namespace GreenLib

open State Sched

/-- The transfer at the end of a call of thread `i` goes to the thread that runs
afterwards; `none` stands for thread 0 getting control by its id. -/
inductive Lands (s : State) (i : ℕ) : Option ℕ → Transfer → Prop where
  | stay : Lands s i (some i) .stay
  | swap {j : ℕ} {ti tj : Addr} (hi : s.addrs i = some ti) (hj : s.addrs j = some tj)
      (hne : j ≠ i) : Lands s i (some j) (.swap ti tj)
  | back {ti t₀ : Addr} (hi : s.addrs i = some ti) (h₀ : s.addrs 0 = some t₀) (hne : i ≠ 0) :
      Lands s i none (.swap ti t₀)

/-- What a successful call that asks for `r` leads to: a scheduler step, memory that represents its
result, and a transfer that goes to the thread that runs now. -/
structure Done (clean : Prop) (s : State) (a : Sched Addr) (i : ℕ) (r : Req Addr) (s' : State)
    (tr : Transfer) (a' : Sched Addr) : Prop where
  step : Step a i r a'
  repr : Repr clean s' a'
  moved : Moved s s'
  lands : Lands s i a'.running tr

/-- What a call leaves alone of the threads `ids` and of the primitives. Their records stay, so the
saved contexts stay theirs. -/
structure Kept (s s' : State) (ids : ℕ → Prop) : Prop where
  addrs : ∀ k t, ids k → s.addrs k = some t → s'.addrs k = some t ∧ s'.slot t = s.slot t
  kind : s'.kind = s.kind
  helder : s'.helder = s.helder
  held : s'.held = s.held
  count : s'.count = s.count

theorem Moved.kept {s s' : State} (h : Moved s s') (ids : ℕ → Prop) : Kept s s' ids :=
  ⟨fun k t _ ht => ⟨by rw [h.addrs, ht], by rw [h.slot]⟩, h.kind, h.helder, h.held, h.count⟩

namespace Repr

variable {clean : Prop} {s : State} {a : Sched Addr} {i j : ℕ} {p : Addr} {tl : List ℕ}

theorem readyNum (h : Repr clean s a) : s.readyNum = a.ready.length := h.counted.ready

theorem readyNum_eq_zero (h : Repr clean s a) : s.readyNum = 0 ↔ a.ready = [] := by
  rw [h.readyNum, List.length_eq_zero_iff]

theorem checkPrim (h : Repr clean s a) (hp : p ∈ a.prims) : s.checkPrim p = .ok () := by
  obtain ⟨link, c⟩ := h.core
  unfold State.checkPrim
  rw [if_neg ((c.prims p).mp hp)]

theorem mem_prims_of_checkPrim (h : Repr clean s a) {u : Unit} (hc : s.checkPrim p = .ok u) :
    p ∈ a.prims := by
  obtain ⟨link, c⟩ := h.core
  unfold State.checkPrim at hc
  split at hc
  · cases hc
  · rename_i hk
    exact (c.prims p).mpr hk

/-! ## Sleep -/

/-- **`thread_sleep` with a ready thread**: the caller waits, the head of the ready
queue runs. -/
theorem threadSleep_ready (h : Repr clean s a) (hi : a.running = some i) (hp : p ∈ a.prims)
    (hr : a.ready = j :: tl) :
    ∃ s' ti tj a', s.threadSleep p = .ok (s', .swap ti tj) ∧
      Done clean s a i (.sleep p) s' (.swap ti tj) a' := by
  obtain ⟨link, c⟩ := h.core
  have hpi : a.place i ≠ .nowhere := by simp [place_running hi]
  have hpj : a.place j = .ready := place_ready (by simp [hr])
  have hji : j ≠ i := ne_running_of_place hi hpj (by simp)
  have h₁ := canMove_waiting hpi hp
  have c₁ := c.runningToLockWaiting hi h₁
  have hr₁ : (a.move i (.waiting p) h₁).ready = j :: tl := by
    rw [move_ready_of_ne (by simp [place_running hi]) (by simp), hr]
  have hpj₁ : (a.move i (.waiting p) h₁).place j ≠ .nowhere := by
    rw [move_place_of_ne hji, hpj]
    nofun
  have h₂ := canMove_running hpj₁ (move_running_none hi (by simp))
  have c₂ := c₁.popReady hr₁ h₂
  have hb := sleep_becomes hi hr h₁ h₂
  refine ⟨(s.runningToLockWaiting (link i) p).popReady (link j),
    s.thread (link i), s.thread (link j), _, ?_, .sleep hp hr hb, ⟨⟨link, c₂⟩, ?_⟩,
    ((Moved.runningToLockWaiting s _ _).trans (Moved.popReady _ _)), ?_⟩
  · have hq := c₁.ready
    rw [hr₁, List.map_cons] at hq
    have hstop : (s.runningToLockWaiting (link i) p).tReady.stop ≠ none := by
      rw [Ne, hq.stop_eq_none]
      simp
    obtain ⟨e, he⟩ := Option.ne_none_iff_exists'.mp hstop
    have hstart : (s.runningToLockWaiting (link i) p).tReady.start = some (link j) := hq.start
    unfold State.threadSleep
    rw [if_neg (by rw [h.readyNum_eq_zero, hr]; simp), (c.running i hi).1, deref_some]
    simp only [h.checkPrim hp, hstart, he, deref_some, bind, Except.bind]
    rfl
  · have htotal := hb.total_update hp
    have hc := h.counted
    rw [List.length_append, List.length_singleton] at htotal
    refine ⟨?_, ?_⟩
    · change s.readyNum - 1 = _
      rw [hb.ready, hc.ready, hr, List.length_cons, Nat.add_sub_cancel]
    · change s.waitingNum + 1 = _
      rw [hc.waiting]
      omega
  · rw [move_running, if_pos rfl]
    exact .swap (c.addrs i hpi) (c.addrs j (by simp [hpj])) hji

/-- **`thread_sleep` with nobody ready** returns at once. -/
theorem threadSleep_none (h : Repr clean s a) (hi : a.running = some i) (hr : a.ready = []) :
    s.threadSleep p = .ok (s, .stay) ∧ Done clean s a i (.sleep p) s .stay a := by
  refine ⟨?_, .sleepNone hr, h, Moved.refl s, ?_⟩
  · unfold State.threadSleep
    rw [if_pos (h.readyNum_eq_zero.mpr hr)]
  · rw [hi]
    exact .stay

/-- **A call of `thread_sleep` that succeeds** is the scheduler step for it. The two cases above are
joined here, and the callers need no other lemma about the function. -/
theorem threadSleep (h : Repr clean s a) (hi : a.running = some i) {s' : State} {tr : Transfer}
    (he : s.threadSleep p = .ok (s', tr)) : ∃ a', Done clean s a i (.sleep p) s' tr a' := by
  rcases hr : a.ready with _ | ⟨j, tl⟩
  · obtain ⟨heq, hd⟩ := h.threadSleep_none hi hr
    obtain ⟨rfl, rfl⟩ := Prod.mk.inj (Except.ok.inj (heq.symm.trans he))
    exact ⟨a, hd⟩
  · have hp : p ∈ a.prims := by
      have he' := he
      unfold State.threadSleep at he'
      rw [if_neg (by rw [h.readyNum_eq_zero, hr]; simp)] at he'
      obtain ⟨_, _, he'⟩ := bind_eq_ok he'
      obtain ⟨_, hc, _⟩ := bind_eq_ok he'
      exact h.mem_prims_of_checkPrim hc
    obtain ⟨s'', ti, tj, a', heq, hd⟩ := h.threadSleep_ready hi hp hr
    obtain ⟨rfl, rfl⟩ := Prod.mk.inj (Except.ok.inj (heq.symm.trans he))
    exact ⟨a', hd⟩

/-! ## Wakeup -/

/-- The woken thread `j` has left its queue and the caller has left the processor;
the rest of a wakeup makes `j` the running thread. -/
theorem wakeSwitch {link : ℕ → Addr} (c : Core clean s a link) (hj : a.place j = .parked)
    (hr : a.running = none) (hpos : 0 < s.waitingNum) :
    ∃ hm s', s.wakeSwitch (link i) (link j) =
        .ok (s', .swap (s.thread (link i)) (s.thread (link j))) ∧ Moved s s' ∧
      s'.readyNum = s.readyNum ∧ s'.waitingNum = s.waitingNum - 1 ∧
      Core clean s' (a.move j .running hm) link := by
  have hm : a.CanMove j .running := canMove_running (by simp [hj]) hr
  refine ⟨hm, { s.setStatus (s.thread (link j)) .running with
    tRunning := some (link j)
    waitingNum := s.waitingNum - 1
    coCurrentId := s.tId (s.thread (link j)) }, ?_,
    ((Moved.setStatus s _ _).trans (Moved.setPool _ _ _ _ _)), rfl, rfl, c.run hj hm _⟩
  unfold State.wakeSwitch State.waitingToRunning
  rw [decide_eq_true hpos]
  rfl

/-- **`thread_wakeup` with a waiting thread**: it runs at once, the caller is ready. -/
theorem threadWakeup_waiting (h : Repr clean s a) (hi : a.running = some i)
    (hw : a.waiting p = j :: tl) :
    ∃ s' tr a', s.threadWakeup p = .ok (s', tr) ∧ Done clean s a i (.wakeup p) s' tr a' := by
  obtain ⟨link, c⟩ := h.core
  have hp : p ∈ a.prims := a.waiting_prim (by simp [hw])
  have hpi : a.place i ≠ .nowhere := by simp [place_running hi]
  have hpj : a.place j = .waiting p := place_waiting (by simp [hw])
  have hji : j ≠ i := ne_running_of_place hi hpj (by simp)
  have hpos : 0 < s.waitingNum := by
    rw [h.counted.waiting]
    exact waitingTotal_pos (p := p) (by simp [hw])
  have h₀ : a.CanMove j .parked := canMove_parked (by simp [hpj])
  have c₀ := c.popWaiting hp hw h₀
  have hi₀ : (a.move j .parked h₀).running = some i := by
    rw [move_running_of_ne (by simp [hpj]) (by simp), hi]
  have h₁ : (a.move j .parked h₀).CanMove i .ready := canMove_ready (a.place_lt hpi)
  have c₁ := c₀.runningToReady hi₀ h₁
  obtain ⟨h₂, s₃, hsw, mv, hrn, hwn, c₂⟩ := wakeSwitch (i := i) c₁
    (by rw [move_place_of_ne hji, move_place_self]) (move_running_none hi₀ (by simp)) hpos
  have hb := wakeup_becomes hi hw h₀ h₁ h₂
  have mv₀ := (Moved.popWaiting s (link j) p).trans (Moved.runningToReady _ (link i))
  refine ⟨s₃, .swap (s.thread (link i)) (s.thread (link j)), _, ?_, .wakeup hw hb,
    ⟨⟨link, c₂⟩, ?_⟩, mv₀.trans mv, ?_⟩
  · have hrun : (s.popWaiting p (link j)).tRunning = some (link i) := (c₀.running i hi₀).1
    unfold State.threadWakeup
    simp only [h.checkPrim hp, c.extractFirstWaiting_eq hp hw, hrun, deref_some, hsw, bind,
      Except.bind]
    rfl
  · have htotal := hb.total_update hp
    rw [hw, List.length_cons] at htotal
    refine ⟨?_, ?_⟩
    · rw [hrn, hb.ready, List.length_append, List.length_singleton, ← h.readyNum]
      rfl
    · rw [hwn]
      change s.waitingNum - 1 = _
      rw [h.counted.waiting]
      omega
  · rw [hb.running]
    exact .swap (c.addrs i hpi) (c.addrs j (by simp [hpj])) hji

/-- **`thread_wakeup` with nobody waiting** returns at once. -/
theorem threadWakeup_none (h : Repr clean s a) (hi : a.running = some i) (hp : p ∈ a.prims)
    (hw : a.waiting p = []) :
    s.threadWakeup p = .ok (s, .stay) ∧ Done clean s a i (.wakeup p) s .stay a := by
  obtain ⟨link, c⟩ := h.core
  refine ⟨?_, .wakeupNone hw, h, Moved.refl s, ?_⟩
  · unfold State.threadWakeup
    simp only [h.checkPrim hp, c.extractFirstWaiting_nil hp hw, bind, Except.bind]
  · rw [hi]
    exact .stay

/-- **A call of `thread_wakeup` that succeeds** is the scheduler step for it, and the primitive
existed. -/
theorem threadWakeup (h : Repr clean s a) (hi : a.running = some i) {s' : State} {tr : Transfer}
    (he : s.threadWakeup p = .ok (s', tr)) :
    p ∈ a.prims ∧ ∃ a', Done clean s a i (.wakeup p) s' tr a' := by
  have hp : p ∈ a.prims := by
    obtain ⟨_, hc, _⟩ := bind_eq_ok he
    exact h.mem_prims_of_checkPrim hc
  refine ⟨hp, ?_⟩
  rcases hw : a.waiting p with _ | ⟨j, tl⟩
  · obtain ⟨heq, hd⟩ := h.threadWakeup_none hi hp hw
    obtain ⟨rfl, rfl⟩ := Prod.mk.inj (Except.ok.inj (heq.symm.trans he))
    exact ⟨a, hd⟩
  · obtain ⟨s'', tr'', a', heq, hd⟩ := h.threadWakeup_waiting hi hw
    obtain ⟨rfl, rfl⟩ := Prod.mk.inj (Except.ok.inj (heq.symm.trans he))
    exact ⟨a', hd⟩

/-! ## Wakeup and wait -/

/-- **`thread_wakeup_wait` with a waiting thread**: it runs at once, the caller waits. -/
theorem threadWakeupWait_waiting (h : Repr clean s a) (hi : a.running = some i)
    (hw : a.waiting p = j :: tl) :
    ∃ s' tr a', s.threadWakeupWait p = .ok (s', tr) ∧
      Done clean s a i (.wakeupWait p) s' tr a' := by
  obtain ⟨link, c⟩ := h.core
  have hp : p ∈ a.prims := a.waiting_prim (by simp [hw])
  have hpi : a.place i ≠ .nowhere := by simp [place_running hi]
  have hpj : a.place j = .waiting p := place_waiting (by simp [hw])
  have hji : j ≠ i := ne_running_of_place hi hpj (by simp)
  have h₀ : a.CanMove j .parked := canMove_parked (by simp [hpj])
  have c₀ := c.popWaiting hp hw h₀
  have hi₀ : (a.move j .parked h₀).running = some i := by
    rw [move_running_of_ne (by simp [hpj]) (by simp), hi]
  have hpi₀ : (a.move j .parked h₀).place i ≠ .nowhere := by simp [place_running hi₀]
  have h₁ : (a.move j .parked h₀).CanMove i (.waiting p) := canMove_waiting hpi₀ hp
  have c₁ := c₀.runningToLockWaiting hi₀ h₁
  obtain ⟨h₂, s₃, hsw, mv, hrn, hwn, c₂⟩ := wakeSwitch (i := i) c₁
    (by rw [move_place_of_ne hji, move_place_self]) (move_running_none hi₀ (by simp))
    (Nat.succ_pos _)
  have hb := wakeupWait_becomes hi hw h₀ h₁ h₂
  have mv₀ := (Moved.popWaiting s (link j) p).trans (Moved.runningToLockWaiting _ (link i) p)
  refine ⟨s₃, .swap (s.thread (link i)) (s.thread (link j)), _, ?_, .wakeupWait hw hb,
    ⟨⟨link, c₂⟩, ?_⟩, mv₀.trans mv, ?_⟩
  · have hrun : s.tRunning = some (link i) := (c.running i hi).1
    unfold State.threadWakeupWait
    simp only [h.checkPrim hp, c.extractFirstWaiting_eq hp hw, hrun, deref_some, hsw, bind,
      Except.bind]
    rfl
  · have htotal := hb.total_update hp
    rw [hw, List.length_cons, List.length_append, List.length_singleton] at htotal
    refine ⟨?_, ?_⟩
    · rw [hrn, hb.ready, ← h.readyNum]
      rfl
    · rw [hwn]
      change s.waitingNum + 1 - 1 = _
      rw [h.counted.waiting]
      omega
  · rw [hb.running]
    exact .swap (c.addrs i hpi) (c.addrs j (by simp [hpj])) hji

/-- **`thread_wakeup_wait` with nobody waiting** returns at once. -/
theorem threadWakeupWait_none (h : Repr clean s a) (hi : a.running = some i) (hp : p ∈ a.prims)
    (hw : a.waiting p = []) :
    s.threadWakeupWait p = .ok (s, .stay) ∧ Done clean s a i (.wakeupWait p) s .stay a := by
  obtain ⟨link, c⟩ := h.core
  refine ⟨?_, .wakeupWaitNone hw, h, Moved.refl s, ?_⟩
  · unfold State.threadWakeupWait
    simp only [h.checkPrim hp, c.extractFirstWaiting_nil hp hw, (c.running i hi).1, deref_some,
      bind, Except.bind]
  · rw [hi]
    exact .stay

/-- **A call of `thread_wakeup_wait` that succeeds** is the scheduler step for it, and the primitive
existed. -/
theorem threadWakeupWait (h : Repr clean s a) (hi : a.running = some i) {s' : State}
    {tr : Transfer} (he : s.threadWakeupWait p = .ok (s', tr)) :
    p ∈ a.prims ∧ ∃ a', Done clean s a i (.wakeupWait p) s' tr a' := by
  have hp : p ∈ a.prims := by
    obtain ⟨_, _, he⟩ := bind_eq_ok he
    obtain ⟨_, hc, _⟩ := bind_eq_ok he
    exact h.mem_prims_of_checkPrim hc
  refine ⟨hp, ?_⟩
  rcases hw : a.waiting p with _ | ⟨j, tl⟩
  · obtain ⟨heq, hd⟩ := h.threadWakeupWait_none hi hp hw
    obtain ⟨rfl, rfl⟩ := Prod.mk.inj (Except.ok.inj (heq.symm.trans he))
    exact ⟨a, hd⟩
  · obtain ⟨s'', tr'', a', heq, hd⟩ := h.threadWakeupWait_waiting hi hw
    obtain ⟨rfl, rfl⟩ := Prod.mk.inj (Except.ok.inj (heq.symm.trans he))
    exact ⟨a', hd⟩

/-! ## Resume and yield -/

/-- **`thread_resume` of a ready thread** by a thread other than 0, which stays ready. -/
theorem threadResume_ready (h : Repr clean s a) (hi : a.running = some i) (hi0 : i ≠ 0)
    (hj : j ∈ a.ready) (hj0 : j ≠ 0) :
    ∃ s' tr a', s.threadResume j = .ok (s', tr) ∧ Done clean s a i (.resume j) s' tr a' := by
  obtain ⟨link, c⟩ := h.core
  have hpi : a.place i ≠ .nowhere := by simp [place_running hi]
  have hpj : a.place j = .ready := place_ready hj
  have hji : j ≠ i := ne_running_of_place hi hpj (by simp)
  have h₁ : a.CanMove i .ready := canMove_ready (a.place_lt hpi)
  have hrun₁ := move_running_none (h := h₁) hi (by simp)
  have c₁ := (c.runningToReady hi h₁).setCurrent hrun₁ j
  have hj₁ : j ∈ (a.move i .ready h₁).ready := by
    rw [ready_iff, move_place_of_ne hji, hpj]
  have h₂ := canMove_running (c₁.ready_placed j hj₁) hrun₁
  obtain ⟨s', he, mv, hrn, hwn, c₂⟩ := c₁.readyToRunning hj₁ (Nat.succ_pos _) h₂ rfl
  have hb := resume_becomes hi hj h₁ h₂
  have mv₀ : Moved s { s.runningToReady (link i) with coCurrentId := j } :=
    (Moved.runningToReady s (link i)).trans (Moved.setPool _ _ _ _ _)
  refine ⟨s', .swap (s.thread (link i)) (s.thread (link j)), _, ?_, .resume hi0 hj hb,
    ⟨⟨link, c₂⟩, ?_⟩, mv₀.trans mv, ?_⟩
  · change State.readyToRunning _ (s.thread (link j)) = _ at he
    unfold State.threadResume
    simp only [(c.running i hi).1, c.tId hpi, c.getThread (i := j) (by simp [hpj]), deref_some,
      bind, Except.bind, check, bne_iff_ne, ne_eq, hji.symm, hi0, hj0, not_false_eq_true, if_true,
      he]
  · refine ⟨?_, ?_⟩
    · rw [hrn, hb.ready, List.length_append, List.length_erase_of_mem hj, List.length_singleton,
        ← h.readyNum]
      have hpos := List.length_pos_of_mem hj
      rw [← h.readyNum] at hpos
      change s.readyNum + 1 - 1 = _
      omega
    · rw [hwn, hb.total_same, ← h.counted.waiting]
      rfl
  · rw [hb.running]
    exact .swap (c.addrs i hpi) (c.addrs j (by simp [hpj])) hji

/-- **`thread_resume` of a ready thread by thread 0**, which enters no queue. -/
theorem threadResume_zero (h : Repr clean s a) (hi : a.running = some 0) (hj : j ∈ a.ready) :
    ∃ s' tr a', s.threadResume j = .ok (s', tr) ∧ Done clean s a 0 (.resume j) s' tr a' := by
  obtain ⟨link, c⟩ := h.core
  have hpi : a.place 0 ≠ .nowhere := by simp [place_running hi]
  have hpj : a.place j = .ready := place_ready hj
  have hji : j ≠ 0 := ne_running_of_place hi hpj (by simp)
  have h₁ : a.CanMove 0 .parked := canMove_parked hpi
  have hrun₁ := move_running_none (h := h₁) hi (by simp)
  have c₁ := (c.park hi h₁).setCurrent hrun₁ j
  have hj₁ : j ∈ (a.move 0 .parked h₁).ready := by
    rw [ready_iff, move_place_of_ne hji, hpj]
  have h₂ := canMove_running (c₁.ready_placed j hj₁) hrun₁
  have hpos : 0 < s.readyNum := by
    rw [h.readyNum]
    exact List.length_pos_of_mem hj
  obtain ⟨s', he, mv, hrn, hwn, c₂⟩ := c₁.readyToRunning hj₁ hpos h₂ rfl
  have hb := leave_becomes hi hj (.inl rfl) h₁ h₂
  have mv₀ : Moved s { s.setStatus (s.thread (link 0)) .ready with coCurrentId := j } :=
    (Moved.setStatus s _ _).trans (Moved.setPool _ _ _ _ _)
  refine ⟨s', .swap (s.thread (link 0)) (s.thread (link j)), _, ?_, .handover rfl hj hb,
    ⟨⟨link, c₂⟩, ?_⟩, mv₀.trans mv, ?_⟩
  · change State.readyToRunning _ (s.thread (link j)) = _ at he
    unfold State.threadResume
    simp only [(c.running 0 hi).1, c.tId hpi, c.getThread (i := j) (by simp [hpj]), deref_some,
      bind, Except.bind, check, bne_iff_ne, ne_eq, hji.symm, hji, not_false_eq_true, not_true,
      if_true, if_false, he]
  · refine ⟨?_, ?_⟩
    · rw [hrn, hb.ready, List.length_erase_of_mem hj, ← h.readyNum]
      rfl
    · rw [hwn, hb.total_same, ← h.counted.waiting]
      rfl
  · rw [hb.running]
    exact .swap (c.addrs 0 hpi) (c.addrs j (by simp [hpj])) hji

/-- A thread does not resume itself: the assertion of `thread_resume` fails. So the two threads of a
resume are always different. -/
theorem threadResume_self (h : Repr clean s a) (hi : a.running = some i) {r : State × Transfer} :
    s.threadResume i ≠ .ok r := by
  obtain ⟨link, c⟩ := h.core
  intro he
  obtain ⟨run, hrun, he⟩ := bind_eq_ok he
  obtain ⟨_, hne, he⟩ := bind_eq_ok he
  obtain rfl : link i = run := Option.some.inj ((c.running i hi).1.symm.trans (deref_eq_ok hrun))
  have hid := check_eq_ok hne
  rw [c.tId (by simp [place_running hi])] at hid
  simp at hid

/-- `extract_thread` and `ready_to_running` leave `co_current_id` alone. -/
theorem coCurrentId_of_readyToRunning {s s' : State} {t : Addr} {b : Bool}
    (he : s.readyToRunning t = .ok (s', b)) : s'.coCurrentId = s.coCurrentId := by
  obtain ⟨_, _, he⟩ := bind_eq_ok he
  obtain ⟨⟨s₁, p⟩, hs₁, he⟩ := bind_eq_ok he
  have hco : s₁.coCurrentId = s.coCurrentId := by
    obtain ⟨_, _, hs₁⟩ := bind_eq_ok hs₁
    obtain ⟨_, _, hs₁⟩ := bind_eq_ok hs₁
    split at hs₁
    · cases hs₁
    · obtain ⟨rfl, -⟩ := Prod.mk.inj (Except.ok.inj hs₁)
      rfl
    · split at hs₁
      · cases hs₁
      · obtain ⟨rfl, -⟩ := Prod.mk.inj (Except.ok.inj hs₁)
        rfl
  cases p <;> obtain ⟨rfl, -⟩ := Prod.mk.inj (Except.ok.inj he) <;> exact hco

/-- Whoever gets control through `thread_resume(id)` is known as thread `id`. This holds without any
assumption on the queues. -/
theorem coCurrentId_of_threadResume {s s' : State} {tr : Transfer} {id : ℕ}
    (he : s.threadResume id = .ok (s', tr)) : s'.coCurrentId = id := by
  obtain ⟨_, _, he⟩ := bind_eq_ok he
  obtain ⟨_, _, he⟩ := bind_eq_ok he
  obtain ⟨_, _, he⟩ := bind_eq_ok he
  obtain ⟨_, _, he⟩ := bind_eq_ok he
  rcases eq_or_ne id 0 with rfl | h0
  · obtain ⟨rfl, -⟩ := Prod.mk.inj (Except.ok.inj he)
    rfl
  · dsimp only at he
    rw [if_pos h0] at he
    obtain ⟨⟨s₁, found⟩, hs₁, he⟩ := bind_eq_ok he
    obtain ⟨_, _, he⟩ := bind_eq_ok he
    obtain ⟨rfl, -⟩ := Prod.mk.inj (Except.ok.inj he)
    exact coCurrentId_of_readyToRunning hs₁

/-- **`thread_resume(0)`** gives control to thread 0 and leaves nobody running: `t_running` is null
then. The caller is ready. -/
theorem threadResume_back (h : Repr clean s a) (hc : ¬ clean) (hi : a.running = some i)
    (hi0 : i ≠ 0) {t₀ : Addr} (ht : s.addrs 0 = some t₀) :
    ∃ s' tr a', s.threadResume 0 = .ok (s', tr) ∧ Done clean s a i (.resume 0) s' tr a' := by
  obtain ⟨link, c⟩ := h.core
  have hpi : a.place i ≠ .nowhere := by simp [place_running hi]
  have h₁ : a.CanMove i .ready := canMove_ready (a.place_lt hpi)
  have c₁ := ((c.runningToReady hi h₁).setCurrent
    (move_running_none hi (by simp)) 0).setStatus_zero hc ht .running
  have hb := handback_becomes hi h₁
  refine ⟨_, .swap (s.thread (link i)) t₀, _, ?_, .handback hi0 hb, ⟨⟨link, c₁⟩, ?_⟩,
    ((Moved.runningToReady s _).trans (Moved.setPool _ _ _ _ _)).trans (Moved.setStatus _ _ _), ?_⟩
  · have hget : s.getThread 0 = .ok (some t₀) := by
      unfold State.getThread
      rw [if_pos (by decide), ht]
    unfold State.threadResume
    simp only [(c.running i hi).1, c.tId hpi, hget, deref_some, bind, Except.bind, check,
      bne_iff_ne, ne_eq, hi0, not_false_eq_true, not_true, if_true, if_false]
  · refine ⟨?_, ?_⟩
    · rw [hb.ready, List.length_append, List.length_singleton, ← h.readyNum]
      rfl
    · rw [hb.total_same, ← h.counted.waiting]
      rfl
  · rw [hb.running]
    exact .back (c.addrs i hpi) ht hi0

/-- A call of `thread_resume` that succeeds, with a target in the ready queue or with
target 0 when the status of thread 0 does not matter. -/
theorem threadResume (h : Repr clean s a) (hi : a.running = some i) {s' : State} {tr : Transfer}
    (hj : j ≠ 0 → j ∈ a.ready) (hj0 : j = 0 → ¬ clean)
    (he : s.threadResume j = .ok (s', tr)) : ∃ a', Done clean s a i (.resume j) s' tr a' := by
  obtain ⟨link, c⟩ := h.core
  have hpi : a.place i ≠ .nowhere := by simp [place_running hi]
  have hpre : i ≠ j ∧ ∃ t, s.addrs j = some t := by
    have he' := he
    unfold State.threadResume at he'
    rw [(c.running i hi).1, deref_some] at he'
    obtain ⟨_, hr, he'⟩ := bind_eq_ok he'
    obtain rfl := Except.ok.inj hr
    obtain ⟨_, hck, he'⟩ := bind_eq_ok he'
    obtain ⟨q, hget, he'⟩ := bind_eq_ok he'
    obtain ⟨t, ht, -⟩ := bind_eq_ok he'
    rw [c.tId hpi] at hck
    refine ⟨by simpa using check_eq_ok hck, t, ?_⟩
    unfold State.getThread at hget
    split at hget
    · rw [Except.ok.inj hget]
      exact deref_eq_ok ht
    · cases hget
  obtain ⟨hij, t, ht⟩ := hpre
  have hex : ∃ s' tr a', s.threadResume j = .ok (s', tr) ∧
      Done clean s a i (.resume j) s' tr a' := by
    by_cases hj0' : j = 0
    · subst hj0'
      exact h.threadResume_back (hj0 rfl) hi hij ht
    · by_cases hi0 : i = 0
      · subst hi0
        exact h.threadResume_zero hi (hj hj0')
      · exact h.threadResume_ready hi hi0 (hj hj0') hj0'
  obtain ⟨s'', tr'', a', heq, hd⟩ := hex
  obtain ⟨rfl, rfl⟩ := Prod.mk.inj (Except.ok.inj (heq.symm.trans he))
  exact ⟨a', hd⟩

/-- `thread_yield` is `thread_resume` of the head of the ready queue, or of thread 0. The counter
and the queue agree on which of the two it is. -/
theorem threadYield_eq (h : Repr clean s a) : s.threadYield = s.threadResume (a.ready.headD 0) := by
  obtain ⟨link, c⟩ := h.core
  unfold State.threadYield
  rcases hr : a.ready with _ | ⟨j, tl⟩
  · rw [if_pos (h.readyNum_eq_zero.mpr hr)]
    rfl
  · have hstart : s.tReady.start = some (link j) := by
      rw [c.ready.start, hr]
      rfl
    rw [if_neg (by rw [h.readyNum_eq_zero, hr]; simp), hstart, deref_some]
    have hid : s.tId (s.thread (link j)) = j :=
      c.tId (c.ready_placed j (by simp [hr]))
    change s.threadResume (s.tId (s.thread (link j))) = _
    rw [hid]
    rfl

/-! ## Exit -/

/-- What `thread_exit` leaves of the memory, and whose context it loads. Unlike the other calls it
saves no context, so nobody can come back to the caller. -/
structure Exited (clean : Prop) (s : State) (a : Sched Addr) (i : ℕ) (s' : State) (tr : Transfer)
    (a' : Sched Addr) : Prop where
  step : Step a i .exit a'
  repr : Repr clean s' a'
  kept : Kept s s' (· ≠ i)
  slotUsed : s'.slotUsed = s.slotUsed
  next : ∀ j, a'.running = some j → ∃ t, s.addrs j = some t ∧ tr = .switch t
  back : a'.running = none → i ≠ 0 ∧ s'.coCurrentId = 0 ∧
    ∃ t, s.addrs 0 = some t ∧ tr = .switch t

/-- The walk over the join blocks does not matter to the scheduler: it writes no field that
represents it. -/
theorem markJoinable (h : Repr clean s a) {n : ℕ} {q : Ptr} {s' : State}
    (he : s.markJoinable n q = .ok s') : Repr clean s' a ∧ Moved s s' ∧
      s'.coCurrentId = s.coCurrentId := by
  obtain ⟨jb, rfl⟩ := State.markJoinable_eq he
  obtain ⟨link, c⟩ := h.core
  exact ⟨⟨⟨link, c.initialised, c.newId, c.addrs, c.record, c.linkLive, c.ready, c.waiting,
    c.prims, c.running, c.status⟩, h.counted.ready, h.counted.waiting⟩,
    ⟨rfl, rfl, rfl, rfl, rfl, rfl, rfl, rfl, rfl, rfl, rfl, rfl, rfl⟩, rfl⟩

/-- The part of `thread_exit` behind the walk: the record is gone, and the head of the ready queue
runs, or thread 0. -/
theorem exitSwitch (h : Repr clean s a) (hi : a.running = some i) {link : ℕ → Addr}
    (c : Core clean s a link) (hlast : a.ready = [] → ¬ clean) {s' : State} {tr : Transfer}
    (he : (s.removeThread (s.thread (link i))).exitSwitch = .ok (s', tr)) :
    ∃ a', Exited clean s a i s' tr a' := by
  have hpi : a.place i ≠ .nowhere := by simp [place_running hi]
  have h₁ : a.CanMove i .nowhere := canMove_nowhere hpi
  have c₁ := c.removeThread hi h₁
  have hrun₁ := move_running_none (h := h₁) hi (by simp)
  have haddrs := c.removeThread_addrs hpi
  have hkept : Kept s (s.removeThread (s.thread (link i))) (· ≠ i) := by
    refine ⟨fun k t hk ht => ⟨?_, rfl⟩, rfl, rfl, rfl, rfl⟩
    rw [haddrs, Function.update_of_ne hk, ht]
  have hnum : (s.removeThread (s.thread (link i))).readyNum = 0 ↔ a.ready = [] :=
    h.readyNum_eq_zero
  unfold State.exitSwitch at he
  rcases hr : a.ready with _ | ⟨j, tl⟩
  · -- nobody is ready: thread 0 is switched to
    rw [if_pos (hnum.mpr hr)] at he
    obtain ⟨q, hget, he⟩ := bind_eq_ok he
    obtain ⟨t, ht, he⟩ := bind_eq_ok he
    obtain ⟨rfl, rfl⟩ := Prod.mk.inj (Except.ok.inj he)
    unfold State.getThread at hget
    rw [if_pos (by decide)] at hget
    have ht₀ : (s.removeThread (s.thread (link i))).addrs 0 = some t :=
      (Except.ok.inj hget).trans (deref_eq_ok ht)
    have hi0 : i ≠ 0 := by
      rintro rfl
      rw [haddrs, Function.update_self] at ht₀
      cases ht₀
    have hb := exitLast_becomes hi hr h₁
    have c₂ := (c₁.setCurrent hrun₁ 0).setStatus_zero (hlast hr) ht₀ .running
    refine ⟨_, .exitLast hr hb, ⟨⟨link, c₂⟩, ?_, ?_⟩,
      ⟨hkept.addrs, rfl, rfl, rfl, rfl⟩, rfl, ?_, ?_⟩
    · rw [hb.ready]
      exact h.readyNum_eq_zero.mpr hr
    · rw [hb.total_same]
      exact h.counted.waiting
    · intro j hj
      rw [hb.running] at hj
      cases hj
    · intro _
      rw [haddrs, Function.update_of_ne hi0.symm] at ht₀
      exact ⟨hi0, rfl, t, ht₀, rfl⟩
  · -- the head of the ready queue is switched to
    have hpj : a.place j = .ready := place_ready (by simp [hr])
    have hji : j ≠ i := ne_running_of_place hi hpj (by simp)
    have hpj₁ : (a.move i .nowhere h₁).place j = .ready := by
      rw [move_place_of_ne hji, hpj]
    have hn₁ : (a.move i .nowhere h₁).place j ≠ .nowhere := by simp [hpj₁]
    have h₂ := canMove_running hn₁ hrun₁
    have hnz : (s.removeThread (s.thread (link i))).readyNum ≠ 0 := by
      rw [Ne, hnum, hr]
      simp
    have hstart : (s.removeThread (s.thread (link i))).tReady.start = some (link j) := by
      refine c.ready.start.trans ?_
      rw [hr]
      rfl
    obtain ⟨s'', hex, mv, hrn, hwn, c₂⟩ := (c₁.setCurrent hrun₁ j).readyToRunning
      (ready_iff _ |>.mpr hpj₁) (Nat.pos_of_ne_zero hnz) h₂ rfl
    change State.readyToRunning _ ((s.removeThread (s.thread (link i))).thread (link j)) = _ at hex
    have hidj : (s.removeThread (s.thread (link i))).tId
        ((s.removeThread (s.thread (link i))).thread (link j)) = j := c₁.tId hn₁
    rw [if_neg hnz] at he
    simp only [hstart, deref_some, hidj, c₁.getThread hn₁, hex, bind, Except.bind] at he
    obtain ⟨rfl, rfl⟩ := Prod.mk.inj (Except.ok.inj he)
    have hj : j ∈ a.ready := by simp [hr]
    have hb := leave_becomes hi hj (.inr rfl) h₁ h₂
    rw [hr, List.erase_cons_head] at hb
    refine ⟨_, .exit hr hb, ⟨⟨link, c₂⟩, ?_, ?_⟩, ?_, mv.slotUsed, ?_, ?_⟩
    · rw [hrn, hb.ready]
      change s.readyNum - 1 = _
      rw [h.readyNum, hr]
      rfl
    · rw [hwn, hb.total_same, ← h.counted.waiting]
      rfl
    · have hk := mv.kept (· ≠ i)
      refine ⟨fun k t hk' ht => ?_, hk.kind, hk.helder, hk.held, hk.count⟩
      obtain ⟨ht', hs'⟩ := hkept.addrs k t hk' ht
      obtain ⟨ht'', hs''⟩ := hk.addrs k t hk' ht'
      exact ⟨ht'', hs''.trans hs'⟩
    · intro k hk
      rw [hb.running] at hk
      obtain rfl := Option.some.inj hk
      exact ⟨_, c.addrs j (by simp [hpj]), rfl⟩
    · intro hk
      rw [hb.running] at hk
      cases hk

/-- **A call of `thread_exit` that succeeds** is the exit step of the scheduler. -/
theorem threadExit (h : Repr clean s a) (hi : a.running = some i) (hlast : a.ready = [] → ¬ clean)
    {s' : State} {tr : Transfer} (he : s.threadExit = .ok (s', tr)) :
    ∃ a', Exited clean s a i s' tr a' := by
  obtain ⟨link, c⟩ := h.core
  have hpi : a.place i ≠ .nowhere := by simp [place_running hi]
  unfold State.threadExit at he
  rw [(c.running i hi).2, c.getThread hpi] at he
  obtain ⟨q, hq, he⟩ := bind_eq_ok he
  obtain rfl := Except.ok.inj hq
  rw [deref_some] at he
  obtain ⟨cur, hcur, he⟩ := bind_eq_ok he
  obtain rfl := Except.ok.inj hcur
  obtain ⟨s₁, hmark, he⟩ := bind_eq_ok he
  obtain ⟨jb, rfl⟩ := State.markJoinable_eq hmark
  split at he
  · cases he
  · obtain ⟨hr₁, mv, -⟩ := h.markJoinable hmark
    have c₁ : Core clean { s with joinable := jb } a link :=
      ⟨c.initialised, c.newId, c.addrs, c.record, c.linkLive, c.ready, c.waiting, c.prims,
        c.running, c.status⟩
    obtain ⟨a', hx⟩ := hr₁.exitSwitch hi c₁ hlast he
    exact ⟨a', hx.step, hx.repr,
      ⟨hx.kept.addrs, hx.kept.kind, hx.kept.helder, hx.kept.held, hx.kept.count⟩,
      hx.slotUsed, hx.next, hx.back⟩

/-- Behind the walk `thread_exit` always finds somebody: a ready thread, or thread 0. -/
theorem exitSwitch_ok (h : Repr clean s a) (hi : a.running = some i) (hi0 : i ≠ 0)
    (h0 : a.place 0 ≠ .nowhere) {link : ℕ → Addr} (c : Core clean s a link) :
    ∃ r, (s.removeThread (s.thread (link i))).exitSwitch = .ok r := by
  have hpi : a.place i ≠ .nowhere := by simp [place_running hi]
  have h₁ : a.CanMove i .nowhere := canMove_nowhere hpi
  have c₁ := c.removeThread hi h₁
  have hrun₁ := move_running_none (h := h₁) hi (by simp)
  have hnum : (s.removeThread (s.thread (link i))).readyNum = 0 ↔ a.ready = [] :=
    h.readyNum_eq_zero
  unfold State.exitSwitch
  rcases hr : a.ready with _ | ⟨j, tl⟩
  · have hzero : (a.move i .nowhere h₁).place 0 ≠ .nowhere := by
      rwa [move_place_of_ne hi0.symm]
    rw [if_pos (hnum.mpr hr), c₁.getThread hzero]
    exact ⟨_, rfl⟩
  · have hpj : a.place j = .ready := place_ready (by simp [hr])
    have hji : j ≠ i := ne_running_of_place hi hpj (by simp)
    have hpj₁ : (a.move i .nowhere h₁).place j = .ready := by
      rw [move_place_of_ne hji, hpj]
    have hn₁ : (a.move i .nowhere h₁).place j ≠ .nowhere := by simp [hpj₁]
    have hnz : (s.removeThread (s.thread (link i))).readyNum ≠ 0 := by
      rw [Ne, hnum, hr]
      simp
    have hstart : (s.removeThread (s.thread (link i))).tReady.start = some (link j) := by
      refine c.ready.start.trans ?_
      rw [hr]
      rfl
    obtain ⟨s', hex, -⟩ := (c₁.setCurrent hrun₁ j).readyToRunning (ready_iff _ |>.mpr hpj₁)
      (Nat.pos_of_ne_zero hnz) (canMove_running hn₁ hrun₁) rfl
    change State.readyToRunning _ ((s.removeThread (s.thread (link i))).thread (link j)) = _ at hex
    have hidj : (s.removeThread (s.thread (link i))).tId
        ((s.removeThread (s.thread (link i))).thread (link j)) = j := c₁.tId hn₁
    rw [if_neg hnz]
    simp only [hstart, deref_some, hidj, c₁.getThread hn₁, hex, bind, Except.bind]
    exact ⟨_, rfl⟩

/-- **`thread_exit` of a thread that nobody has joined** succeeds: its list is empty, so the walk
ends at once. -/
theorem threadExit_ok (h : Repr clean s a) (hi : a.running = some i) (hi0 : i ≠ 0)
    (h0 : a.place 0 ≠ .nowhere) (hjoined : ∀ t, s.addrs i = some t → (s.joined t).start = none) :
    ∃ r, s.threadExit = .ok r := by
  obtain ⟨link, c⟩ := h.core
  have hpi : a.place i ≠ .nowhere := by simp [place_running hi]
  obtain ⟨r, hr⟩ := h.exitSwitch_ok hi hi0 h0 c
  have hcap := (c.record i _ (c.addrs i hpi)).2.2.1
  refine ⟨r, ?_⟩
  unfold State.threadExit
  rw [(c.running i hi).2, c.getThread hpi]
  simp only [deref_some, hjoined _ (c.addrs i hpi), State.markJoinable, c.tId hpi,
    if_neg (not_le.mpr hcap), bind, Except.bind]
  exact hr

/-! ## Create -/

/-- A call of `thread_create` that returned the id of a new thread. The thread is ready behind the
others, its record was not in use before, and the slot it has is a new one. -/
structure Created (clean : Prop) (s : State) (a : Sched Addr) (m : Alloc) (s' : State) (id : ℕ)
    (t : Addr) (a' : Sched Addr) : Prop where
  id_eq : id = a.newId
  pos : id ≠ 0
  newId : a'.newId = a.newId + 1
  prims : a'.prims = a.prims
  running : a'.running = a.running
  ready : a'.ready = a.ready ++ [id]
  waiting : a'.waiting = a.waiting
  place : a'.place = Function.update a.place id .ready
  repr : Repr clean s' a'
  kept : Kept s s' (· ≠ id)
  record : m.thread = some t ∧ s.threadLive t = false
  addrs : s'.addrs id = some t
  slot : m.slot = some (s'.slot t)
  fresh : s.slotUsed (s'.slot t) = false
  slotUsed : s'.slotUsed = Function.update s.slotUsed (s'.slot t) true

/-- A call of `thread_create` that failed. It may have used up an id and a slot, and it may leave a
record behind that nobody will find. -/
structure NotCreated (clean : Prop) (s : State) (a : Sched Addr) (s' : State)
    (a' : Sched Addr) : Prop where
  sched : a' = a ∨ a' = a.fresh
  repr : Repr clean s' a'
  kept : Kept s s' fun k => a.place k ≠ .nowhere
  slotUsed : s'.slotUsed = s.slotUsed ∨
    ∃ sl, s.slotUsed sl = false ∧ s'.slotUsed = Function.update s.slotUsed sl true

/-- The counters do not change while no queue does, so the core is all that has to be shown. -/
theorem of_core (h : Repr clean s a) {s' : State} {a' : Sched Addr} {link : ℕ → Addr}
    (c : Core clean s' a' link) (hready : a'.ready = a.ready) (hwait : a'.waiting = a.waiting)
    (hprims : a'.prims = a.prims) (hrn : s'.readyNum = s.readyNum)
    (hwn : s'.waitingNum = s.waitingNum) : Repr clean s' a' := by
  refine ⟨⟨link, c⟩, ?_, ?_⟩
  · rw [hrn, hready, h.readyNum]
  · rw [hwn, h.counted.waiting]
    unfold Sched.waitingTotal
    rw [hwait, hprims]

/-- **A call of `thread_create` that returns** has created a thread, or failed with 0. The id 0 is
never that of a new thread. -/
theorem threadCreate (h : Repr clean s a) {m : Alloc} {s' : State} {id : ℕ}
    (he : s.threadCreate m = .ok (s', id)) :
    (∃ t a', Created clean s a m s' id t a') ∨ id = 0 ∧ ∃ a', NotCreated clean s a s' a' := by
  obtain ⟨link, c⟩ := h.core
  unfold State.threadCreate at he
  rw [c.initialised, if_neg (by simp)] at he
  obtain ⟨q, hq, he⟩ := bind_eq_ok he
  rcases q with _ | t
  · obtain ⟨rfl, rfl⟩ := Prod.mk.inj (Except.ok.inj he)
    exact .inr ⟨rfl, a, .inl rfl, h, (Moved.refl s).kept _, .inl rfl⟩
  obtain ⟨hmt, ht⟩ := malloc_eq_some hq
  -- from here on the record `t` is allocated and an id is used up
  have hne : ∀ k r, s.addrs k = some r → r ≠ t := fun k r hr => c.ne_of_not_live ht hr
  have c₁ := c.newThread ht
  simp only at he
  split at he
  · obtain ⟨rfl, rfl⟩ := Prod.mk.inj (Except.ok.inj he)
    exact .inr ⟨rfl, a.fresh, .inr rfl, h.of_core c₁ rfl rfl rfl rfl rfl,
      ⟨fun k r _ hr => ⟨hr, rfl⟩, rfl, rfl, rfl, rfl⟩, .inl rfl⟩
  rename_i hid
  obtain ⟨sl, hal, he⟩ := bind_eq_ok he
  have hal := deref_eq_ok hal
  split at he
  · cases he
  rename_i hsl
  have hfree : s.slotUsed sl = false := Bool.eq_false_iff.mpr hsl
  have hslot : ∀ k r, s.addrs k = some r → Function.update s.slot t sl r = s.slot r :=
    fun k r hr => Function.update_of_ne (hne k r hr) ..
  have c₂ : Core clean ((s.newThread t).fillThread t s.newId sl) a.fresh link :=
    c₁.fillThread hne
  have hfail : NotCreated clean s a ((s.newThread t).fillThread t s.newId sl) a.fresh :=
    ⟨.inr rfl, h.of_core c₂ rfl rfl rfl rfl rfl,
      ⟨fun k r _ hr => ⟨hr, hslot k r hr⟩, rfl, rfl, rfl, rfl⟩, .inr ⟨sl, hfree, rfl⟩⟩
  split at he
  · obtain ⟨rfl, rfl⟩ := Prod.mk.inj (Except.ok.inj he)
    exact .inr ⟨rfl, _, hfail⟩
  split at he
  · obtain ⟨rfl, rfl⟩ := Prod.mk.inj (Except.ok.inj he)
    exact .inr ⟨rfl, _, hfail⟩
  split at he
  · cases he
  rename_i hcap
  have hnow : a.fresh.place s.newId = .nowhere := by
    rw [c.newId]
    exact Sched.place_newId
  have hlt : s.newId < a.fresh.newId := by
    rw [c.newId]
    exact Nat.lt_succ_self _
  have c₃ := c₂.registerThread hnow (Function.update_self ..) (Function.update_self ..)
    (Nat.lt_of_not_le hcap) hlt
  have hreg : ∀ k, k ≠ s.newId → ((((s.newThread t).fillThread t s.newId sl).registerThread
      s.newId t).addrs k = s.addrs k) := fun k hk => Function.update_of_ne hk ..
  obtain ⟨q, hq, he⟩ := bind_eq_ok he
  rcases q with _ | l
  · -- the record stays registered although the call reports a failure
    obtain ⟨rfl, rfl⟩ := Prod.mk.inj (Except.ok.inj he)
    refine .inr ⟨rfl, a.fresh, .inr rfl, h.of_core c₃ rfl rfl rfl rfl rfl,
      ⟨fun k r hk hr => ⟨?_, hslot k r hr⟩, rfl, rfl, rfl, rfl⟩, .inr ⟨sl, hfree, rfl⟩⟩
    rw [hreg k fun hkn => hk (hkn ▸ hnow), hr]
  · obtain ⟨hml, hl⟩ := malloc_eq_some hq
    obtain ⟨rfl, rfl⟩ := Prod.mk.inj (Except.ok.inj he)
    have hm : a.fresh.CanMove s.newId .ready := canMove_ready hlt
    have c₄ := c₃.linkThread hnow (Function.update_self ..) (Function.update_self ..) hl hm
    have hready : (a.fresh.move s.newId .ready hm).ready = a.ready ++ [s.newId] := by
      rw [move_ready, if_pos rfl, List.erase_of_not_mem (notMem_ready (by simp [hnow]))]
      rfl
    have hwait : (a.fresh.move s.newId .ready hm).waiting = a.waiting := by
      funext p
      exact move_waiting_of_ne (by simp [hnow]) (by simp)
    have hnew : ((((s.newThread t).fillThread t s.newId sl).registerThread s.newId t).linkThread t
        l).slot t = sl := Function.update_self ..
    refine .inl ⟨t, a.fresh.move s.newId .ready hm, c.newId, hid, rfl, rfl, ?_, hready,
      hwait, rfl, ⟨⟨_, c₄⟩, ?_, ?_⟩,
      ⟨fun k r hk hr => ⟨?_, hslot k r hr⟩, rfl, rfl, rfl, rfl⟩, ⟨hmt, ht⟩,
      Function.update_self .., hal.trans (congrArg some hnew.symm), by rw [hnew]; exact hfree,
      by rw [hnew]; rfl⟩
    · exact move_running_of_ne (by simp [hnow]) (by simp)
    · rw [hready, List.length_append, List.length_singleton, ← h.readyNum]
      rfl
    · unfold Sched.waitingTotal
      rw [hwait]
      exact h.counted.waiting
    · exact (hreg k hk).trans hr

/-! ## Primitives -/

theorem setLock (h : Repr clean s a) (l : Addr) (x y : ℤ) : Repr clean (s.setLock l x y) a := by
  obtain ⟨link, c⟩ := h.core
  exact h.of_core (c.setLock l x y) rfl rfl rfl rfl rfl

theorem setCount (h : Repr clean s a) (l : Addr) (x : ℤ) : Repr clean (s.setCount l x) a := by
  obtain ⟨link, c⟩ := h.core
  exact h.of_core (c.setCount l x) rfl rfl rfl rfl rfl

/-- `sync_prim_initial` clears the primitive and edits the registry. -/
theorem syncPrimInitial_eq {k : PrimKind} {s' : State} (he : s.syncPrimInitial p k = .ok s') :
    ∃ x y q, s' =
      { { s with
          kind := Function.update s.kind p (some k)
          waiting := Function.update s.waiting p ⟨none, none⟩ } with
        primPre := x, primNext := y, syncPrim := q } := by
  simp only [State.syncPrimInitial] at he
  split at he
  · obtain rfl := Except.ok.inj he
    exact ⟨_, _, _, rfl⟩
  · obtain ⟨e, _, he⟩ := bind_eq_ok he
    obtain rfl := Except.ok.inj he
    exact ⟨_, _, _, rfl⟩

/-- `sync_prim_destroy` edits the registry only, which the scheduler does not see. -/
theorem syncPrimDestroy_eq {s' : State} (he : s.syncPrimDestroy p = .ok s') :
    ∃ x y q, s' = { s with primPre := x, primNext := y, syncPrim := q } := by
  obtain ⟨s₁, hs₁, he⟩ := bind_eq_ok he
  obtain ⟨_, _, he⟩ := bind_eq_ok he
  obtain ⟨_, _, he⟩ := bind_eq_ok he
  obtain rfl := Except.ok.inj he
  unfold State.syncPrimUnlink at hs₁
  split at hs₁
  · obtain rfl := Except.ok.inj hs₁
    exact ⟨_, _, _, rfl⟩
  split at hs₁
  · obtain ⟨n, _, hs₁⟩ := bind_eq_ok hs₁
    obtain rfl := Except.ok.inj hs₁
    exact ⟨_, _, _, rfl⟩
  split at hs₁
  · obtain ⟨n, _, hs₁⟩ := bind_eq_ok hs₁
    obtain rfl := Except.ok.inj hs₁
    exact ⟨_, _, _, rfl⟩
  · obtain ⟨n, _, hs₁⟩ := bind_eq_ok hs₁
    obtain ⟨n', _, hs₁⟩ := bind_eq_ok hs₁
    obtain rfl := Except.ok.inj hs₁
    exact ⟨_, _, _, rfl⟩

/-- A primitive was created at `p`: it has its kind and an empty queue, and what the other
primitives and the threads know stays. -/
structure PrimMade (clean : Prop) (s : State) (a : Sched Addr) (k : PrimKind) (m : Alloc)
    (p : Addr) (s' : State) : Prop where
  prim : m.prim = some p
  fresh : p ∉ a.prims
  repr : Repr clean s' (a.addPrim p)
  kind : s'.kind = Function.update s.kind p (some k)
  addrs : s'.addrs = s.addrs
  slot : s'.slot = s.slot
  slotUsed : s'.slotUsed = s.slotUsed
  helder : s'.helder = s.helder
  held : s'.held = s.held
  count : s'.count = s.count

/-- A call that creates a primitive, or reports that `malloc` failed. -/
theorem createPrim (h : Repr clean s a) {k : PrimKind} {m : Alloc} {s' : State} {q : Ptr}
    (he : s.createPrim k m = .ok (s', q)) :
    q = none ∧ s' = s ∧ m.prim = none ∨ ∃ p, q = some p ∧ PrimMade clean s a k m p s' := by
  obtain ⟨link, c⟩ := h.core
  obtain ⟨q', hq, he⟩ := bind_eq_ok he
  rcases q' with _ | p
  · obtain ⟨rfl, rfl⟩ := Prod.mk.inj (Except.ok.inj he)
    exact .inl ⟨rfl, rfl, malloc_eq_none hq⟩
  · obtain ⟨hprim, hfree⟩ := malloc_eq_some hq
    have hp : p ∉ a.prims := by
      rw [c.prims p]
      simpa using hfree
    obtain ⟨s₁, hs₁, he⟩ := bind_eq_ok he
    obtain ⟨rfl, rfl⟩ := Prod.mk.inj (Except.ok.inj he)
    obtain ⟨x, y, e, rfl⟩ := syncPrimInitial_eq hs₁
    have hnil : a.waiting p = [] := waiting_eq_nil hp
    have htotal : (a.addPrim p).waitingTotal = a.waitingTotal := by
      unfold Sched.waitingTotal
      change ∑ q ∈ insert p a.prims, (a.waiting q).length = _
      rw [Finset.sum_insert hp, hnil, List.length_nil, Nat.zero_add]
    refine .inr ⟨p, rfl, hprim, hp, ⟨⟨link, (c.addPrim hp k).registry x y e⟩, h.readyNum, ?_⟩, rfl,
      rfl, rfl, rfl, rfl, rfl, rfl⟩
    rw [htotal]
    exact h.counted.waiting

/-- A primitive was destroyed, and nobody was waiting on it. -/
structure PrimGone (clean : Prop) (s : State) (a : Sched Addr) (p : Addr) (s' : State) : Prop where
  unused : a.waiting p = []
  repr : Repr clean s' (a.dropPrim p unused)
  kind : s'.kind = Function.update s.kind p none
  addrs : s'.addrs = s.addrs
  slot : s'.slot = s.slot
  slotUsed : s'.slotUsed = s.slotUsed
  helder : s'.helder = s.helder
  held : s'.held = s.held
  count : s'.count = s.count

/-- **A call that destroys a primitive** and succeeds: its queue was empty, as the assertion
says. -/
theorem destroyPrim (h : Repr clean s a) {k : PrimKind} {s' : State}
    (he : s.destroyPrim k p = .ok s') : PrimGone clean s a p s' := by
  obtain ⟨link, c⟩ := h.core
  unfold State.destroyPrim at he
  split at he
  · cases he
  rename_i hk
  have hk' : s.kind p = some k := not_not.mp hk
  have hp : p ∈ a.prims := (c.prims p).mpr (by simp [hk'])
  obtain ⟨_, hck, he⟩ := bind_eq_ok he
  have hstart : (s.waiting p).start = none := by simpa using check_eq_ok hck
  have hw : a.waiting p = [] := by
    have hnil := (c.waiting p hp).start_eq_none.mp hstart
    exact List.map_eq_nil_iff.mp hnil
  obtain ⟨s₁, hs₁, he⟩ := bind_eq_ok he
  obtain rfl := Except.ok.inj he
  obtain ⟨x, y, e, rfl⟩ := syncPrimDestroy_eq hs₁
  have htotal : (a.dropPrim p hw).waitingTotal = a.waitingTotal := by
    unfold Sched.waitingTotal
    rw [← Finset.add_sum_erase a.prims _ hp, hw, List.length_nil, Nat.zero_add]
    rfl
  refine ⟨hw, ⟨⟨link, (c.dropPrim hw).registry x y e⟩, h.readyNum, ?_⟩, rfl, rfl, rfl, rfl, rfl,
    rfl, rfl⟩
  rw [htotal]
  exact h.counted.waiting

/-! ## Join -/

/-- `s'` is `s` up to the fields that `thread_join` works on. The scheduler does not depend on
those. -/
def JoinsOnly (s s' : State) : Prop :=
  ∃ j nx jd c r jb bl n, s' = { s with
    join := j, joined := jd, joinNext := nx, caller := c, joiner := r, joinable := jb
    blockLive := bl, blockNum := n }

theorem JoinsOnly.done {s' : State} (hj : JoinsOnly s s') (h : Repr clean s a)
    (hi : a.running = some i) : Done clean s a i .stay s' .stay a := by
  obtain ⟨link, c⟩ := h.core
  obtain ⟨j, nx, jd, c', r, jb, bl, n, rfl⟩ := hj
  refine ⟨.stay, ⟨⟨link, c.joins j nx jd c' r jb bl n⟩, h.counted.ready, h.counted.waiting⟩,
    ⟨rfl, rfl, rfl, rfl, rfl, rfl, rfl, rfl, rfl, rfl, rfl, rfl, rfl⟩, ?_⟩
  rw [hi]
  exact .stay

theorem appendJoinBlock_joinsOnly {b new : Addr} {s' : State}
    (he : s.appendJoinBlock b new = .ok s') : JoinsOnly s s' := by
  obtain ⟨_, _, he⟩ := bind_eq_ok he
  obtain rfl := Except.ok.inj he
  exact ⟨_, _, _, _, _, _, _, _, rfl⟩

theorem deleteJoinBlock_joinsOnly {b new : Addr} {s' : State}
    (he : s.deleteJoinBlock b new = .ok s') : JoinsOnly s s' := by
  obtain ⟨_, _, he⟩ := bind_eq_ok he
  obtain ⟨_, _, he⟩ := bind_eq_ok he
  split at he
  · cases he
  · obtain rfl := Except.ok.inj he
    exact ⟨_, _, _, _, _, _, _, _, rfl⟩
  · obtain ⟨_, _, he⟩ := bind_eq_ok he
    split at he
    · cases he
    · obtain rfl := Except.ok.inj he
      exact ⟨_, _, _, _, _, _, _, _, rfl⟩

theorem threadJoinEnter_joinsOnly {m : Alloc} {id : ℕ} {s' : State} {q : Option (Addr × Addr)}
    (he : s.threadJoinEnter m id = .ok (s', q)) : JoinsOnly s s' := by
  have hrefl : JoinsOnly s s := ⟨_, _, _, _, _, _, _, _, rfl⟩
  obtain ⟨_, _, he⟩ := bind_eq_ok he
  obtain ⟨_, _, he⟩ := bind_eq_ok he
  obtain ⟨_, _, he⟩ := bind_eq_ok he
  obtain ⟨new, _, he⟩ := bind_eq_ok he
  rcases new with _ | new
  · simp only at he
    split at he
    · cases he
    · obtain ⟨rfl, rfl⟩ := Prod.mk.inj (Except.ok.inj he)
      exact hrefl
  · obtain ⟨b, _, he⟩ := bind_eq_ok he
    rcases b with _ | b
    · obtain ⟨rfl, rfl⟩ := Prod.mk.inj (Except.ok.inj he)
      exact hrefl
    · obtain ⟨run, _, he⟩ := bind_eq_ok he
      obtain ⟨s₁, hs₁, he⟩ := bind_eq_ok he
      obtain ⟨rfl, rfl⟩ := Prod.mk.inj (Except.ok.inj he)
      obtain ⟨_, _, _, _, _, _, _, _, rfl⟩ := appendJoinBlock_joinsOnly hs₁
      exact ⟨_, _, _, _, _, _, _, _, rfl⟩

/-! ## Reading the queues -/

/-- The ids read from the ready chain are the ready queue. With this the theorems can speak about
the memory alone. -/
theorem readyIds (h : Repr clean s a) : s.readyIds = a.ready := by
  obtain ⟨link, c⟩ := h.core
  unfold State.readyIds
  rw [c.ready.toList_eq (by rw [List.length_map, c.newId]; exact ready_length_le), List.map_map]
  exact (List.map_congr_left fun k hk => c.tId (c.ready_placed k hk)).trans (List.map_id _)

/-- The ids read from the chain of a primitive are its waiting queue, in the same order. -/
theorem waitingIds (h : Repr clean s a) (hp : p ∈ a.prims) : s.waitingIds p = a.waiting p := by
  obtain ⟨link, c⟩ := h.core
  unfold State.waitingIds
  rw [(c.waiting p hp).toList_eq (by rw [List.length_map, c.newId]; exact waiting_length_le),
    List.map_map]
  exact (List.map_congr_left fun k hk => c.tId (c.waiting_placed k hk)).trans (List.map_id _)

end Repr

end GreenLib
