import GreenLib.Sched
import GreenLib.SyncPrim

/-!
# The memory represents a scheduler

`Core s a link` says that the pointer structures in `s` represent the abstract
scheduler `a`: the record of thread `i` is registered in `addrs` and reached from
its link `link i`, the chains from the head cells to the tail cells are the queues
of `a`, and each status field says where the thread is. The `next` field of the
last node of a queue and of the running thread are unconstrained, and so are the
two counters, which `Repr` adds.

The lemmas follow the edits of `thread_lib.c` one by one: each of them is a
`Sched.move` of one thread. `Moved` collects what all of them leave alone.
-/

namespace GreenLib

open State

/-- The status field a thread has at its place. Nothing is said about a parked thread, since the
library does not keep the status of thread 0. -/
def Place.Shows : Place Addr → Status → Prop
  | .ready, st => st = .ready
  | .waiting _, st => st = .waiting
  | .running, st => st = .running
  | .parked, _ => True
  | .nowhere, _ => True

/-- The pointer structures of `s` represent the scheduler `a`, where `link i` is the
`thread_link_t` of thread `i`. `clean` says if the status field of thread 0, which
`thread_initial` does not write, can be relied on. -/
structure Core (clean : Prop) (s : State) (a : Sched Addr) (link : ℕ → Addr) : Prop where
  initialised : s.initialised = true
  newId : s.newId = a.newId
  addrs : ∀ i, a.place i ≠ .nowhere → s.addrs i = some (s.thread (link i))
  /-- whatever is registered is a live record that knows its id -/
  record : ∀ i t, s.addrs i = some t →
    s.tId t = i ∧ s.threadLive t = true ∧ i < maxCapacity ∧ i < a.newId
  linkLive : ∀ i, a.place i ≠ .nowhere → s.linkLive (link i) = true
  ready : IsQueue s.next s.tReady (a.ready.map link)
  waiting : ∀ p ∈ a.prims, IsQueue s.next (s.waiting p) ((a.waiting p).map link)
  prims : ∀ p, p ∈ a.prims ↔ s.kind p ≠ none
  running : ∀ i, a.running = some i → s.tRunning = some (link i) ∧ s.coCurrentId = i
  status : ∀ i, a.place i ≠ .nowhere → (i = 0 → clean) →
    (a.place i).Shows (s.status (s.thread (link i)))

/-- The counters agree with the queues: `ready_num` and `waiting_num` are lengths. -/
structure Counted (s : State) (a : Sched Addr) : Prop where
  ready : s.readyNum = a.ready.length
  waiting : s.waitingNum = a.waitingTotal

/-- **The memory `s` represents the scheduler `a`**: some assignment of links to threads makes the
pointer structures those of `a`, and the counters fit. -/
structure Repr (clean : Prop) (s : State) (a : Sched Addr) : Prop where
  core : ∃ link, Core clean s a link
  counted : Counted s a

/-- The fields that moving threads around does not touch, so that the parts of a call compose
without naming them again. -/
structure Moved (s s' : State) : Prop where
  initialised : s'.initialised = s.initialised
  newId : s'.newId = s.newId
  addrs : s'.addrs = s.addrs
  tId : s'.tId = s.tId
  slot : s'.slot = s.slot
  threadLive : s'.threadLive = s.threadLive
  thread : s'.thread = s.thread
  linkLive : s'.linkLive = s.linkLive
  kind : s'.kind = s.kind
  helder : s'.helder = s.helder
  held : s'.held = s.held
  count : s'.count = s.count
  slotUsed : s'.slotUsed = s.slotUsed

theorem Moved.refl (s : State) : Moved s s :=
  ⟨rfl, rfl, rfl, rfl, rfl, rfl, rfl, rfl, rfl, rfl, rfl, rfl, rfl⟩

theorem Moved.trans {s₁ s₂ s₃ : State} (h : Moved s₁ s₂) (h' : Moved s₂ s₃) : Moved s₁ s₃ :=
  ⟨h'.initialised.trans h.initialised, h'.newId.trans h.newId, h'.addrs.trans h.addrs,
    h'.tId.trans h.tId, h'.slot.trans h.slot, h'.threadLive.trans h.threadLive,
    h'.thread.trans h.thread,
    h'.linkLive.trans h.linkLive, h'.kind.trans h.kind, h'.helder.trans h.helder,
    h'.held.trans h.held, h'.count.trans h.count, h'.slotUsed.trans h.slotUsed⟩

/-! ## Edits that only move threads -/

namespace Moved

variable (s : State) (l p t : Addr)

theorem setStatus (st : Status) : Moved s (s.setStatus t st) :=
  ⟨rfl, rfl, rfl, rfl, rfl, rfl, rfl, rfl, rfl, rfl, rfl, rfl, rfl⟩

theorem appendReady : Moved s (s.appendReady l) :=
  ⟨rfl, rfl, rfl, rfl, rfl, rfl, rfl, rfl, rfl, rfl, rfl, rfl, rfl⟩

theorem appendWaiting : Moved s (s.appendWaiting l p) :=
  ⟨rfl, rfl, rfl, rfl, rfl, rfl, rfl, rfl, rfl, rfl, rfl, rfl, rfl⟩

theorem popWaiting : Moved s (s.popWaiting p l) :=
  ⟨rfl, rfl, rfl, rfl, rfl, rfl, rfl, rfl, rfl, rfl, rfl, rfl, rfl⟩

/-- The cells of the pool that say who runs, and the two counters, may be set to anything. -/
theorem setPool (co rn wn : ℕ) (r : Ptr) : Moved s
    { s with coCurrentId := co, tRunning := r, readyNum := rn, waitingNum := wn } :=
  ⟨rfl, rfl, rfl, rfl, rfl, rfl, rfl, rfl, rfl, rfl, rfl, rfl, rfl⟩

theorem setReady (q : Ends Addr) (n : Addr → Ptr) : Moved s { s with tReady := q, next := n } :=
  ⟨rfl, rfl, rfl, rfl, rfl, rfl, rfl, rfl, rfl, rfl, rfl, rfl, rfl⟩

theorem runningToReady : Moved s (s.runningToReady l) :=
  ((setStatus s (s.thread l) .ready).trans (appendReady _ l)).trans (setPool _ _ _ _ _)

theorem runningToLockWaiting : Moved s (s.runningToLockWaiting l p) :=
  (setStatus s (s.thread l) .waiting).trans (appendWaiting _ l p)

theorem popReady : Moved s (s.popReady l) :=
  ((setReady s _ _).trans (setStatus _ _ .running)).trans (setPool _ _ _ _ _)

end Moved

/-- **`extract_thread`.** In a ready queue that holds a link `x` of the thread and
none before it, the walk ends at `x`, before it can run into the stale `next` of the
last link. -/
theorem extractThread_eq {s : State} {ys zs : List Addr} {x : Addr}
    (hq : IsQueue s.next s.tReady (ys ++ x :: zs)) (hys : ∀ l ∈ ys, s.thread l ≠ s.thread x)
    (hn : ys.length < s.newId + 1) :
    ∃ n' q', s.extractThread (s.thread x) = .ok ({ s with next := n', tReady := q' }, some x) ∧
      IsQueue n' q' (ys ++ zs) ∧ ∀ l, l ∉ ys ++ x :: zs → n' l = s.next l := by
  have hstart : s.tReady.start ≠ none := by
    rw [Ne, hq.start_eq_none]
    simp
  have hstop : s.tReady.stop ≠ none := by
    rw [Ne, hq.stop_eq_none]
    simp
  obtain ⟨y, hy⟩ := Option.ne_none_iff_exists'.mp hstart
  obtain ⟨z, hz⟩ := Option.ne_none_iff_exists'.mp hstop
  have hfind : Ends.find s.next (fun l => s.thread l == s.thread x) (s.newId + 1) none
      s.tReady.start = some (some (ys.getLast?, x)) :=
    hq.find (by simp) (fun l hl => beq_false_of_ne (hys l hl)) hn
  obtain ⟨n', q', hun, hq', hframe⟩ := hq.unlink
  refine ⟨n', q', ?_, hq', hframe⟩
  unfold State.extractThread
  rw [hfind, hy, hz]
  simp only [hun]
  rfl

/-- The last lines of `thread_create` clear the new link and append it to the ready queue. -/
theorem State.linkThread_append {s : State} {xs : List Addr} {t l : Addr}
    (h : IsQueue s.next s.tReady xs) (hl : l ∉ xs) :
    (s.linkThread t l).next = (s.tReady.append (Function.update s.next l none) l).1 ∧
      (s.linkThread t l).tReady = (s.tReady.append (Function.update s.next l none) l).2 := by
  rcases hstop : s.tReady.stop with _ | e
  · simp [State.linkThread, Ends.append, hstop]
  · have hel : l ≠ e := by
      rintro rfl
      refine hl (List.mem_of_getLast? ?_)
      rw [← h.stop, hstop]
    refine ⟨?_, by simp [State.linkThread, Ends.append, hstop]⟩
    simp only [State.linkThread, Ends.append, hstop]
    funext x
    by_cases hx : x = l
    · subst hx
      rw [Function.update_self, Function.update_of_ne hel, Function.update_self]
    · rw [Function.update_of_ne hx]

namespace Core

variable {clean : Prop} {s : State} {a : Sched Addr} {link : ℕ → Addr} {i j : ℕ} {p : Addr}

/-! ## Links and records -/

theorem tId (h : Core clean s a link) (hi : a.place i ≠ .nowhere) :
    s.tId (s.thread (link i)) = i :=
  (h.record i _ (h.addrs i hi)).1

/-- `get_thread` of a thread that is somewhere finds its record, within the bounds of `addrs`. -/
theorem getThread (h : Core clean s a link) (hi : a.place i ≠ .nowhere) :
    s.getThread i = .ok (some (s.thread (link i))) := by
  have ha := h.addrs i hi
  unfold State.getThread
  rw [if_pos (h.record i _ ha).2.2.1, ha]

/-- Different threads have different records, hence different links. -/
theorem thread_inj (h : Core clean s a link) (hi : a.place i ≠ .nowhere)
    (hj : a.place j ≠ .nowhere) (he : s.thread (link i) = s.thread (link j)) : i = j := by
  rw [← h.tId hi, he, h.tId hj]

theorem link_inj (h : Core clean s a link) (hi : a.place i ≠ .nowhere)
    (hj : a.place j ≠ .nowhere) (he : link i = link j) : i = j :=
  h.thread_inj hi hj (congrArg s.thread he)

/-- A link is in the representation of a list of threads only if its thread is. It carries `Nodup`
and membership from ids to links. -/
theorem mem_map_link (h : Core clean s a link) (hi : a.place i ≠ .nowhere) {l : List ℕ}
    (hl : ∀ k ∈ l, a.place k ≠ .nowhere) : link i ∈ l.map link ↔ i ∈ l := by
  constructor
  · intro hm
    obtain ⟨k, hk, he⟩ := List.mem_map.mp hm
    exact h.link_inj (hl k hk) hi he ▸ hk
  · exact List.mem_map_of_mem

theorem ready_placed (_ : Core clean s a link) : ∀ k ∈ a.ready, a.place k ≠ .nowhere :=
  fun k hk => by rw [Sched.place_ready hk]; nofun

theorem waiting_placed (_ : Core clean s a link) : ∀ k ∈ a.waiting p, a.place k ≠ .nowhere :=
  fun k hk => by rw [Sched.place_waiting hk]; nofun

theorem link_notMem_ready (h : Core clean s a link) (hi : a.place i ≠ .nowhere)
    (hr : a.place i ≠ .ready) : link i ∉ a.ready.map link :=
  fun hm => Sched.notMem_ready hr ((h.mem_map_link hi h.ready_placed).mp hm)

theorem link_notMem_waiting (h : Core clean s a link) (hi : a.place i ≠ .nowhere)
    (hw : a.place i ≠ .waiting p) : link i ∉ (a.waiting p).map link :=
  fun hm => Sched.notMem_waiting hw ((h.mem_map_link hi h.waiting_placed).mp hm)

/-- The ready queue and a waiting queue share no link, so an edit of one of them leaves the other
alone. -/
theorem ready_disjoint (h : Core clean s a link) {l : Addr} (hl : l ∈ (a.waiting p).map link) :
    l ∉ a.ready.map link := by
  obtain ⟨k, hk, rfl⟩ := List.mem_map.mp hl
  refine h.link_notMem_ready (h.waiting_placed k hk) ?_
  rw [Sched.place_waiting hk]
  nofun

theorem waiting_disjoint (h : Core clean s a link) {q l : Addr} (hpq : p ≠ q)
    (hl : l ∈ (a.waiting p).map link) : l ∉ (a.waiting q).map link := by
  obtain ⟨k, hk, rfl⟩ := List.mem_map.mp hl
  refine h.link_notMem_waiting (h.waiting_placed k hk) ?_
  rw [Sched.place_waiting hk]
  exact fun he => hpq (Place.waiting.inj he)

/-! ## One move -/

/-- **Moving a thread.** What an edit has to establish for a move: the queues of the
new scheduler, the cells of the running thread and the status of the moved one. -/
theorem move (h : Core clean s a link) {pl : Place Addr} {hm : a.CanMove i pl} {s' : State}
    (hi : a.place i ≠ .nowhere) (mv : Moved s s')
    (hready : IsQueue s'.next s'.tReady ((a.move i pl hm).ready.map link))
    (hwait : ∀ p ∈ a.prims, IsQueue s'.next (s'.waiting p) (((a.move i pl hm).waiting p).map link))
    (hrun : ∀ k, (a.move i pl hm).running = some k →
      s'.tRunning = some (link k) ∧ s'.coCurrentId = k)
    (hself : (i = 0 → clean) → pl.Shows (s'.status (s.thread (link i))))
    (hother : ∀ t, t ≠ s.thread (link i) → s'.status t = s.status t) :
    Core clean s' (a.move i pl hm) link := by
  have hplaced : ∀ k, (a.move i pl hm).place k ≠ .nowhere → a.place k ≠ .nowhere := by
    intro k hk
    by_cases hki : k = i
    · exact hki ▸ hi
    · rwa [Sched.move_place_of_ne hki] at hk
  refine ⟨mv.initialised.trans h.initialised, mv.newId.trans h.newId, ?_, ?_, ?_, hready, hwait,
    ?_, hrun, ?_⟩
  · intro k hk
    rw [mv.addrs, mv.thread]
    exact h.addrs k (hplaced k hk)
  · intro k t ht
    rw [mv.addrs] at ht
    rw [mv.tId, mv.threadLive]
    exact h.record k t ht
  · intro k hk
    rw [mv.linkLive]
    exact h.linkLive k (hplaced k hk)
  · intro q
    rw [mv.kind]
    exact h.prims q
  · intro k hk hc
    rw [mv.thread]
    by_cases hki : k = i
    · rw [hki, Sched.move_place_self]
      exact hself fun h0 => hc (hki.trans h0)
    · rw [Sched.move_place_of_ne hki, hother _ fun he => hki (h.thread_inj (hplaced k hk) hi he)]
      exact h.status k (hplaced k hk) hc

/-- With nobody running, `co_current_id` is free: it means something only together with a running
thread. -/
theorem setCurrent (h : Core clean s a link) (hr : a.running = none) (n : ℕ) :
    Core clean { s with coCurrentId := n } a link := by
  refine ⟨h.initialised, h.newId, h.addrs, h.record, h.linkLive, h.ready, h.waiting, h.prims, ?_,
    h.status⟩
  intro i hi
  rw [hr] at hi
  cases hi

/-- The status of thread 0 may change when nobody relies on it, that is without `clean`. -/
theorem setStatus_zero (h : Core clean s a link) (hc : ¬ clean) {t : Addr}
    (ht : s.addrs 0 = some t) (st : Status) : Core clean (s.setStatus t st) a link := by
  refine ⟨h.initialised, h.newId, h.addrs, h.record, h.linkLive, h.ready, h.waiting, h.prims,
    h.running, ?_⟩
  intro i hi hi0
  have hne : s.thread (link i) ≠ t := by
    rintro rfl
    exact hc (hi0 ((h.tId hi).symm.trans (h.record 0 _ ht).1))
  change Place.Shows _ (Function.update s.status t st (s.thread (link i)))
  rw [Function.update_of_ne hne]
  exact h.status i hi hi0

/-! ## Leaving the processor -/

/-- `running_to_ready` moves the running thread to the tail of the ready queue. -/
theorem runningToReady (h : Core clean s a link) (hi : a.running = some i)
    (hm : a.CanMove i .ready) :
    Core clean (s.runningToReady (link i)) (a.move i .ready hm) link := by
  have hpl : a.place i = .running := Sched.place_running hi
  have hn : a.place i ≠ .nowhere := by simp [hpl]
  have hnr : link i ∉ a.ready.map link := h.link_notMem_ready hn (by simp [hpl])
  refine h.move hn (Moved.runningToReady s _) ?_ ?_ ?_ ?_ ?_
  · have hq := h.ready.append hnr
    rw [Sched.move_ready, List.erase_of_not_mem (Sched.notMem_ready (by simp [hpl])),
      if_pos rfl, List.map_append]
    exact hq
  · intro p hp
    rw [Sched.move_waiting_of_ne (by simp [hpl]) (by simp)]
    refine (h.waiting p hp).congr fun l hl => ?_
    refine h.ready.append_next_of_notMem (h.ready_disjoint hl) ?_
    rintro rfl
    exact h.link_notMem_waiting hn (by simp [hpl]) hl
  · intro k hk
    rw [Sched.move_running_none hi (by simp)] at hk
    cases hk
  · intro _
    exact Function.update_self ..
  · intro t ht
    exact Function.update_of_ne ht ..

/-- `running_to_lock_waiting` moves the running thread to the tail of a waiting queue. -/
theorem runningToLockWaiting (h : Core clean s a link) (hi : a.running = some i)
    (hm : a.CanMove i (.waiting p)) :
    Core clean (s.runningToLockWaiting (link i) p) (a.move i (.waiting p) hm) link := by
  have hpl : a.place i = .running := Sched.place_running hi
  have hn : a.place i ≠ .nowhere := by simp [hpl]
  have hp : p ∈ a.prims := hm.prim p rfl
  have hnw : ∀ q, link i ∉ (a.waiting q).map link := fun q =>
    h.link_notMem_waiting hn (by simp [hpl])
  refine h.move hn (Moved.runningToLockWaiting s _ _) ?_ ?_ ?_ ?_ ?_
  · rw [Sched.move_ready_of_ne (by simp [hpl]) (by simp)]
    refine h.ready.congr fun l hl => ?_
    refine (h.waiting p hp).append_next_of_notMem (fun hlw => h.ready_disjoint hlw hl) ?_
    rintro rfl
    exact h.link_notMem_ready hn (by simp [hpl]) hl
  · intro q hq
    change IsQueue ((s.waiting p).append s.next (link i)).1
      (Function.update s.waiting p ((s.waiting p).append s.next (link i)).2 q) _
    by_cases hqp : q = p
    · subst hqp
      rw [Sched.move_waiting, List.erase_of_not_mem (Sched.notMem_waiting (by simp [hpl])),
        if_pos rfl, List.map_append, Function.update_self]
      exact (h.waiting q hq).append (hnw q)
    · rw [Sched.move_waiting_of_ne (by simp [hpl]) fun he => hqp (Place.waiting.inj he).symm,
        Function.update_of_ne hqp]
      refine (h.waiting q hq).congr fun l hl => ?_
      refine (h.waiting p hp).append_next_of_notMem (h.waiting_disjoint hqp hl) ?_
      rintro rfl
      exact hnw q hl
  · intro k hk
    rw [Sched.move_running_none hi (by simp)] at hk
    cases hk
  · intro _
    exact Function.update_self ..
  · intro t ht
    exact Function.update_of_ne ht ..

/-- Thread 0 gives up the processor in `thread_resume` without entering a queue. Its status is set
to ready nevertheless. -/
theorem park (h : Core clean s a link) (hi : a.running = some i) (hm : a.CanMove i .parked) :
    Core clean (s.setStatus (s.thread (link i)) .ready) (a.move i .parked hm) link := by
  have hpl : a.place i = .running := Sched.place_running hi
  refine h.move (by simp [hpl]) (Moved.setStatus s _ _)
    ?_ ?_ ?_ (fun _ => trivial) ?_
  · rw [Sched.move_ready_of_ne (by simp [hpl]) (by simp)]
    exact h.ready
  · intro p hp
    rw [Sched.move_waiting_of_ne (by simp [hpl]) (by simp)]
    exact h.waiting p hp
  · intro k hk
    rw [Sched.move_running_none hi (by simp)] at hk
    cases hk
  · intro t ht
    exact Function.update_of_ne ht ..

/-! ## Taking the processor -/

/-- The head of the ready queue starts to run, as in `thread_sleep`. The stale `next` field of its
link does no harm. -/
theorem popReady (h : Core clean s a link) {tl : List ℕ} (hr : a.ready = j :: tl)
    (hm : a.CanMove j .running) :
    Core clean (s.popReady (link j)) (a.move j .running hm) link := by
  have hpl : a.place j = .ready := Sched.place_ready (by simp [hr])
  have hn : a.place j ≠ .nowhere := by simp [hpl]
  refine h.move hn (Moved.popReady s _) ?_ ?_ ?_ ?_ ?_
  · have hq := h.ready
    rw [hr, List.map_cons] at hq
    rw [Sched.move_ready, if_neg (by simp), List.append_nil, hr, List.erase_cons_head]
    exact hq.shift
  · intro p hp
    rw [Sched.move_waiting_of_ne (by simp [hpl]) (by simp)]
    exact h.waiting p hp
  · intro k hk
    rw [Sched.move_running, if_pos rfl] at hk
    obtain rfl := Option.some.inj hk
    exact ⟨rfl, h.tId hn⟩
  · intro _
    exact Function.update_self ..
  · intro t ht
    exact Function.update_of_ne ht ..

/-- `extract_first_waiting` finds the longest waiting thread. -/
theorem extractFirstWaiting_eq (h : Core clean s a link) {tl : List ℕ} (hp : p ∈ a.prims)
    (hw : a.waiting p = j :: tl) :
    s.extractFirstWaiting p = .ok (s.popWaiting p (link j), some (link j)) := by
  have hq := h.waiting p hp
  rw [hw, List.map_cons] at hq
  have hstart : (s.waiting p).start = some (link j) := hq.start
  unfold State.extractFirstWaiting
  rw [if_neg (by simp [hstart]), hstart]
  rfl

/-- `extract_first_waiting` on the queue of a primitive nobody waits on returns null and changes
nothing. -/
theorem extractFirstWaiting_nil (h : Core clean s a link) (hp : p ∈ a.prims)
    (hw : a.waiting p = []) : s.extractFirstWaiting p = .ok (s, none) := by
  have hq := h.waiting p hp
  rw [hw, List.map_nil] at hq
  unfold State.extractFirstWaiting
  rw [hq.eq_nil, if_pos ⟨rfl, rfl⟩]

/-- The thread that `extract_first_waiting` returns has left its queue. It is parked for the moment
between the two halves of a wakeup. -/
theorem popWaiting (h : Core clean s a link) {tl : List ℕ} (hp : p ∈ a.prims)
    (hw : a.waiting p = j :: tl) (hm : a.CanMove j .parked) :
    Core clean (s.popWaiting p (link j)) (a.move j .parked hm) link := by
  have hpl : a.place j = .waiting p := Sched.place_waiting (by simp [hw])
  have hn : a.place j ≠ .nowhere := by simp [hpl]
  have hq := h.waiting p hp
  rw [hw, List.map_cons] at hq
  -- the `next` of the extracted link is cleared, and no queue holds that link any more
  have hclear : ∀ l, l ≠ link j → (s.popWaiting p (link j)).next l = s.next l :=
    fun l hl => Function.update_of_ne hl ..
  refine h.move hn (Moved.popWaiting s _ _) ?_ ?_ ?_
    (fun _ => trivial) fun _ _ => rfl
  · rw [Sched.move_ready_of_ne (by simp [hpl]) (by simp)]
    refine h.ready.congr fun l hl => hclear l ?_
    rintro rfl
    exact h.link_notMem_ready hn (by simp [hpl]) hl
  · intro q hq'
    by_cases hqp : q = p
    · subst hqp
      have hcell : (s.popWaiting q (link j)).waiting q = (s.waiting q).shift s.next (link j) :=
        Function.update_self ..
      rw [Sched.move_waiting, if_neg (by simp), List.append_nil, hw, List.erase_cons_head, hcell]
      refine hq.shift.congr fun l hl => hclear l ?_
      rintro rfl
      exact (List.nodup_cons.mp hq.nodup).1 hl
    · have hcell : (s.popWaiting p (link j)).waiting q = s.waiting q :=
        Function.update_of_ne hqp ..
      rw [Sched.move_waiting_of_ne (by simp [hpl, Ne.symm hqp]) (by simp), hcell]
      refine (h.waiting q hq').congr fun l hl => hclear l ?_
      rintro rfl
      exact h.link_notMem_waiting hn (by simp [hpl, Ne.symm hqp]) hl
  · intro k hk
    rw [Sched.move_running_of_ne (by simp [hpl]) (by simp)] at hk
    exact h.running k hk

/-- A thread outside the queues starts to run: `waiting_to_running` and the update
of `co_current_id` behind it. -/
theorem run (h : Core clean s a link) (hj : a.place j = .parked) (hm : a.CanMove j .running)
    (n : ℕ) :
    Core clean
      { s.setStatus (s.thread (link j)) .running with
        tRunning := some (link j), waitingNum := n, coCurrentId := s.tId (s.thread (link j)) }
      (a.move j .running hm) link := by
  have hn : a.place j ≠ .nowhere := by simp [hj]
  refine h.move hn ((Moved.setStatus s _ _).trans (Moved.setPool _ _ _ _ _)) ?_ ?_ ?_ ?_ ?_
  · rw [Sched.move_ready_of_ne (by simp [hj]) (by simp)]
    exact h.ready
  · intro q hq
    rw [Sched.move_waiting_of_ne (by simp [hj]) (by simp)]
    exact h.waiting q hq
  · intro k hk
    rw [Sched.move_running, if_pos rfl] at hk
    obtain rfl := Option.some.inj hk
    exact ⟨rfl, h.tId hn⟩
  · intro _
    exact Function.update_self ..
  · intro t ht
    exact Function.update_of_ne ht ..

/-- `ready_to_running` makes a thread of the ready queue the running one. The search finds the link,
so it cannot fail. -/
theorem readyToRunning (h : Core clean s a link) (hj : j ∈ a.ready) (hnum : 0 < s.readyNum)
    (hm : a.CanMove j .running) (hco : s.coCurrentId = j) :
    ∃ s', s.readyToRunning (s.thread (link j)) = .ok (s', true) ∧ Moved s s' ∧
      s'.readyNum = s.readyNum - 1 ∧ s'.waitingNum = s.waitingNum ∧
      Core clean s' (a.move j .running hm) link := by
  have hpl : a.place j = .ready := Sched.place_ready hj
  have hn : a.place j ≠ .nowhere := by simp [hpl]
  obtain ⟨ys, zs, hl⟩ := List.append_of_mem hj
  have hnd : (ys ++ j :: zs).Nodup := hl ▸ a.ready_nodup
  have hjys : j ∉ ys := fun hm => (List.nodup_append.mp hnd).2.2 j hm j (by simp) rfl
  have hq := h.ready
  rw [hl, List.map_append, List.map_cons] at hq
  have hkeys : ∀ l ∈ ys.map link, s.thread l ≠ s.thread (link j) := by
    intro l hm he
    obtain ⟨k, hk, rfl⟩ := List.mem_map.mp hm
    have hkr : k ∈ a.ready := by simp [hl, hk]
    exact hjys (h.thread_inj (h.ready_placed k hkr) (h.ready_placed j hj) he ▸ hk)
  have hfuel : (ys.map link).length < s.newId + 1 := by
    have hlen : a.ready.length ≤ a.newId := Sched.ready_length_le
    rw [hl] at hlen
    rw [h.newId]
    simp at hlen ⊢
    omega
  -- the walk runs on the state with the new status, which has the same links
  obtain ⟨n', q', hex, hq', hframe⟩ :=
    extractThread_eq (s := s.setStatus (s.thread (link j)) .running) hq hkeys hfuel
  refine ⟨{ s.setStatus (s.thread (link j)) .running with
    next := n', tReady := q', tRunning := some (link j), readyNum := s.readyNum - 1 }, ?_,
    ⟨rfl, rfl, rfl, rfl, rfl, rfl, rfl, rfl, rfl, rfl, rfl, rfl, rfl⟩, rfl, rfl, ?_⟩
  · change (s.setStatus (s.thread (link j)) .running).extractThread (s.thread (link j)) = _ at hex
    unfold State.readyToRunning
    rw [decide_eq_true hnum, hex]
    rfl
  · refine h.move hn ⟨rfl, rfl, rfl, rfl, rfl, rfl, rfl, rfl, rfl, rfl, rfl, rfl, rfl⟩
      ?_ ?_ ?_ ?_ ?_
    · rw [Sched.move_ready, if_neg (by simp), List.append_nil, hl,
        List.erase_append_right _ hjys, List.erase_cons_head, List.map_append]
      exact hq'
    · intro q hq
      rw [Sched.move_waiting_of_ne (by simp [hpl]) (by simp)]
      refine (h.waiting q hq).congr fun l hl' => hframe l ?_
      rw [← List.map_cons, ← List.map_append, ← hl]
      exact h.ready_disjoint hl'
    · intro k hk
      rw [Sched.move_running, if_pos rfl] at hk
      obtain rfl := Option.some.inj hk
      exact ⟨rfl, hco⟩
    · intro _
      exact Function.update_self ..
    · intro t ht
      exact Function.update_of_ne ht ..

/-! ## Creating and removing threads -/

/-- A registered record is live, so it is not one that `malloc` returns. -/
theorem ne_of_not_live (h : Core clean s a link) {t : Addr} (ht : s.threadLive t = false) {k : ℕ}
    {r : Addr} (hr : s.addrs k = some r) : r ≠ t := by
  rintro rfl
  rw [(h.record k r hr).2.1] at ht
  cases ht

/-- `thread_create` has allocated a record and taken an id; nothing is registered yet. -/
theorem newThread (h : Core clean s a link) {t : Addr} (ht : s.threadLive t = false) :
    Core clean (s.newThread t) a.fresh link := by
  refine ⟨h.initialised, congrArg (· + 1) h.newId, h.addrs, ?_, h.linkLive, h.ready, h.waiting,
    h.prims, h.running, h.status⟩
  intro k r hr
  obtain ⟨hid, hlive, hcap, hlt⟩ := h.record k r hr
  refine ⟨hid, ?_, hcap, Nat.lt_succ_of_lt hlt⟩
  exact (Function.update_of_ne (h.ne_of_not_live ht hr) ..).trans hlive

/-- Filling in a record that is not registered disturbs no thread. -/
theorem fillThread (h : Core clean s a link) {t : Addr} {id sl : ℕ}
    (ht : ∀ k r, s.addrs k = some r → r ≠ t) : Core clean (s.fillThread t id sl) a link := by
  refine ⟨h.initialised, h.newId, h.addrs, ?_, h.linkLive, h.ready, h.waiting, h.prims,
    h.running, ?_⟩
  · intro k r hr
    obtain ⟨hid, hrest⟩ := h.record k r hr
    exact ⟨(Function.update_of_ne (ht k r hr) ..).trans hid, hrest⟩
  · intro k hk hc
    change Place.Shows _ (Function.update s.status t .ready (s.thread (link k)))
    rw [Function.update_of_ne (ht k _ (h.addrs k hk))]
    exact h.status k hk hc

/-- `thread_create` registers the record of an id that is nowhere. From now on the id has a record,
but no link and no place. -/
theorem registerThread (h : Core clean s a link) {t : Addr} {k : ℕ} (hk : a.place k = .nowhere)
    (hid : s.tId t = k) (hlive : s.threadLive t = true) (hcap : k < maxCapacity)
    (hlt : k < a.newId) : Core clean (s.registerThread k t) a link := by
  refine ⟨h.initialised, h.newId, ?_, ?_, h.linkLive, h.ready, h.waiting, h.prims, h.running,
    h.status⟩
  · intro i hi
    have hik : i ≠ k := by
      rintro rfl
      exact hi hk
    exact (Function.update_of_ne hik ..).trans (h.addrs i hi)
  · intro i r hr
    change Function.update s.addrs k (some t) i = some r at hr
    by_cases hik : i = k
    · rw [hik, Function.update_self] at hr
      obtain rfl := Option.some.inj hr
      exact ⟨hid.trans hik.symm, hlive, hik ▸ hcap, hik ▸ hlt⟩
    · rw [Function.update_of_ne hik] at hr
      exact h.record i r hr

/-- The link of a created thread enters the ready queue at the tail, and with it the thread gets its
place. -/
theorem linkThread (h : Core clean s a link) {t l : Addr} {k : ℕ} (hk : a.place k = .nowhere)
    (hreg : s.addrs k = some t) (hst : s.status t = .ready) (hl : s.linkLive l = false)
    (hm : a.CanMove k .ready) :
    Core clean (s.linkThread t l) (a.move k .ready hm) (Function.update link k l) := by
  have hne : ∀ i, a.place i ≠ .nowhere → link i ≠ l := by
    rintro i hi rfl
    rw [h.linkLive i hi] at hl
    cases hl
  have hik : ∀ i, a.place i ≠ .nowhere → i ≠ k := by
    rintro i hi rfl
    exact hi hk
  have hlink : ∀ i, a.place i ≠ .nowhere → Function.update link k l i = link i :=
    fun i hi => Function.update_of_ne (hik i hi) ..
  have hmap : ∀ xs : List ℕ, (∀ i ∈ xs, a.place i ≠ .nowhere) →
      xs.map (Function.update link k l) = xs.map link :=
    fun xs hxs => List.map_congr_left fun i hi => hlink i (hxs i hi)
  have hnotMem : ∀ xs : List ℕ, (∀ i ∈ xs, a.place i ≠ .nowhere) → l ∉ xs.map link := by
    intro xs hxs hmem
    obtain ⟨i, hi, he⟩ := List.mem_map.mp hmem
    exact hne i (hxs i hi) he
  -- the source clears the new link first and then appends it
  have hclear : IsQueue (Function.update s.next l none) s.tReady (a.ready.map link) := by
    refine h.ready.congr fun x hx => Function.update_of_ne ?_ ..
    rintro rfl
    exact hnotMem _ h.ready_placed hx
  have hedit := State.linkThread_append (t := t) h.ready (hnotMem _ h.ready_placed)
  have hplaced : ∀ i, (a.move k .ready hm).place i ≠ .nowhere → i = k ∨ a.place i ≠ .nowhere := by
    intro i hi
    by_cases hik' : i = k
    · exact .inl hik'
    · rw [Sched.move_place_of_ne hik'] at hi
      exact .inr hi
  have hthread : ∀ i, a.place i ≠ .nowhere →
      (s.linkThread t l).thread (Function.update link k l i) = s.thread (link i) := by
    intro i hi
    rw [hlink i hi]
    exact Function.update_of_ne (hne i hi) ..
  have hthread' : (s.linkThread t l).thread (Function.update link k l k) = t := by
    rw [Function.update_self]
    exact Function.update_self ..
  refine ⟨h.initialised, h.newId, ?_, h.record, ?_, ?_, ?_, h.prims, ?_, ?_⟩
  · intro i hi
    rcases hplaced i hi with rfl | hi
    · rw [hthread']
      exact hreg
    · rw [hthread i hi]
      exact h.addrs i hi
  · intro i hi
    rcases hplaced i hi with rfl | hi
    · rw [Function.update_self]
      exact Function.update_self ..
    · rw [hlink i hi]
      exact (Function.update_of_ne (hne i hi) ..).trans (h.linkLive i hi)
  · rw [hedit.1, hedit.2, Sched.move_ready, if_pos rfl, List.map_append,
      List.erase_of_not_mem (Sched.notMem_ready (by simp [hk])), hmap _ h.ready_placed,
      List.map_singleton, Function.update_self]
    exact hclear.append (hnotMem _ h.ready_placed)
  · intro p hp
    rw [hedit.1, Sched.move_waiting_of_ne (by simp [hk]) (by simp), hmap _ h.waiting_placed]
    refine (h.waiting p hp).congr fun x hx => ?_
    have hxl : x ≠ l := by
      rintro rfl
      exact hnotMem _ h.waiting_placed hx
    rw [hclear.append_next_of_notMem (h.ready_disjoint hx) hxl, Function.update_of_ne hxl]
  · intro i hi
    rw [Sched.move_running_of_ne (by simp [hk]) (by simp)] at hi
    have hpl : a.place i ≠ .nowhere := by simp [Sched.place_running hi]
    rw [hlink i hpl]
    exact h.running i hi
  · intro i hi hc
    rcases hplaced i hi with rfl | hi
    · rw [Sched.move_place_self, hthread']
      exact hst
    · rw [Sched.move_place_of_ne (hik i hi), hthread i hi]
      exact h.status i hi hc

theorem removeThread_addrs (h : Core clean s a link) (hi : a.place i ≠ .nowhere) :
    (s.removeThread (s.thread (link i))).addrs = Function.update s.addrs i none := by
  change Function.update s.addrs (s.tId (s.thread (link i))) none = _
  rw [h.tId hi]

/-- `thread_exit` removes the record of the running thread. The link stays allocated, and no queue
has it. -/
theorem removeThread (h : Core clean s a link) (hi : a.running = some i)
    (hm : a.CanMove i .nowhere) :
    Core clean (s.removeThread (s.thread (link i))) (a.move i .nowhere hm) link := by
  have hpl : a.place i = .running := Sched.place_running hi
  have hn : a.place i ≠ .nowhere := by simp [hpl]
  have haddrs := h.removeThread_addrs hn
  have hplaced : ∀ k, (a.move i .nowhere hm).place k ≠ .nowhere →
      k ≠ i ∧ a.place k ≠ .nowhere := by
    intro k hk
    have hki : k ≠ i := by
      rintro rfl
      exact hk Sched.move_place_self
    rw [Sched.move_place_of_ne hki] at hk
    exact ⟨hki, hk⟩
  refine ⟨h.initialised, h.newId, ?_, ?_, ?_, ?_, ?_, h.prims, ?_, ?_⟩
  · intro k hk
    rw [haddrs, Function.update_of_ne (hplaced k hk).1]
    exact h.addrs k (hplaced k hk).2
  · intro k r hr
    rw [haddrs] at hr
    have hki : k ≠ i := by
      rintro rfl
      rw [Function.update_self] at hr
      cases hr
    rw [Function.update_of_ne hki] at hr
    obtain ⟨hid, hlive, hlt⟩ := h.record k r hr
    refine ⟨hid, (Function.update_of_ne ?_ ..).trans hlive, hlt⟩
    rintro rfl
    exact hki (hid.symm.trans (h.tId hn))
  · intro k hk
    exact h.linkLive k (hplaced k hk).2
  · rw [Sched.move_ready_of_ne (by simp [hpl]) (by simp)]
    exact h.ready
  · intro p hp
    rw [Sched.move_waiting_of_ne (by simp [hpl]) (by simp)]
    exact h.waiting p hp
  · intro k hk
    rw [Sched.move_running_none hi (by simp)] at hk
    cases hk
  · intro k hk hc
    rw [Sched.move_place_of_ne (hplaced k hk).1]
    exact h.status k (hplaced k hk).2 hc

/-! ## Primitives -/

/-- The fields of the registry do not matter to the scheduler, nor does the data of
locks and semaphores. -/
theorem registry (h : Core clean s a link) (x y : Addr → Ptr) (q : Ends Addr) :
    Core clean { s with primPre := x, primNext := y, syncPrim := q } a link :=
  ⟨h.initialised, h.newId, h.addrs, h.record, h.linkLive, h.ready, h.waiting, h.prims, h.running,
    h.status⟩

theorem setLock (h : Core clean s a link) (l : Addr) (x y : ℤ) :
    Core clean (s.setLock l x y) a link :=
  ⟨h.initialised, h.newId, h.addrs, h.record, h.linkLive, h.ready, h.waiting, h.prims, h.running,
    h.status⟩

theorem setCount (h : Core clean s a link) (l : Addr) (x : ℤ) :
    Core clean (s.setCount l x) a link :=
  ⟨h.initialised, h.newId, h.addrs, h.record, h.linkLive, h.ready, h.waiting, h.prims, h.running,
    h.status⟩

/-- The fields of joins do not matter to the scheduler either. -/
theorem joins (h : Core clean s a link) (j nx : Addr → Ptr) (jd : Addr → Ends Addr)
    (c r : Addr → ℕ) (jb bl : Addr → Bool) (n : ℕ) :
    Core clean
      { s with
        join := j, joined := jd, joinNext := nx, caller := c, joiner := r, joinable := jb
        blockLive := bl, blockNum := n } a link :=
  ⟨h.initialised, h.newId, h.addrs, h.record, h.linkLive, h.ready, h.waiting, h.prims, h.running,
    h.status⟩

/-- `sync_prim_initial` on a new primitive gives it an empty queue, whatever the memory held
before. -/
theorem addPrim (h : Core clean s a link) (hp : p ∉ a.prims) (k : PrimKind) :
    Core clean
      { s with
        kind := Function.update s.kind p (some k)
        waiting := Function.update s.waiting p ⟨none, none⟩ }
      (a.addPrim p) link := by
  refine ⟨h.initialised, h.newId, h.addrs, h.record, h.linkLive, h.ready, ?_, ?_, h.running,
    h.status⟩
  · intro q hq
    by_cases hqp : q = p
    · subst hqp
      have hnil : a.waiting q = [] := Sched.waiting_eq_nil hp
      change IsQueue _ _ ((a.waiting q).map link)
      rw [hnil]
      simp only [Function.update_self]
      exact IsQueue.nil _
    · simp only [Function.update_of_ne hqp]
      exact h.waiting q ((Finset.mem_insert.mp hq).resolve_left hqp)
  · intro q
    by_cases hqp : q = p
    · subst hqp
      simp [Sched.addPrim]
    · simp only [Function.update_of_ne hqp]
      rw [← h.prims q]
      exact ⟨fun hq => (Finset.mem_insert.mp hq).resolve_left hqp, Finset.mem_insert_of_mem⟩

/-- A primitive without waiters can be given back: no queue of the scheduler is lost with it. -/
theorem dropPrim (h : Core clean s a link) (hw : a.waiting p = []) :
    Core clean { s with kind := Function.update s.kind p none } (a.dropPrim p hw) link := by
  refine ⟨h.initialised, h.newId, h.addrs, h.record, h.linkLive, h.ready, ?_, ?_, h.running,
    h.status⟩
  · intro q hq
    exact h.waiting q (Finset.mem_of_mem_erase hq)
  · intro q
    by_cases hqp : q = p
    · subst hqp
      simp [Sched.dropPrim]
    · simp only [Function.update_of_ne hqp]
      rw [← h.prims q]
      exact ⟨Finset.mem_of_mem_erase, fun hq => Finset.mem_erase.mpr ⟨hqp, hq⟩⟩

end Core

end GreenLib
