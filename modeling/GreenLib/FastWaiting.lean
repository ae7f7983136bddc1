import GreenLib.Sleepers

/-!
# The wait queues of the `GREEN_FAST` build

With `GREEN_FAST` the pool keeps a second list of primitives, from `t_waiting_start` to
`t_waiting_end`: the ones that have waiters. It is linked through the fields `pre` and `next` of the
primitives, which are also the fields of the registry. `append_lock` puts a primitive into that list
when its first waiter comes and `extract_waiting` takes it out when its last one leaves.

Here the two builds run side by side (`TwoBuilds`) on the same creations, waits and wakeups. They
disagree (`fast_builds_differ`):

* `running_to_waiting` counts a waiter that `append_waiting` has counted already;
* taking a primitive out of the list takes it out of the registry as well, and a wakeup of a
  primitive without waiters takes it out of a list that it is not in.

As long as the two lists never need different pointers (`KeepsRegistry`) the second kind of damage
does not happen: the memory of the two builds is the same up to `waiting_num`, and the list is a
segment of the registry (`fast_builds_agree`).
-/

namespace GreenLib

/-- The memory of the `GREEN_FAST` build: that of the other build, and the list of the primitives
with waiters. -/
structure FastPool : Type where
  st : State
  tWaiting : Ends Addr

namespace FastPool

/-! ## `thread_lib.c` with `GREEN_FAST` -/

/-- `append_lock`: put the primitive into the list if this is its first waiter, and the waiter into
its queue. -/
def appendLock (f : FastPool) (prim linker : Addr) : FastPool :=
  let f :=
    if (f.st.waiting prim).start = none then
      match f.tWaiting.stop with
      | none => { f with tWaiting := ⟨some prim, some prim⟩ }
      | some e =>
        { st := { f.st with
            primNext := Function.update f.st.primNext e (some prim)
            primPre := Function.update f.st.primPre prim (some e) }
          tWaiting := ⟨f.tWaiting.start, some prim⟩ }
    else f
  { f with st := f.st.appendWaiting linker prim }

/-- `running_to_waiting`. It counts the waiter that `append_waiting` has counted already. The
counter is a number here and an `int` in the source: the two are the same in the first `2 ^ 30`
waits. -/
def runningToWaiting (f : FastPool) (linker prim : Addr) : FastPool :=
  let f := { f with st := f.st.setStatus (f.st.thread linker) .waiting }.appendLock prim linker
  { f with st := { f.st with waitingNum := f.st.waitingNum + 1 } }

/-- The lines of `extract_waiting` that take a primitive without waiters out of the list. -/
def unlinkPrim (f : FastPool) (prim : Addr) : FastPool :=
  match f.st.primPre prim, f.st.primNext prim with
  | none, none => { f with tWaiting := ⟨none, none⟩ }
  | none, some n =>
    { st := { f.st with
        primPre := Function.update f.st.primPre n none
        primNext := Function.update f.st.primNext prim none }
      tWaiting := ⟨some n, f.tWaiting.stop⟩ }
  | some p, none =>
    { st := { f.st with
        primNext := Function.update f.st.primNext p none
        primPre := Function.update f.st.primPre prim none }
      tWaiting := ⟨f.tWaiting.start, some p⟩ }
  | some p, some n =>
    { f with st := { f.st with
        primNext := Function.update (Function.update f.st.primNext p (some n)) prim none
        primPre := Function.update (Function.update f.st.primPre n (some p)) prim none } }

/-- `extract_waiting`: take the first waiter of the primitive, and the primitive out of the list if
its queue is empty then. Whether the primitive was in the list is not asked. -/
def extractWaiting (f : FastPool) (prim : Addr) : Except Fault (FastPool × Ptr) :=
  if f.tWaiting.start = none ∧ f.tWaiting.stop = none then .ok (f, none)
  else do
    let (s, res) ← f.st.extractFirstWaiting prim
    let f := { f with st := s }
    if (f.st.waiting prim).start = none then .ok (f.unlinkPrim prim, res) else .ok (f, res)

end FastPool

/-! ## Both builds side by side -/

/-- One call of both builds. The two builds are given the same calls, with the same arguments. -/
inductive WaitCall : Type where
  /-- `sync_prim_initial` on a block that `malloc` returned -/
  | create (prim : Addr) (k : PrimKind)
  /-- the thread with the link `linker` waits -/
  | wait (linker prim : Addr)
  /-- the first waiter is extracted and runs -/
  | wakeup (prim : Addr)

/-- The memory of the two builds after the same calls, with the waiting links and their primitives
in the order of their waits, and the number of waits. -/
structure TwoBuilds : Type where
  fast : FastPool
  very : State
  sleeping : List (Addr × Addr)
  waits : ℕ

namespace TwoBuilds

/-- Make one call in both builds. A thread that waits already cannot wait again. -/
def step (x : TwoBuilds) : WaitCall → Except Fault TwoBuilds
  | .create p k =>
    if x.very.kind p = none then do
      let f ← x.fast.st.syncPrimInitial p k
      let v ← x.very.syncPrimInitial p k
      .ok { x with fast := { x.fast with st := f }, very := v }
    else .error .disabled
  | .wait l p =>
    if x.very.kind p ≠ none ∧ l ∉ x.sleeping.map Prod.snd then
      .ok {
        fast := x.fast.runningToWaiting l p
        very := x.very.runningToLockWaiting l p
        sleeping := x.sleeping ++ [(p, l)]
        waits := x.waits + 1 }
    else .error .disabled
  | .wakeup p =>
    if x.very.kind p = none then .error .disabled
    else do
      let (f, r) ← x.fast.extractWaiting p
      let fs ← f.st.runWoken r
      let (v, r') ← x.very.extractFirstWaiting p
      let vs ← v.runWoken r'
      .ok { x with
        fast := { f with st := fs }
        very := vs
        sleeping := x.sleeping.eraseP fun y => y.1 == p }

end TwoBuilds

/-- The common runs of the two builds, from a fresh pool. Both begin with the same memory. -/
def buildRuns : Lts TwoBuilds WaitCall where
  init x := ∃ mem t link, Blank mem ∧
    x = ⟨⟨mem.threadInitial t link, ⟨none, none⟩⟩, mem.threadInitial t link, [], 0⟩
  step x c x' := x.step c = .ok x'

/-- The two lists never need different pointers: a primitive gets its first waiter when no other
primitive has one, or when the registry leads to it from the end of the list; and it loses its last
waiter, or is woken without one, when no primitive has waiters or when it is the only one of the
registry. -/
def KeepsRegistry (x : TwoBuilds) : WaitCall → Prop
  | .create .. => True
  | .wait _ p => (x.fast.st.waiting p).start ≠ none ∨ x.fast.tWaiting.stop = none ∨
      ∃ e ∈ x.fast.tWaiting.stop, x.fast.st.primNext e = some p
  | .wakeup p => (x.fast.st.waiting p).start ≠ (x.fast.st.waiting p).stop ∨
      x.fast.tWaiting.stop = none ∨ x.fast.st.primPre p = none ∧ x.fast.st.primNext p = none

instance (x : TwoBuilds) (c : WaitCall) : Decidable (KeepsRegistry x c) :=
  match c with
  | .create .. => isTrue trivial
  | .wait _ p => inferInstanceAs (Decidable ((x.fast.st.waiting p).start ≠ none ∨
      x.fast.tWaiting.stop = none ∨ ∃ e ∈ x.fast.tWaiting.stop, x.fast.st.primNext e = some p))
  | .wakeup p => inferInstanceAs (Decidable
      ((x.fast.st.waiting p).start ≠ (x.fast.st.waiting p).stop ∨
      x.fast.tWaiting.stop = none ∨ x.fast.st.primPre p = none ∧ x.fast.st.primNext p = none))

/-- No thread waits. Wakeups are still possible, of primitives that nobody waits on. -/
def NoWait (_ : TwoBuilds) : WaitCall → Prop
  | .wait .. => False
  | _ => True

instance (x : TwoBuilds) (c : WaitCall) : Decidable (NoWait x c) :=
  match c with
  | .wait .. => isFalse id
  | .create .. | .wakeup _ => isTrue trivial

/-- **Agreement of the two builds**, up to `extra` waiters that `GREEN_FAST` has counted twice. -/
structure BuildsAgree (x : TwoBuilds) (extra : ℕ) : Prop where
  /-- whatever primitive is woken next, both builds extract the first of its waiters, or none -/
  extract : ∀ p, x.very.kind p ≠ none → ∃ f v,
    x.fast.extractWaiting p = .ok (f, (waitersOn x.sleeping p).head?) ∧
    x.very.extractFirstWaiting p = .ok (v, (waitersOn x.sleeping p).head?)
  waitingNum : x.fast.st.waitingNum = x.very.waitingNum + extra
  /-- the registries are the same list of the live primitives -/
  registry : ∃ order, IsDList x.fast.st.primPre x.fast.st.primNext x.fast.st.syncPrim order ∧
    IsDList x.very.primPre x.very.primNext x.very.syncPrim order ∧
    ∀ p, p ∈ order ↔ x.very.kind p ≠ none
  /-- the list from `t_waiting_start` to `t_waiting_end` holds the primitives with waiters, each
  once -/
  contended : ∃ ws, IsQueue x.fast.st.primNext x.fast.tWaiting ws ∧
    ∀ p, p ∈ ws ↔ waitersOn x.sleeping p ≠ []

/-! ## The functions of `GREEN_FAST` -/

/-- `append_lock` leaves the pointers of the registry alone if they lead from the end of the list to
the primitive already. -/
theorem FastPool.appendLock_eq {f : FastPool} {p l : Addr} {ws : List Addr}
    (hends : f.tWaiting = ⟨ws.head?, ws.getLast?⟩)
    (hkeep : ∀ e, ws.getLast? = some e → (f.st.waiting p).start = none →
      f.st.primNext e = some p ∧ f.st.primPre p = some e) :
    f.appendLock p l = ⟨f.st.appendWaiting l p,
      if (f.st.waiting p).start = none then ⟨(ws ++ [p]).head?, some p⟩ else f.tWaiting⟩ := by
  rw [FastPool.appendLock]
  split
  · rename_i hidle
    rcases List.eq_nil_or_concat ws with rfl | ⟨ws, e, rfl⟩
    · rw [hends]
      rfl
    · rw [List.concat_eq_append] at *
      obtain ⟨hn, hp⟩ := hkeep e List.getLast?_concat hidle
      have hhead : (ws ++ [e] ++ [p]).head? = (ws ++ [e]).head? := by cases ws <;> rfl
      have hn' : Function.update f.st.primNext e (some p) = f.st.primNext := by
        rw [← hn, Function.update_eq_self]
      have hp' : Function.update f.st.primPre p (some e) = f.st.primPre := by
        rw [← hp, Function.update_eq_self]
      rw [hends, List.getLast?_concat, hhead]
      simp only [hn', hp']
  · rfl

/-- `waiting_to_running` counts in both builds, so a difference between the counters stays the
same. -/
theorem State.runWoken_count {s s' f' : State} {r : Ptr} {n : ℕ} (he : s.runWoken r = .ok s')
    (hf : { s with waitingNum := s.waitingNum + n }.runWoken r = .ok f') :
    f' = { s' with waitingNum := s'.waitingNum + n } := by
  cases r with
  | none =>
    obtain rfl := Except.ok.inj he
    obtain rfl := Except.ok.inj hf
    rfl
  | some l =>
    obtain ⟨_, hpos, he⟩ := bind_eq_ok he
    obtain ⟨_, -, hf⟩ := bind_eq_ok hf
    obtain rfl := Except.ok.inj he
    obtain rfl := Except.ok.inj hf
    have hpos : 0 < s.waitingNum := by simpa using check_eq_ok hpos
    have hsub : s.waitingNum + n - 1 = s.waitingNum - 1 + n := by omega
    simp only [State.setStatus, hsub]

/-! ## The invariant -/

/-- The memory of the builds differs in `waiting_num` only, and the list of the primitives with
waiters is a segment of the registry. -/
structure BuildsInv (x : TwoBuilds) : Prop where
  same : x.fast.st = { x.very with waitingNum := x.very.waitingNum + x.waits }
  segment : ∃ as ws bs, Registered x.very (as ++ ws ++ bs) ∧
    x.fast.tWaiting = ⟨ws.head?, ws.getLast?⟩ ∧ ∀ p, p ∈ ws ↔ waitersOn x.sleeping p ≠ []
  queues : QueuesOf x.very x.sleeping

namespace BuildsInv

variable {x x' : TwoBuilds} {p l : Addr} {k : PrimKind}

theorem create (h : BuildsInv x) (he : x.step (.create p k) = .ok x') : BuildsInv x' := by
  obtain ⟨as, ws, bs, hreg, hends, hws⟩ := h.segment
  rw [TwoBuilds.step] at he
  split at he
  · rename_i hk
    obtain ⟨f, hf, he⟩ := bind_eq_ok he
    obtain ⟨v, hv, he⟩ := bind_eq_ok he
    obtain rfl := Except.ok.inj he
    obtain ⟨-, -, -, hnum, hcount⟩ := State.syncPrimInitial_frame hv
    obtain ⟨v', hv', hreg', -⟩ := hreg.initial (k := k) hk
    obtain rfl : v' = v := Except.ok.inj (hv'.symm.trans hv)
    refine ⟨?_, ⟨as, ws, bs ++ [p], by simpa using hreg', hends, hws⟩, h.queues.create hk hv⟩
    rw [h.same, hcount] at hf
    rw [hnum]
    exact (Except.ok.inj hf).symm
  · cases he

/-- A primitive that gets its first waiter follows the last one of the list in the registry. -/
theorem follows {as ws bs : List Addr} {e : Addr} (h : BuildsInv x)
    (hreg : Registered x.very (as ++ ws ++ bs))
    (hends : x.fast.tWaiting = ⟨ws.head?, ws.getLast?⟩) (hok : KeepsRegistry x (.wait l p))
    (he : ws.getLast? = some e) (hstart : (x.fast.st.waiting p).start = none) :
    ∃ bs', bs = p :: bs' := by
  have hstop : x.fast.tWaiting.stop = some e := by rw [hends, he]
  obtain ⟨e', he', hnext⟩ : ∃ e' ∈ x.fast.tWaiting.stop, x.fast.st.primNext e' = some p := by
    rcases hok with hne | hnone | hexists
    · exact absurd hstart hne
    · rw [hstop] at hnone
      cases hnone
    · exact hexists
  obtain rfl : e = e' := Option.some.inj (hstop.symm.trans he')
  obtain ⟨ws, rfl⟩ := List.getLast?_eq_some_iff.mp he
  rw [h.same] at hnext
  have hlink := (hreg.list.links (as ++ ws) e bs (by simp)).2
  obtain ⟨bs', rfl⟩ := List.head?_eq_some_iff.mp (hlink.symm.trans hnext)
  exact ⟨bs', rfl⟩

/-- So the pointers that `append_lock` writes are there already. -/
theorem pointers {as ws bs : List Addr} {e : Addr} (h : BuildsInv x)
    (hreg : Registered x.very (as ++ ws ++ bs))
    (hends : x.fast.tWaiting = ⟨ws.head?, ws.getLast?⟩) (hok : KeepsRegistry x (.wait l p))
    (he : ws.getLast? = some e) (hstart : (x.fast.st.waiting p).start = none) :
    x.fast.st.primNext e = some p ∧ x.fast.st.primPre p = some e := by
  obtain ⟨bs', rfl⟩ := h.follows hreg hends hok he hstart
  obtain ⟨ws, rfl⟩ := List.getLast?_eq_some_iff.mp he
  have hnext := (hreg.list.links (as ++ ws) e (p :: bs') (by simp)).2
  have hpre := (hreg.list.links (as ++ ws ++ [e]) p bs' (by simp)).1
  rw [h.same]
  exact ⟨hnext, by rw [hpre, List.getLast?_concat]⟩

/-- The list with the primitive at its end is a segment of the registry again. -/
theorem segment_concat {as ws bs : List Addr} (h : BuildsInv x)
    (hreg : Registered x.very (as ++ ws ++ bs))
    (hends : x.fast.tWaiting = ⟨ws.head?, ws.getLast?⟩) (hok : KeepsRegistry x (.wait l p))
    (hk : x.very.kind p ≠ none) (hstart : (x.fast.st.waiting p).start = none) :
    ∃ as' bs', as ++ ws ++ bs = as' ++ (ws ++ [p]) ++ bs' := by
  rcases hlast : ws.getLast? with _ | e
  · -- an empty list may begin anywhere
    rw [List.getLast?_eq_none_iff] at hlast
    obtain ⟨as', bs', happ⟩ := List.append_of_mem ((hreg.live p).mpr hk)
    exact ⟨as', bs', by rw [happ, hlast]; simp⟩
  · obtain ⟨bs', rfl⟩ := h.follows hreg hends hok hlast hstart
    exact ⟨as, bs', by simp⟩

theorem wait (h : BuildsInv x) (hok : KeepsRegistry x (.wait l p))
    (he : x.step (.wait l p) = .ok x') : BuildsInv x' := by
  obtain ⟨as, ws, bs, hreg, hends, hws⟩ := h.segment
  rw [TwoBuilds.step] at he
  split at he
  · rename_i hstep
    obtain ⟨hk, hl⟩ := hstep
    obtain rfl := Except.ok.inj he
    have hreg' : Registered (x.very.runningToLockWaiting l p) (as ++ ws ++ bs) :=
      hreg.frame ⟨rfl, rfl, rfl, rfl⟩
    have hidle : (x.fast.st.waiting p).start = none ↔ waitersOn x.sleeping p = [] := by
      rw [h.same]
      exact (h.queues.queues p hk).start_eq_none
    have hlock := FastPool.appendLock_eq (l := l)
      (f := { x.fast with st := x.fast.st.setStatus (x.fast.st.thread l) .waiting }) hends
      fun e => h.pointers hreg hends hok
    refine ⟨?_, ?_, h.queues.wait hk hl⟩
    · rw [FastPool.runningToWaiting, hlock, h.same]
      have hcount :
          x.very.waitingNum + x.waits + 1 + 1 = x.very.waitingNum + 1 + (x.waits + 1) := by
        omega
      change ({ (x.very.runningToLockWaiting l p) with
        waitingNum := x.very.waitingNum + x.waits + 1 + 1 } : State) = _
      rw [hcount]
      rfl
    · rw [FastPool.runningToWaiting, hlock]
      rcases hw : waitersOn x.sleeping p with _ | ⟨w, rest⟩
      · -- the first waiter: the primitive joins the list
        have hstart := hidle.mpr hw
        have hmem : ∀ q, q ∈ ws ++ [p] ↔ waitersOn (x.sleeping ++ [(p, l)]) q ≠ [] := by
          intro q
          rw [waitersOn_concat, List.mem_append, List.mem_singleton, hws]
          by_cases hqp : q = p
          · simp [hqp]
          · simp [hqp]
        obtain ⟨as', bs', horder⟩ := h.segment_concat hreg hends hok hk hstart
        rw [horder] at hreg'
        refine ⟨as', ws ++ [p], bs', hreg', ?_, hmem⟩
        rw [List.getLast?_concat]
        exact if_pos hstart
      · have hstart : (x.fast.st.waiting p).start ≠ none := by
          rw [Ne, hidle, hw]
          nofun
        refine ⟨as, ws, bs, hreg', (if_neg hstart).trans hends, ?_⟩
        intro q
        rw [waitersOn_concat, hws]
        by_cases hqp : q = p
        · simp [hqp, hw]
        · simp [hqp]
  · cases he

/-- `extract_waiting`: either no primitive has waiters, or the head of the queue is taken and the
primitive leaves the list when that was the last one. -/
theorem extractWaiting_eq (h : BuildsInv x) (hk : x.very.kind p ≠ none) :
    x.fast.extractWaiting p = .ok (if x.fast.tWaiting.stop = none then x.fast else
      if (waitersOn x.sleeping p).tail = [] then
        FastPool.unlinkPrim ⟨x.fast.st.popHead p (waitersOn x.sleeping p), x.fast.tWaiting⟩ p
      else ⟨x.fast.st.popHead p (waitersOn x.sleeping p), x.fast.tWaiting⟩,
      (waitersOn x.sleeping p).head?) := by
  obtain ⟨as, ws, bs, hreg, hends, hws⟩ := h.segment
  have hqueue : IsQueue x.fast.st.next (x.fast.st.waiting p) (waitersOn x.sleeping p) := by
    rw [h.same]
    exact h.queues.queues p hk
  rw [FastPool.extractWaiting]
  rcases hlast : ws.getLast? with _ | e
  · have hnil := List.getLast?_eq_none_iff.mp hlast
    have hnone : waitersOn x.sleeping p = [] := by
      by_contra hne
      have hmem := (hws p).mpr hne
      rw [hnil] at hmem
      cases hmem
    rw [hends, hnil, hnone]
    rfl
  · have hstop : x.fast.tWaiting.stop = some e := by rw [hends, hlast]
    rw [if_neg (by simp [hstop]), if_neg (by simp [hstop]),
      State.extractFirstWaiting_queue hqueue]
    have hstart := (State.popHead_queue hqueue).start_eq_none
    change (if ((x.fast.st.popHead p (waitersOn x.sleeping p)).waiting p).start = none then _
      else _) = _
    split
    · rename_i hnone
      rw [if_pos (hstart.mp hnone)]
    · rename_i hsome
      rw [if_neg (fun hnil => hsome (hstart.mpr hnil))]

/-- A primitive whose pointers are null is the only one of the registry, -/
theorem alone {order : List Addr} (h : BuildsInv x) (hreg : Registered x.very order)
    (hk : x.very.kind p ≠ none)
    (hnull : x.fast.st.primPre p = none ∧ x.fast.st.primNext p = none) : order = [p] := by
  rw [h.same] at hnull
  exact hreg.list.eq_singleton ((hreg.live p).mpr hk) hnull.1 hnull.2

/-- and so the only one that can have waiters. -/
theorem eq_of_null {as ws bs : List Addr} {q : Addr} (h : BuildsInv x)
    (hreg : Registered x.very (as ++ ws ++ bs)) (hk : x.very.kind p ≠ none)
    (hnull : x.fast.st.primPre p = none ∧ x.fast.st.primNext p = none) (hq : q ∈ ws) : q = p := by
  have hm : q ∈ as ++ ws ++ bs := by simp [hq]
  rw [h.alone hreg hk hnull] at hm
  exact List.mem_singleton.mp hm

/-- A wakeup that keeps the registry changes the list as it should: the primitive leaves it with its
last waiter. -/
theorem wakeup_fast (h : BuildsInv x) (hk : x.very.kind p ≠ none)
    (hok : KeepsRegistry x (.wakeup p)) : ∃ as ws bs, Registered x.very (as ++ ws ++ bs) ∧
      x.fast.extractWaiting p = .ok (⟨x.fast.st.popHead p (waitersOn x.sleeping p),
        ⟨ws.head?, ws.getLast?⟩⟩, (waitersOn x.sleeping p).head?) ∧
      ∀ q, q ∈ ws ↔
        (if q = p then (waitersOn x.sleeping p).tail else waitersOn x.sleeping q) ≠ [] := by
  obtain ⟨as, ws, bs, hreg, hends, hws⟩ := h.segment
  have hqueue : IsQueue x.fast.st.next (x.fast.st.waiting p) (waitersOn x.sleeping p) := by
    rw [h.same]
    exact h.queues.queues p hk
  rw [h.extractWaiting_eq hk]
  -- the list stays the same, if `p` keeps a waiter or had none
  have hstays : ((waitersOn x.sleeping p).tail = [] ↔ waitersOn x.sleeping p = []) → ∀ q, q ∈ ws ↔
      (if q = p then (waitersOn x.sleeping p).tail else waitersOn x.sleeping q) ≠ [] := by
    intro htail q
    rw [hws]
    split
    · rename_i hqp
      rw [Ne, Ne, htail, hqp]
    · rfl
  rcases hw : waitersOn x.sleeping p with _ | ⟨l, rest⟩
  · have hfast : x.fast.tWaiting.stop = none := by
      rw [hw] at hqueue
      rcases hok with hne | hnone | hnull
      · rw [hqueue.eq_nil] at hne
        exact absurd rfl hne
      · exact hnone
      · rw [hends]
        refine List.getLast?_eq_none_iff.mpr (List.eq_nil_iff_forall_not_mem.mpr fun q hq => ?_)
        have hqp := h.eq_of_null hreg hk hnull hq
        exact (hws q).mp hq (hqp ▸ hw)
    rw [if_pos hfast]
    exact ⟨as, ws, bs, hreg, by rw [← hends]; rfl, hw ▸ hstays (by simp [hw])⟩
  · have hpw : p ∈ ws := (hws p).mpr (by simp [hw])
    have hstop : x.fast.tWaiting.stop ≠ none := by
      rw [hends]
      intro hnone
      rw [List.getLast?_eq_none_iff.mp hnone] at hpw
      cases hpw
    rw [if_neg hstop]
    rcases rest with _ | ⟨l', rest⟩
    · -- the last waiter: the primitive leaves the list, which has no other
      have hnull : x.fast.st.primPre p = none ∧ x.fast.st.primNext p = none := by
        rcases hok with hne | hnone | hnull
        · rw [hw] at hqueue
          exact absurd (hqueue.start_eq_stop.mpr rfl) hne
        · exact absurd hnone hstop
        · exact hnull
      rw [if_pos (show [l].tail = [] from rfl)]
      have hreg' : Registered x.very ([] ++ [] ++ [p]) := (h.alone hreg hk hnull) ▸ hreg
      refine ⟨[], [], [p], hreg', ?_, ?_⟩
      · have hpre : (x.fast.st.popHead p [l]).primPre p = none := hnull.1
        have hnext : (x.fast.st.popHead p [l]).primNext p = none := hnull.2
        simp only [FastPool.unlinkPrim, hpre, hnext]
        rfl
      · intro q
        by_cases hqp : q = p
        · simp [hqp]
        · simp only [List.not_mem_nil, hqp, if_false, false_iff, not_not]
          by_contra hne
          exact hqp (h.eq_of_null hreg hk hnull ((hws q).mpr hne))
    · rw [if_neg (by simp)]
      exact ⟨as, ws, bs, hreg, by rw [← hends], hw ▸ hstays (by simp [hw])⟩

theorem wakeup (h : BuildsInv x) (hok : KeepsRegistry x (.wakeup p))
    (he : x.step (.wakeup p) = .ok x') : BuildsInv x' := by
  rw [TwoBuilds.step] at he
  split at he
  · cases he
  rename_i hk
  obtain ⟨as, ws, bs, hreg, hfast, hws⟩ := h.wakeup_fast hk hok
  obtain ⟨⟨f, r⟩, hf, he⟩ := bind_eq_ok he
  obtain ⟨fs, hfs, he⟩ := bind_eq_ok he
  obtain ⟨⟨v, r'⟩, hv, he⟩ := bind_eq_ok he
  obtain ⟨vs, hvs, he⟩ := bind_eq_ok he
  obtain rfl := Except.ok.inj he
  obtain ⟨rfl, rfl⟩ := Prod.mk.inj (Except.ok.inj (hfast.symm.trans hf))
  have hvery := State.extractFirstWaiting_queue (h.queues.queues p hk)
  obtain ⟨rfl, rfl⟩ := Prod.mk.inj (Except.ok.inj (hvery.symm.trans hv))
  obtain ⟨hprims, hnum, hcount⟩ := State.popHead_same x.very p (waitersOn x.sleeping p)
  rw [h.same, hcount, ← hnum] at hfs
  have hqueues := h.queues.wake hk hvs
  obtain rfl := State.runWoken_count hvs hfs
  obtain ⟨st, run, rfl⟩ := State.runWoken_eq hvs
  refine ⟨rfl, ⟨as, ws, bs, hreg.frame (hprims.trans ⟨rfl, rfl, rfl, rfl⟩), rfl, ?_⟩, hqueues⟩
  intro q
  rw [waitersOn_erase]
  exact hws q

/-- **Step lemma.** The difference of the counters grows with each wait, and the rest stays the
same. -/
theorem step {c : WaitCall} (h : BuildsInv x) (hok : KeepsRegistry x c) (he : x.step c = .ok x') :
    BuildsInv x' := by
  cases c with
  | create p k => exact h.create he
  | wait l p => exact h.wait hok he
  | wakeup p => exact h.wakeup hok he

theorem of_init (hx : buildRuns.init x) : BuildsInv x ∧ x.sleeping = [] ∧ x.waits = 0 := by
  obtain ⟨mem, t, link, hblank, rfl⟩ := hx
  refine ⟨⟨rfl, ⟨[], [], [], ⟨.nil _ _, fun p => ?_⟩, rfl, fun p => ?_⟩,
    .initial hblank t link⟩, rfl, rfl⟩
  · exact ⟨nofun, fun hp => absurd (hblank.kind p) hp⟩
  · exact ⟨nofun, fun hp => absurd rfl hp⟩

theorem of_reach (hx : Reach (buildRuns.guard KeepsRegistry) x) : BuildsInv x := by
  refine Reach.invariant (T := buildRuns.guard KeepsRegistry) (P := BuildsInv) ?_ ?_ hx
  · exact fun x hx => (of_init hx).1
  · exact fun x c x' _ h hs => h.step hs.1 hs.2

/-- Without waits no primitive has waiters, so the builds do not even differ in their counters. -/
theorem of_reach_noWait (hx : Reach (buildRuns.guard NoWait) x) :
    BuildsInv x ∧ x.sleeping = [] ∧ x.waits = 0 := by
  refine Reach.invariant (T := buildRuns.guard NoWait)
    (P := fun x => BuildsInv x ∧ x.sleeping = [] ∧ x.waits = 0) (fun x hx => of_init hx) ?_ hx
  rintro x c x' - ⟨h, hsleep, hwaits⟩ ⟨hok, he⟩
  cases c with
  | create p k =>
    refine ⟨h.create he, ?_⟩
    simp only [buildRuns, TwoBuilds.step] at he
    split at he
    · obtain ⟨f, -, he⟩ := bind_eq_ok he
      obtain ⟨v, -, he⟩ := bind_eq_ok he
      obtain rfl := Except.ok.inj he
      exact ⟨hsleep, hwaits⟩
    · cases he
  | wait l p => exact absurd hok id
  | wakeup p =>
    have hstop : x.fast.tWaiting.stop = none := by
      obtain ⟨as, ws, bs, -, hends, hws⟩ := h.segment
      rw [hends, List.getLast?_eq_none_iff, List.eq_nil_iff_forall_not_mem]
      intro q hq
      refine (hws q).mp hq ?_
      rw [hsleep]
      rfl
    refine ⟨h.wakeup (.inr (.inl hstop)) he, ?_⟩
    simp only [buildRuns, TwoBuilds.step] at he
    split at he
    · cases he
    · obtain ⟨_, -, he⟩ := bind_eq_ok he
      obtain ⟨_, -, he⟩ := bind_eq_ok he
      obtain ⟨_, -, he⟩ := bind_eq_ok he
      obtain ⟨_, -, he⟩ := bind_eq_ok he
      obtain rfl := Except.ok.inj he
      refine ⟨?_, hwaits⟩
      rw [hsleep]
      rfl

theorem agree (h : BuildsInv x) : BuildsAgree x x.waits := by
  obtain ⟨as, ws, bs, hreg, hends, hws⟩ := h.segment
  refine ⟨?_, by rw [h.same], ⟨as ++ ws ++ bs, ?_, hreg.list, hreg.live⟩, ⟨ws, ?_, hws⟩⟩
  · intro p hk
    exact ⟨_, _, h.extractWaiting_eq hk, State.extractFirstWaiting_queue (h.queues.queues p hk)⟩
  · rw [h.same]
    exact hreg.list
  · rw [h.same, hends]
    exact hreg.list.segment

end BuildsInv

/-- **The two builds agree in the runs without waits.** In the runs that never need different
pointers for the two lists they agree in everything but `waiting_num`, which `GREEN_FAST` has
incremented once too often for each wait. -/
theorem fast_builds_agree (x : TwoBuilds) :
    (Reach (buildRuns.guard NoWait) x → BuildsAgree x 0) ∧
      (Reach (buildRuns.guard KeepsRegistry) x → BuildsAgree x x.waits) := by
  constructor
  · intro hx
    obtain ⟨h, -, hwaits⟩ := BuildsInv.of_reach_noWait hx
    exact hwaits ▸ h.agree
  · intro hx
    exact (BuildsInv.of_reach hx).agree

/-- Two builds on a fresh pool, as a start for runs on concrete calls. -/
def TwoBuilds.boot : TwoBuilds :=
  ⟨⟨State.zero.threadInitial 0 0, ⟨none, none⟩⟩, State.zero.threadInitial 0 0, [], 0⟩

theorem TwoBuilds.boot_init : buildRuns.init TwoBuilds.boot :=
  ⟨State.zero, 0, 0, State.zero_blank, rfl⟩

/-- Make a call that meets the condition `ok`, as a function, so that runs under a condition can be
evaluated. -/
def TwoBuilds.take (ok : TwoBuilds → WaitCall → Prop) [∀ x c, Decidable (ok x c)] (x : TwoBuilds)
    (c : WaitCall) : Except Fault TwoBuilds :=
  if ok x c then x.step c else .error .disabled

theorem TwoBuilds.take_step {ok : TwoBuilds → WaitCall → Prop} [∀ x c, Decidable (ok x c)]
    {x x' : TwoBuilds} {c : WaitCall} (he : TwoBuilds.take ok x c = .ok x') :
    (buildRuns.guard ok).step x c x' := by
  rw [TwoBuilds.take] at he
  split at he
  · rename_i hok
    exact ⟨hok, he⟩
  · cases he

/-- A primitive is woken that nobody waits on; and two threads wait on one primitive and a third one
on the next, before the first one is woken. -/
theorem fast_builds_agree_runs :
    (∃ x, Reach (buildRuns.guard NoWait) x ∧ x.very.syncPrim = ⟨some 1, some 2⟩ ∧ BuildsAgree x 0) ∧
      ∃ x, Reach (buildRuns.guard KeepsRegistry) x ∧ waitersOn x.sleeping 1 = [6] ∧
        waitersOn x.sleeping 2 = [7] ∧ BuildsAgree x 3 := by
  constructor
  · obtain ⟨x, hx, hends⟩ := (Reach.init (T := buildRuns.guard NoWait)
      TwoBuilds.boot_init).exists_of_exec (TwoBuilds.take NoWait) (fun _ _ _ => TwoBuilds.take_step)
      [.create 1 .lock, .create 2 .lock, .wakeup 1]
      (fun x => x.very.syncPrim = ⟨some 1, some 2⟩) (by decide)
    exact ⟨x, hx, hends, (fast_builds_agree x).1 hx⟩
  · obtain ⟨x, hx, h₁, h₂, hwaits⟩ := (Reach.init (T := buildRuns.guard KeepsRegistry)
      TwoBuilds.boot_init).exists_of_exec (TwoBuilds.take KeepsRegistry)
      (fun _ _ _ => TwoBuilds.take_step)
      [.create 1 .lock, .create 2 .lock, .wait 5 1, .wait 6 1, .wait 7 2, .wakeup 1]
      (fun x => waitersOn x.sleeping 1 = [6] ∧ waitersOn x.sleeping 2 = [7] ∧ x.waits = 3)
      (by decide)
    exact ⟨x, hx, h₁, h₂, hwaits ▸ (fast_builds_agree x).2 hx⟩

/-- **The two builds differ.** After one wait they have counted differently. Waking the only waiter
of the first of two primitives takes that primitive out of the registry of `GREEN_FAST` and leaves a
primitive without waiters at `t_waiting_start`. And two wakeups of a primitive without waiters make
`GREEN_FAST` forget the waiter of another one. -/
theorem fast_builds_differ :
    (∃ x, Reach buildRuns x ∧ x.fast.st.waitingNum = 2 ∧ x.very.waitingNum = 1) ∧
      (∃ x, Reach buildRuns x ∧ chase x.very.primNext 3 x.very.syncPrim.start = [1, 2] ∧
        chase x.fast.st.primNext 3 x.fast.st.syncPrim.start = [1] ∧
        x.fast.tWaiting.start = some 2 ∧ x.sleeping = []) ∧
      ∃ x, Reach buildRuns x ∧ (x.fast.extractWaiting 1).toOption.map Prod.snd = some none ∧
        (x.very.extractFirstWaiting 1).toOption.map Prod.snd = some (some 5) := by
  have hboot : Reach buildRuns TwoBuilds.boot := .init TwoBuilds.boot_init
  refine ⟨?_, ?_, ?_⟩
  · exact hboot.exists_of_exec TwoBuilds.step (fun _ _ _ he => he) [.create 1 .lock, .wait 5 1]
      (fun x => x.fast.st.waitingNum = 2 ∧ x.very.waitingNum = 1) (by decide)
  · exact hboot.exists_of_exec TwoBuilds.step (fun _ _ _ he => he)
      [.create 1 .lock, .create 2 .lock, .wait 5 1, .wakeup 1]
      (fun x => chase x.very.primNext 3 x.very.syncPrim.start = [1, 2] ∧
        chase x.fast.st.primNext 3 x.fast.st.syncPrim.start = [1] ∧
        x.fast.tWaiting.start = some 2 ∧ x.sleeping = []) (by decide)
  · exact hboot.exists_of_exec TwoBuilds.step (fun _ _ _ he => he)
      [.create 1 .lock, .create 2 .lock, .wait 5 1, .wakeup 2, .wakeup 2]
      (fun x => (x.fast.extractWaiting 1).toOption.map Prod.snd = some none ∧
        (x.very.extractFirstWaiting 1).toOption.map Prod.snd = some (some 5)) (by decide)

end GreenLib
