import GreenLib.GreenDone

/-!
# The green server serves in the order of arrival

The handlers of a role sleep on one list, but nothing in `process_message` of the newer `main.c`
keeps a request that has just been received from being served before the handlers that sleep: the
buffer is tested first. That it does not overtake them is a matter of the invariants. Handlers of a
role sleep only while the buffer has no place for it, or while the one that has been woken is about
to take the place (`Queues.asleep`), and a handler that has been woken does not sleep again
(`Settled.woken`).

So the requests of a role that the server has taken from its endpoint and not yet served form a
queue (`pending`): the handler that has been woken, those that sleep, and the one that has just
received its request. Each step takes at most its head away or appends one (`FreeStep.inTurn`), and
over whole runs the buffer is changed in the order in which the requests were received
(`served_in_order`).
-/

namespace GreenLib

namespace GreenServer

open Sched

variable {n k : ℕ} {S : GreenServer n} {a a' : AMach (GreenPc n) (Shared n)} {i : ℕ}
  {role : Role} {l : Label (Option (Fin n)) (Fin n × Request)}

/-! ## Requests -/

/-- The client of a handler that has just received a request of the role and has not tested the
buffer yet. -/
def asking (role : Role) : Frame (GreenPc n) → List (Fin n)
  | .user (.got c (.op r)) => if r = role then [c] else []
  | _ => []

/-- The client of a handler of the role that has gone to sleep, also if it has been woken since and
not gone on. -/
def sleeping (role : Role) : Frame (GreenPc n) → List (Fin n)
  | .user (.serve .slept r c _) => if r = role then [c] else []
  | _ => []

theorem mem_asking {c : Fin n} {fr : Frame (GreenPc n)} :
    c ∈ asking role fr ↔ fr = .user (.got c (.op role)) := by
  unfold asking
  split
  · rename_i d r
    by_cases hr : r = role
    · subst hr
      simp [eq_comm]
    · simp [hr]
  · rename_i hno
    exact ⟨fun hc => absurd hc List.not_mem_nil, fun he => absurd he (hno c role)⟩

theorem mem_sleeping {c : Fin n} {fr : Frame (GreenPc n)} :
    c ∈ sleeping role fr ↔ ∃ sl, fr = .user (.serve .slept role c sl) := by
  unfold sleeping
  split
  · rename_i r d sl
    by_cases hr : r = role
    · subst hr
      simp [eq_comm]
    · simp [hr]
  · rename_i hno
    refine ⟨fun hc => absurd hc List.not_mem_nil, ?_⟩
    rintro ⟨sl, he⟩
    exact absurd he (hno role c sl)

/-- The request of the role that a step takes from the endpoint: before it the running thread is at
`seL4_Recv`, and after it it has the request. -/
def received (role : Role) (x : Mach (GreenPc n) (Shared n) ×
    Label (Option (Fin n)) (Fin n × Request) × Mach (GreenPc n) (Shared n)) : List (Fin n) :=
  if x.1.cpu = .user .recv then asking role x.2.2.cpu else []

/-- The request of the role for which a step changes the buffer, read off where the running thread
is before the step. -/
def changed (role : Role) (x : Mach (GreenPc n) (Shared n) ×
    Label (Option (Fin n)) (Fin n × Request) × Mach (GreenPc n) (Shared n)) : List (Fin n) :=
  if x.2.2.g.changes role = x.1.g.changes role then []
  else sleeping role x.1.cpu ++ asking role x.1.cpu

/-! ## The queue of requests -/

/-- What is read off the frame of the running thread. Nothing is, when thread 0 has control and is
done. -/
def ofRunning (φ : Frame (GreenPc n) → List (Fin n)) (a : AMach (GreenPc n) (Shared n)) :
    List (Fin n) :=
  match a.sched.running with
  | none => []
  | some i => φ (a.frame i)

theorem ofRunning_eq {φ : Frame (GreenPc n) → List (Fin n)} {fr : Frame (GreenPc n)}
    (hi : a.sched.running = some i) (hf : a.frame i = fr) : ofRunning φ a = φ fr := by
  rw [ofRunning, hi, ← hf]

/-- The threads on the list of the role, in the order in which `thread_wakeup` takes them. There are
none before the list has been created. -/
def sleepers (a : AMach (GreenPc n) (Shared n)) (role : Role) : List ℕ :=
  match a.g.list role with
  | none => []
  | some p => a.sched.waiting p

theorem sleepers_eq {p : Addr} (hp : a.g.list role = some p) :
    sleepers a role = a.sched.waiting p := by rw [sleepers, hp]

/-- The clients of the handlers that sleep, in the order of the list. -/
def queued (a : AMach (GreenPc n) (Shared n)) (role : Role) : List (Fin n) :=
  (sleepers a role).flatMap fun j => sleeping role (a.frame j)

/-- **The requests of the role** that have been received and not been served, in their order: that
of a handler that has been woken, those of the sleepers, and the one that has just been received. -/
def pending (a : AMach (GreenPc n) (Shared n)) (role : Role) : List (Fin n) :=
  ofRunning (sleeping role) a ++ queued a role ++ ofRunning (asking role) a

theorem queued_congr (hs : sleepers a' role = sleepers a role)
    (hframe : ∀ j ∈ sleepers a role, a'.frame j = a.frame j) : queued a' role = queued a role := by
  rw [queued, queued, hs, List.flatMap_congr fun j hj => by rw [hframe j hj]]

/-- A running thread without a request adds nothing to the sleepers. -/
theorem pending_eq_queued (hno : ∀ i, a.sched.running = some i →
    sleeping role (a.frame i) = [] ∧ asking role (a.frame i) = []) :
    pending a role = queued a role := by
  rcases hi : a.sched.running with _ | i
  · rw [pending, ofRunning, ofRunning, hi]
    exact List.append_nil _
  · obtain ⟨hsleeping, hasking⟩ := hno i hi
    rw [pending, ofRunning_eq hi rfl, ofRunning_eq hi rfl, hsleeping, hasking]
    exact List.append_nil _

/-- A thread that runs is on no list, so what it does leaves the frames of the sleepers alone. -/
theorem ne_of_mem_sleepers (hi : a.sched.running = some i) {j : ℕ} (hj : j ∈ sleepers a role) :
    j ≠ i := by
  rintro rfl
  rw [sleepers] at hj
  split at hj
  · cases hj
  · cases (place_running hi).symm.trans (place_waiting hj)

/-- A thread of the ready queue has no request that is still to be served: it is at `seL4_Recv`, or
about to send its answer. -/
theorem Queues.of_ready (h : Queues a) {j : ℕ} (h0 : j ≠ 0) (hj : a.sched.place j = .ready) :
    sleeping role (a.frame j) = [] ∧ asking role (a.frame j) = [] := by
  rcases h.ready j h0 hj with he | ⟨_, _, _, he⟩ <;> rw [he] <;> exact ⟨rfl, rfl⟩

/-- A thread of the list of the role is a handler of the role that has slept, because the two lists
are different primitives. -/
theorem Queues.of_sleeper (h : Queues a) {kind : Addr → Option PrimKind}
    (hassigned : Assigned kind a.g.prim []) {j : ℕ} {p : Addr} (hp : a.g.list role = some p)
    (hj : j ∈ a.sched.waiting p) :
    ∃ c sl, a.frame j = .user (.serve .slept role c sl) := by
  obtain ⟨role', c, sl, hp', hf⟩ := h.waiting j p (place_waiting hj)
  obtain rfl := hassigned.list_inj hp hp'
  exact ⟨c, sl, hf⟩

/-! ## Steps -/

/-- The request that is received in an abstract step, as `received` says it of a step of the
machine, -/
def takes (a a' : AMach (GreenPc n) (Shared n)) (role : Role) : List (Fin n) :=
  if a.sched.running.map a.frame = some (.user .recv) then ofRunning (asking role) a' else []

/-- and the one that is served, as `changed` says it. -/
def serves (a a' : AMach (GreenPc n) (Shared n)) (role : Role) : List (Fin n) :=
  if a'.g.changes role = a.g.changes role then []
  else ofRunning (sleeping role) a ++ ofRunning (asking role) a

/-- **A step takes the first request away, or appends one.** Put as an equation, it can be added up
over a run. -/
def InTurn (a a' : AMach (GreenPc n) (Shared n)) (role : Role) : Prop :=
  pending a role ++ takes a a' role = serves a a' role ++ pending a' role

section Act

variable {u w : GreenPc n} {c : Fin n} {sl p : ℕ} {kind : Addr → Option PrimKind}

theorem takes_of_ne (hi : a.sched.running = some i) (hf : a.frame i = .user u) (hu : u ≠ .recv) :
    takes a a' role = [] := by
  refine if_neg fun he => hu ?_
  rw [hi, Option.map_some, hf] at he
  exact Frame.user.inj (Option.some.inj he)

theorem serves_of_eq (h : a'.g.changes role = a.g.changes role) : serves a a' role = [] := if_pos h

/-- A step in which no request is received or served, and the queue is the same. -/
theorem InTurn.same (htakes : takes a a' role = [])
    (hchanges : a'.g.changes role = a.g.changes role) (hsame : pending a' role = pending a role) :
    InTurn a a' role := by
  rw [InTurn, htakes, serves_of_eq hchanges, hsame, List.append_nil, List.nil_append]

/-- The thread goes on alone, and both queues are written out: the sleepers are the same, and only
what the thread itself has may differ. -/
theorem pending_stay (hi : a.sched.running = some i) (hsched : a'.sched = a.sched)
    (hf : a.frame i = .user u) (hframe : a'.frame = Function.update a.frame i (.user w))
    (hlist : a'.g.list role = a.g.list role) :
    pending a role = sleeping role (.user u) ++ queued a role ++ asking role (.user u) ∧
      pending a' role = sleeping role (.user w) ++ queued a role ++ asking role (.user w) := by
  have hi' : a'.sched.running = some i := hsched ▸ hi
  have hf' : a'.frame i = .user w := by rw [hframe, Function.update_self]
  have hsame : queued a' role = queued a role := by
    refine queued_congr (by rw [sleepers, sleepers, hlist, hsched]) fun j hj => ?_
    rw [hframe, Function.update_of_ne (ne_of_mem_sleepers hi hj)]
  rw [pending, pending, hsame, ofRunning_eq hi hf, ofRunning_eq hi hf, ofRunning_eq hi' hf',
    ofRunning_eq hi' hf']
  exact ⟨rfl, rfl⟩

/-- The request of a handler belongs to one role only, so for the other role there are just the
sleepers. -/
theorem pending_other {v : View} {g₁ : Shared n} (hi : a.sched.running = some i)
    (hf : a.frame i = .user u) (hE : Enters v a.g u role c sl g₁) :
    pending a role.other = queued a role.other := by
  have hne := role.ne_other
  refine pending_eq_queued fun j hj => ?_
  obtain rfl := Option.some.inj (hi.symm.trans hj)
  rw [hf]
  rcases hE.cases with rfl | rfl <;> simp [sleeping, asking, hne]

/-- What happens on the list of one role does not concern the sleepers of another. -/
theorem queued_of_ne {r : Role} {ks : List ℕ} (hassigned : Assigned kind a.g.prim [])
    (hi : a.sched.running = some i) (hp : a.g.list role = some p) (hr : r ≠ role)
    (hwaiting : a'.sched.waiting = Function.update a.sched.waiting p ks)
    (hkept : ∀ j, j ≠ i → a'.frame j = a.frame j) (hlist : ∀ r, a'.g.list r = a.g.list r) :
    queued a' r = queued a r := by
  refine queued_congr ?_ fun k hk => hkept k (ne_of_mem_sleepers hi hk)
  rw [sleepers, sleepers, hlist]
  split
  · rfl
  · rename_i q hq
    have hpq : q ≠ p := by
      rintro rfl
      exact hr (hassigned.list_inj hq hp)
    rw [hwaiting, Function.update_of_ne hpq]

/-- **Nobody is overtaken**: a handler that finds a place has the first request. If it has just
received it, nobody of its role sleeps. -/
theorem Queues.pending_eq_cons {v : View} {g₁ : Shared n} (hq : Queues a)
    (hi : a.sched.running = some i) (hf : a.frame i = .user u)
    (hE : Enters v a.g u role c sl g₁) (hb : a.g.buf.blocked role = false)
    (hrange : a.g.buf.InRange) : pending a role = c :: queued a role := by
  rw [pending, ofRunning_eq hi hf, ofRunning_eq hi hf]
  rcases hE.cases with rfl | rfl
  · -- handlers that sleep would leave no place for one that has not slept
    have hnil : queued a role = [] := by
      rw [queued, sleepers]
      split
      · rfl
      · rename_i p hp
        by_cases hw : a.sched.waiting p = []
        · rw [hw]
          rfl
        · exfalso
          rcases hq.asleep role p hp hw with hplaces | ⟨j, d, sl', -, hj, hfj⟩
          · have hpos := Buffer.places_of_allowed (hrange.allowed hb)
            omega
          · obtain rfl := Option.some.inj (hi.symm.trans hj)
            cases hf.symm.trans hfj
    simp [hnil, sleeping, asking]
  · simp [sleeping, asking]

/-- `thread_wakeup` of the other list runs its first handler, or nobody. Its request is then that of
the running thread, in front of the others, as it was. -/
theorem Queues.pending_wakeup (hq : Queues a) (hassigned : Assigned kind a.g.prim [])
    (hi : a.sched.running = some i) (hp : a.g.list role.other = some p)
    (hs : Step a.sched i (.wakeup p) a'.sched)
    (hframe : a'.frame = Function.update a.frame i (.user (.serve .reply role c sl)))
    (hlist : ∀ r, a'.g.list r = a.g.list r) (r : Role) : pending a' r = queued a r := by
  have hkept : ∀ j, j ≠ i → a'.frame j = a.frame j := fun j hj => by
    rw [hframe, Function.update_of_ne hj]
  rcases hw : a.sched.waiting p with _ | ⟨j, tl⟩
  · have hsched := hs.wakeup_nil hw
    have hi' : a'.sched.running = some i := hsched ▸ hi
    have hf' : a'.frame i = .user (.serve .reply role c sl) := by rw [hframe, Function.update_self]
    have hsame : queued a' r = queued a r :=
      queued_congr (by rw [sleepers, sleepers, hlist, hsched]) fun j hj =>
        hkept j (ne_of_mem_sleepers hi hj)
    rw [pending, ofRunning_eq hi' hf', ofRunning_eq hi' hf', hsame]
    exact List.append_nil _
  · have hb := hs.wakeup_cons hw
    have hsleepers : sleepers a role.other = j :: tl := (sleepers_eq hp).trans hw
    have hne : ∀ k ∈ j :: tl, k ≠ i := fun k hk =>
      ne_of_mem_sleepers hi (hsleepers ▸ hk : k ∈ sleepers a role.other)
    obtain ⟨d, sl', hfj⟩ := hq.of_sleeper hassigned hp (hw ▸ List.mem_cons_self : j ∈ _)
    have hf' : a'.frame j = .user (.serve .slept role.other d sl') :=
      (hkept j (hne j List.mem_cons_self)).trans hfj
    rw [pending, ofRunning_eq hb.running hf', ofRunning_eq hb.running hf']
    by_cases hr : r = role.other
    · -- it was the first of its list and is now the one that has been woken
      subst hr
      have hrest : queued a' role.other = tl.flatMap fun k => sleeping role.other (a.frame k) := by
        rw [queued, sleepers_eq ((hlist _).trans hp), hb.waiting, Function.update_self]
        refine List.flatMap_congr fun k hk => ?_
        rw [hkept k (hne k (List.mem_cons_of_mem j hk))]
      rw [hrest, queued, hsleepers, List.flatMap_cons, hfj]
      exact List.append_nil _
    · have hsame := queued_of_ne hassigned hi hp hr hb.waiting hkept hlist
      have hne' : role.other ≠ r := fun he => hr he.symm
      simp [sleeping, asking, hne', hsame]

/-- A handler that has just received its request goes to sleep behind the others, and its request is
the last one before and after. -/
theorem Queues.pending_sleep (hq : Queues a) (hassigned : Assigned kind a.g.prim [])
    (hi : a.sched.running = some i) (hpark : a.sched.place 0 = .parked)
    (hf : a.frame i = .user (.got c (.op role))) (hp : a.g.list role = some p)
    (hready : a.sched.ready ≠ []) (hs : Step a.sched i (.sleep p) a'.sched)
    (hframe : a'.frame = Function.update a.frame i (.user (.serve .slept role c sl)))
    (hlist : ∀ r, a'.g.list r = a.g.list r) (r : Role) : pending a' r = pending a r := by
  have hkept : ∀ j, j ≠ i → a'.frame j = a.frame j := fun j hj => by
    rw [hframe, Function.update_of_ne hj]
  obtain ⟨j, tl, hr⟩ := List.exists_cons_of_ne_nil hready
  have hb := hs.sleep_cons hr
  -- the next thread has nothing to serve
  have hplace : a.sched.place j = .ready := place_ready (hr ▸ List.mem_cons_self)
  have hji : j ≠ i := ne_running_of_place hi hplace (by simp)
  have hj0 : j ≠ 0 := by
    rintro rfl
    cases hplace.symm.trans hpark
  have hnext : pending a' r = queued a' r := by
    refine pending_eq_queued fun k hk => ?_
    obtain rfl := Option.some.inj (hb.running.symm.trans hk)
    rw [hkept j hji]
    exact hq.of_ready hj0 hplace
  rw [hnext, pending, ofRunning_eq hi hf, ofRunning_eq hi hf]
  by_cases hrole : role = r
  · subst hrole
    have hsleepers : sleepers a' role = sleepers a role ++ [i] := by
      rw [sleepers_eq ((hlist role).trans hp), sleepers_eq hp, hb.waiting, Function.update_self]
    have hold : (sleepers a role).flatMap (fun k => sleeping role (a'.frame k)) = queued a role :=
      List.flatMap_congr fun k hk => by rw [hkept k (ne_of_mem_sleepers hi hk)]
    have hf' : a'.frame i = .user (.serve .slept role c sl) := by rw [hframe, Function.update_self]
    rw [queued, hsleepers, List.flatMap_append, hold, List.flatMap_singleton, hf']
    simp [sleeping, asking]
  · have hsame := queued_of_ne hassigned hi hp (Ne.symm hrole) hb.waiting hkept hlist
    simp [sleeping, asking, hrole, hsame]

/-- `seL4_Recv`: the request that is received comes at the end of the queue. -/
theorem inTurn_recv {r : Request} (hi : a.sched.running = some i) (hf : a.frame i = .user .recv)
    (hsched : a'.sched = a.sched)
    (hframe : a'.frame = Function.update a.frame i (.user (.got c r)))
    (hlist : a'.g.list role = a.g.list role) (hchanges : a'.g.changes role = a.g.changes role) :
    InTurn a a' role := by
  obtain ⟨hbefore, hafter⟩ := pending_stay hi hsched hf hframe hlist
  have hf' : a'.frame i = .user (.got c r) := by rw [hframe, Function.update_self]
  have htakes : takes a a' role = asking role (.user (.got c r)) := by
    rw [takes, hi, Option.map_some, hf, if_pos rfl, ofRunning_eq (hsched ▸ hi) hf']
  rw [InTurn, hbefore, hafter, htakes, serves_of_eq hchanges]
  exact congrArg (· ++ _) (List.append_nil _)

/-- A handler changes the buffer: its request is the first of its role, and for the other role at
most the first sleeper is woken. -/
theorem Queues.inTurn_change {v : View} {g₁ : Shared n} {r : Role} (hq : Queues a)
    (hassigned : Assigned kind a.g.prim []) (hi : a.sched.running = some i)
    (hf : a.frame i = .user u) (hE : Enters v a.g u r c sl g₁) (hb : a.g.buf.blocked r = false)
    (hrange : a.g.buf.InRange) (hp : a.g.list r.other = some p)
    (hs : Step a.sched i (.wakeup p) a'.sched)
    (hframe : a'.frame = Function.update a.frame i (.user (.serve .reply r c sl)))
    (hlist : ∀ r, a'.g.list r = a.g.list r)
    (hchanges : a'.g.changes = Function.update a.g.changes r (a.g.changes r + 1)) :
    InTurn a a' role := by
  have hu : u ≠ .recv := by rcases hE.cases with rfl | rfl <;> simp
  rw [InTurn, takes_of_ne hi hf hu, hq.pending_wakeup hassigned hi hp hs hframe hlist role,
    List.append_nil]
  rcases r.eq_or_eq_other role with rfl | rfl
  · have hserves : serves a a' role = [c] := by
      rw [serves, if_neg (by simp [hchanges]), ofRunning_eq hi hf, ofRunning_eq hi hf]
      rcases hE.cases with rfl | rfl <;> simp [sleeping, asking]
    rw [hq.pending_eq_cons hi hf hE hb hrange, hserves]
    rfl
  · rw [pending_other hi hf hE, serves_of_eq (by simp [hchanges, r.ne_other.symm])]
    rfl

/-- `TMNT`: neither the thread that exits nor the one that runs next has a request. -/
theorem Queues.inTurn_exit (hq : Queues a) (hi : a.sched.running = some i)
    (hpark : a.sched.place 0 = .parked) (hf : a.frame i = .user (.got c .tmnt))
    (hs : Step a.sched i .exit a'.sched) (hframe : a'.frame = a.frame)
    (hlist : a'.g.list role = a.g.list role) (hchanges : a'.g.changes role = a.g.changes role) :
    InTurn a a' role := by
  refine .same (takes_of_ne hi hf (by simp)) hchanges ?_
  have hbefore : pending a role = queued a role := by
    refine pending_eq_queued fun j hj => ?_
    obtain rfl := Option.some.inj (hi.symm.trans hj)
    rw [hf]
    exact ⟨rfl, rfl⟩
  have hafter : pending a' role = queued a' role := by
    refine pending_eq_queued fun j hj => ?_
    have hji : j ≠ i := by
      rintro rfl
      exact ((hs.placed_iff hi).mp (by rw [place_running hj]; simp)).2 rfl rfl
    have hready : a.sched.place j = .ready := by
      rcases hs.running_from hi hj hji with hp | ⟨p, hp | hp | hp, -⟩
      · exact hp
      all_goals cases hp
    have h0 : j ≠ 0 := by
      rintro rfl
      cases hready.symm.trans hpark
    rw [hframe]
    exact hq.of_ready h0 hready
  rw [hbefore, hafter]
  refine queued_congr ?_ fun j _ => by rw [hframe]
  rw [sleepers, sleepers, hlist]
  split
  · rfl
  · exact hs.waiting_of_not_touches (by rintro (h | h | h) <;> cases h)

end Act

/-- No thread goes on: a client makes a call, which is not in the queue before it has been
received. -/
theorem inTurn_same (hsched : a'.sched = a.sched) (hframe : a'.frame = a.frame)
    (hprim : a'.g.prim = a.g.prim) (hchanges : a'.g.changes = a.g.changes) :
    InTurn a a' role := by
  have hpending : pending a' role = pending a role := by
    rw [pending, pending, queued, queued, sleepers, sleepers, ofRunning, ofRunning, ofRunning,
      ofRunning, list_congr hprim, hsched, hframe]
  have htakes : takes a a' role = [] := by
    rw [takes]
    split
    · rename_i hat
      obtain ⟨i, hi, hf⟩ := Option.map_eq_some_iff.mp hat
      rw [ofRunning_eq (hsched ▸ hi) (hframe ▸ hf)]
      rfl
    · rfl
  exact .same htakes (by rw [hchanges]) hpending

/-- **Every step after the set-up** keeps the order of the requests, of both roles. -/
theorem FreeStep.inTurn {half : ℕ} (hs : FreeStep S a a') (hstaff : Staffed S k a)
    (hset : Settled a) (hn : n = 2 * half) (hlimit : 1 ≤ S.limit)
    (hrun : a.sched.running ≠ some 0) (role : Role) : InTurn a a' role := by
  have hassigned := (hstaff.setUp.assigned hrun).2
  have hpark : a.sched.place 0 = .parked := by
    rcases hstaff.setUp.shape.zero with ⟨_, hzero, -⟩ | ⟨hpark, -⟩
    · exact absurd hzero hrun
    · exact hpark
  cases hs with
  | main hi => exact absurd hi hrun
  | @act i u w r g hi h0 hf hd hstep hframe hg =>
    have hlist : ∀ r, a'.g.list r = a.g.list r := list_congr (by rw [hg, hd.kept.1])
    -- a thread that goes on alone, without a change of the buffer
    have hstay : r = .stay → u ≠ .recv → a'.g.changes = a.g.changes →
        sleeping role (.user u) = sleeping role (.user w) →
        asking role (.user u) = asking role (.user w) → InTurn a a' role := by
      rintro rfl hu hsame hsleeping hasking
      obtain ⟨hbefore, hafter⟩ := pending_stay hi hstep.stay_eq hf hframe (hlist role)
      refine .same (takes_of_ne hi hf hu) (by rw [hsame]) ?_
      rw [hbefore, hafter, hsleeping, hasking]
    cases hd with
    | recv =>
      exact inTurn_recv hi hf hstep.stay_eq hframe (hlist role) (by rw [hg]; rfl)
    | init => exact hstay rfl (by simp) (by rw [hg]; rfl) rfl rfl
    | immd => exact hstay rfl (by simp) (by rw [hg]) rfl rfl
    | register =>
      refine hstay rfl (by simp) ?_ rfl rfl
      rw [hg]
      exact Shared.registerClient_keeps Shared.changes _ _ _ (fun _ _ _ => rfl) rfl
    | reply => exact hstay rfl (by simp) (by rw [hg]; rfl) rfl rfl
    | change hE hb hp =>
      refine hstaff.queues.inTurn_change hassigned hi hf hE hb hstaff.safe.range hp hstep hframe
        hlist ?_
      rw [hg, ← hE.owes.2.2]
      rfl
    | @sleep _ role₁ c sl p g₁ hE hb hp =>
      have hready := hstaff.ready_of_sleep hn hlimit hi h0 hf hE hb
      rcases hE.cases with rfl | rfl
      · refine .same (takes_of_ne hi hf (by simp)) (by rw [hg, hE.owes.2.2]) ?_
        exact hstaff.queues.pending_sleep hassigned hi hpark hf hp hready hstep hframe hlist role
      · -- a handler that has been woken finds a place
        have hplaces := hset.woken role₁ ⟨i, c, sl, h0, hi, hf⟩
        rw [Buffer.places_of_blocked hb] at hplaces
        exact absurd hplaces (lt_irrefl 0)
  | exit hi h0 hf hstep hframe hg =>
    exact hstaff.queues.inTurn_exit hi hpark hf hstep hframe (list_congr (by rw [hg]; rfl) role)
      (by rw [hg]; rfl)
  | ask hc hsched hframe hg => exact inTurn_same hsched hframe (by rw [hg]; rfl) (by rw [hg]; rfl)

/-! ## Runs -/

/-- Thread 0 has no request. It does not come to the loop of the server. -/
theorem SetUp.no_request (h : SetUp a) :
    sleeping role (a.frame 0) = [] ∧ asking role (a.frame 0) = [] := by
  obtain ⟨u, hu, hat⟩ := h.main
  rw [hu]
  cases u <;> first | exact hat.elim | exact ⟨rfl, rfl⟩

/-- While thread 0 sets up, there are no requests, because a handler sleeps only after thread 0 has
been parked. -/
theorem pending_main (hset : SetUp a) (hq : Queues a) (hi : a.sched.running = some 0) :
    pending a role = [] := by
  have hqueued : queued a role = [] := by
    rw [queued, sleepers]
    split
    · rfl
    · rw [hq.start hi]
      rfl
  rw [← hqueued]
  refine pending_eq_queued fun j hj => ?_
  obtain rfl := Option.some.inj (hi.symm.trans hj)
  exact hset.no_request

/-- A step of thread 0 changes nothing: the thread to which it hands over has no request either. -/
theorem inTurn_of_main (hset : SetUp a) (hset' : SetUp a') (hq : Queues a)
    (hi : a.sched.running = some 0) (hs : FreeStep S a a') : InTurn a a' role := by
  cases hs with
  | act hi' h0 => exact absurd (Option.some.inj (hi'.symm.trans hi)) h0
  | exit hi' h0 => exact absurd (Option.some.inj (hi'.symm.trans hi)) h0
  | ask hc hsched hframe hg => exact inTurn_same hsched hframe (by rw [hg]; rfl) (by rw [hg]; rfl)
  | main _ hg hwait hfrom _ hold =>
    obtain ⟨u, hu, hat⟩ := hset.main
    have hne : u ≠ .recv := by
      rintro rfl
      exact hat
    obtain ⟨q, hg⟩ := hg
    have hqueued : queued a' role = [] := by
      rw [queued, sleepers]
      split
      · rfl
      · rw [hwait, hq.start hi]
        rfl
    refine .same (takes_of_ne hi hu hne) (by rw [hg]) ?_
    rw [pending_main hset hq hi, ← hqueued]
    refine pending_eq_queued fun j hj => ?_
    rcases eq_or_ne j 0 with rfl | h0
    · exact hset'.no_request
    · have hp := (hfrom j hj).resolve_left h0
      rw [(hold j ⟨h0, by rw [hp]; simp⟩).2]
      exact hq.of_ready h0 hp

section Machine

variable {m m' : Mach (GreenPc n) (Shared n)}

/-- A handler that has slept goes on, as one that has received a request does. So it is not thread 0
at its end. -/
theorem next_slept (S : GreenServer n) (c : Fin n) (role : Role) (sl : ℕ) :
    ∃ e v g, S.next e v (.serve .slept role c sl) g ≠ none := by
  refine ⟨none, ⟨0, 0, fun _ => none⟩,
    { Shared.initialClientPool n 0 with prim := fun _ => some 0 }, ?_⟩
  cases hl : S.locked <;> cases role <;>
    simp [next, serve, enter, test, hl, Shared.initialClientPool, Shared.list, Buffer.blocked]

/-- When no thread runs, control is with thread 0 at its end, and it has no request. -/
theorem no_request_of_idle (h : Sim S.program False m a) (hr : a.sched.running = none) :
    sleeping role m.cpu = [] ∧ asking role m.cpu = [] := by
  obtain ⟨-, -, u, hu, hno⟩ := h.idle hr
  rw [hu]
  cases u with
  | got c r =>
    cases r with
    | op r =>
      obtain ⟨e, v, g, hgo⟩ := next_got S c r
      exact absurd (hno e v g) hgo
    | _ => exact ⟨rfl, rfl⟩
  | serve stage r c sl =>
    cases stage with
    | slept =>
      obtain ⟨e, v, g, hgo⟩ := next_slept S c r sl
      exact absurd (hno e v g) hgo
    | _ => exact ⟨rfl, rfl⟩
  | _ => exact ⟨rfl, rfl⟩

theorem asking_cpu (h : Sim S.program False m a) :
    asking role m.cpu = ofRunning (asking role) a := by
  rcases hr : a.sched.running with _ | i
  · rw [(no_request_of_idle h hr).2, ofRunning, hr]
  · rw [ofRunning_eq hr rfl, h.cpu i hr]

theorem sleeping_cpu (h : Sim S.program False m a) :
    sleeping role m.cpu = ofRunning (sleeping role) a := by
  rcases hr : a.sched.running with _ | i
  · rw [(no_request_of_idle h hr).1, ofRunning, hr]
  · rw [ofRunning_eq hr rfl, h.cpu i hr]

theorem changed_eq (h : Sim S.program False m a) (h' : Sim S.program False m' a') :
    changed role (m, l, m') = serves a a' role := by
  rw [changed, serves, asking_cpu h, sleeping_cpu h, h.g, h'.g]

theorem received_eq (h : Sim S.program False m a) (h' : Sim S.program False m' a') :
    received role (m, l, m') = takes a a' role := by
  rw [received, takes, asking_cpu h']
  rcases hr : a.sched.running with _ | i
  · have hmap : Option.map a.frame none ≠ some (.user .recv) := by simp
    rw [if_neg hmap]
    split
    · rename_i hcpu
      -- an idle thread is not at `seL4_Recv`
      refine List.eq_nil_iff_forall_not_mem.mpr fun c _ => ?_
      obtain ⟨i, hi, -⟩ := running_of_frame h hcpu (next_recv S c)
      cases hr.symm.trans hi
    · rfl
  · simp only [Option.map_some, Option.some.injEq, h.cpu i hr]

/-- **The order of a run** from the start: what has been received is what has been served, followed
by the queue of requests. -/
theorem order_of_path (half : ℕ) (hl : S.locked = false) (hthreads : S.threads = n)
    (hn : n = 2 * half) (hlimit : 1 ≤ S.limit) (hmay : S.may = Client.program k)
    {m₀ : Mach (GreenPc n) (Shared n)} (h₀ : S.program.runs.init m₀)
    {ls : List (Mach (GreenPc n) (Shared n) × Label (Option (Fin n)) (Fin n × Request) ×
      Mach (GreenPc n) (Shared n))} (hp : Path S.program.runs m₀ ls m) :
    ∃ a, Reach S.program.aruns a ∧ Sim S.program False m a ∧
      ((a.sched.running = some 0 ∨ ∀ i, 0 < i → i ≤ S.threads → a.created i = true) →
        ∀ role, ls.flatMap (received role) = ls.flatMap (changed role) ++ pending a role) := by
  induction hp with
  | nil =>
    obtain ⟨mem, t, link, g, hb, hg, rfl⟩ := h₀
    obtain ⟨a, ha, h⟩ : ∃ a : AMach (GreenPc n) (Shared n), a.Init S.program ∧
        Sim S.program False (Mach.boot S.program mem t link g) a := Sim.boot hb hg False.elim
    have hreach : Reach S.program.aruns a := .init ha
    refine ⟨a, hreach, h, fun _ role => ?_⟩
    rw [pending_main (.of_reach hreach) (.of_reach hl hlimit hreach) ha.running]
    rfl
  | @snoc m₁ m₂ l ls hp hstep ih =>
    obtain ⟨a, ha, h, hbefore⟩ := ih
    -- the new state, and what the step does to the queue of requests
    have hnext : ∃ a', Reach S.program.aruns a' ∧ Sim S.program False m₂ a' ∧
        ((a'.sched.running = some 0 ∨ ∀ i, 0 < i → i ≤ S.threads → a'.created i = true) →
          (a.sched.running = some 0 ∨ ∀ i, 0 < i → i ≤ S.threads → a.created i = true) ∧
          ∀ role, InTurn a a' role) := by
      have hset := SetUp.of_reach ha
      have hq := Queues.of_reach hl hlimit ha
      obtain ⟨a', h', rfl | hs⟩ := (handover S).sim_step ha h (resumesReady hset h) hstep
      · exact ⟨a', ha, h', fun hor => ⟨hor, fun role => inTurn_same rfl rfl rfl rfl⟩⟩
      · have ha' : Reach S.program.aruns a' := .step ha hs
        have hfree := freeStep hl ha hs
        refine ⟨a', ha', h', fun hor => ?_⟩
        by_cases hi : a.sched.running = some 0
        · exact ⟨.inl hi, fun role => inTurn_of_main hset (.of_reach ha') hq hi hfree⟩
        · have hcreated : ∀ i, 0 < i → i ≤ S.threads → a.created i = true := by
            intro i hpos hle
            have hrun : a'.sched.running ≠ some 0 := by
              cases hfree with
              | main hi' => exact absurd hi' hi
              | act hi' h0 _ _ hs' => exact running_ne_zero hset hi' h0 hs'
              | exit hi' h0 _ hs' => exact running_ne_zero hset hi' h0 hs'
              | ask _ hsched => exact hsched ▸ hi
            exact Settled.created_of_next hi ha.ok hs hfree (hor.resolve_left hrun i hpos hle)
          refine ⟨.inr hcreated, fun role => ?_⟩
          exact hfree.inTurn (.of_reach hl hthreads hlimit hmay ha hcreated)
            (.of_reach hl hthreads hn hlimit hmay ha hi hcreated) hn hlimit hi role
    obtain ⟨a', ha', h', hqueue⟩ := hnext
    refine ⟨a', ha', h', fun hor role => ?_⟩
    obtain ⟨hor', hqueue⟩ := hqueue hor
    rw [List.flatMap_append, List.flatMap_append, hbefore hor' role, List.flatMap_singleton,
      List.flatMap_singleton, received_eq h h', changed_eq h h', List.append_assoc, hqueue role,
      List.append_assoc]

end Machine

/-- The clients of the queue wait for their answers: the handler that has the request owes one. -/
theorem served_of_pending (hstaff : Staffed S k a) {c : Fin n} (hc : c ∈ pending a role) :
    (a.g.client c).phase = .served (.op role) := by
  have hlive : ∀ {i u}, a.sched.place i ≠ .nowhere → a.frame i = .user u → u.InLoop →
      Live a i := by
    intro i u hp hf hu
    refine ⟨?_, hp⟩
    rintro rfl
    obtain ⟨w, hw, hat⟩ := hstaff.setUp.main
    obtain rfl := Frame.user.inj (hw.symm.trans hf)
    cases w <;> first | exact hu.elim | exact hat.elim
  have hrunning : ∀ {φ : Frame (GreenPc n) → List (Fin n)}, c ∈ ofRunning φ a →
      ∃ i, a.sched.place i ≠ .nowhere ∧ c ∈ φ (a.frame i) := by
    intro φ hφ
    rw [ofRunning] at hφ
    split at hφ
    · cases hφ
    · rename_i i hi
      exact ⟨i, by rw [place_running hi]; simp, hφ⟩
  have hsleeping : ∀ {i}, a.sched.place i ≠ .nowhere → c ∈ sleeping role (a.frame i) →
      (a.g.client c).phase = .served (.op role) := by
    intro i hp hi
    obtain ⟨sl, hf⟩ := mem_sleeping.mp hi
    exact (hstaff.serving (hlive hp hf trivial) (.inr hf)).2
  rw [pending, List.mem_append, List.mem_append] at hc
  rcases hc with (hc | hc) | hc
  · obtain ⟨i, hp, hi⟩ := hrunning hc
    exact hsleeping hp hi
  · obtain ⟨j, hj, hjc⟩ := List.mem_flatMap.mp hc
    refine hsleeping (i := j) ?_ hjc
    rw [sleepers] at hj
    split at hj
    · cases hj
    · rw [place_waiting hj]
      simp
  · obtain ⟨i, hp, hi⟩ := hrunning hc
    have hf := mem_asking.mp hi
    have hor : a.frame i = .user (.got c (.op role)) ∨
      a.frame i = .user (.serve .slept role c 0) := .inl hf
    exact (hstaff.serving (hlive hp hf trivial) hor).2

end GreenServer

/-- **The green server serves each role in the order of arrival.** With an even number of clients
that run `client_program`, as many server threads, and room for at least one item, in every run of
the server in which all threads have been created: the requests of a role for which the buffer has
been changed are those that were received first, in the order in which they were received, and the
clients of the others still wait for their answers. -/
theorem served_in_order {n k : ℕ} {limit : ℤ} (hn : Even n) (hlimit : 1 ≤ limit)
    (m₀ m : Mach (GreenPc n) (Shared n)) (h₀ : (GreenServer.newer n k limit).program.runs.init m₀)
    (ls : List (Mach (GreenPc n) (Shared n) × Label (Option (Fin n)) (Fin n × Request) ×
      Mach (GreenPc n) (Shared n)))
    (hp : Path (GreenServer.newer n k limit).program.runs m₀ ls m)
    (hall : ∀ i, 0 < i → i ≤ n → m.created i = true) (role : Role) :
    ∃ rest, ls.flatMap (GreenServer.received role) = ls.flatMap (GreenServer.changed role) ++ rest ∧
      ∀ c ∈ rest, (m.g.client c).phase = .served (.op role) := by
  obtain ⟨half, hhalf⟩ := hn
  obtain ⟨a, ha, h, horder⟩ := GreenServer.order_of_path (k := k) half rfl rfl (by omega)
    hlimit rfl h₀ hp
  have hcreated : ∀ i, 0 < i → i ≤ n → a.created i = true := h.created ▸ hall
  refine ⟨GreenServer.pending a role, horder (.inr hcreated) role, fun c hc => ?_⟩
  rw [h.g]
  exact GreenServer.served_of_pending
    (.of_reach (S := GreenServer.newer n k limit) rfl rfl hlimit rfl ha hcreated) hc

/-- A consumer has been received and is about to sleep, and nothing has been served. -/
theorem served_in_order_consumer :
    ∃ m₀ m ls, (GreenServer.newer 2 1 1).program.runs.init m₀ ∧
      Path (GreenServer.newer 2 1 1).program.runs m₀ ls m ∧
      m.cpu = .user (.got 0 (.op .consumer)) ∧ m.g.buf.level = 0 ∧
      ∀ role, ∃ rest, ls.flatMap (GreenServer.received role) =
          ls.flatMap (GreenServer.changed role) ++ rest ∧
        ∀ c ∈ rest, (m.g.client c).phase = .served (.op role) := by
  obtain ⟨m, hm, hcpu, hlevel, h1, h2⟩ := Mach.exists_of_reaches
    (P := (GreenServer.newer 2 1 1).program) (fun _ _ => True) (fun _ _ _ _ h => h)
    (.init GreenServer.boot_init)
    (GreenServer.startup 2 ++ GreenServer.initCall 0 5 ++ GreenServer.initCall 1 6 ++
      GreenServer.asks 0 (.op .consumer))
    (fun m => m.cpu = .user (.got 0 (.op .consumer)) ∧ m.g.buf.level = 0 ∧
      m.created 1 = true ∧ m.created 2 = true) (by decide +kernel)
  obtain ⟨m₀, ls, h₀, hp⟩ := hm.exists_path
  refine ⟨m₀, m, ls, h₀, hp, hcpu, hlevel,
    served_in_order ⟨1, rfl⟩ le_rfl m₀ m h₀ ls hp fun i hpos hle => ?_⟩
  obtain rfl | rfl : i = 1 ∨ i = 2 := by omega
  · exact h1
  · exact h2

end GreenLib
