import GreenLib.TokenOrder

/-!
# The token as a lock

The token server in the build `THREAD_LOCK`. From the `WAIT` on, exactly one thread sleeps on the
lock while the others receive. `SEND_WAIT` is `thread_lock_release_acquire`: the sleeping thread
runs and answers its client, and the thread that received the request sleeps in its place. So the
token goes to the clients in the order in which they asked for it, and between two requests exactly
one client waits (`token_passes`).

The lock itself does not pass the token on: from the second `SEND_WAIT` on nobody holds it, since
`thread_lock_release_acquire` does not take it again. What counts is the queue of the lock.
-/

namespace GreenLib

namespace TokenServer

open Sched TokenJob

variable {n : ℕ} {T : TokenServer n} {a a' b : AMach (TokenPc n) (TokenShared n)} {i j : ℕ}
  {c d : Fin n} {p : Addr} {fr : Frame (TokenPc n)} {r : Req Addr} {pending : List (Fin n)}

/-! ## The calls -/

/-- `SEND_WAIT` in this build: one call gives the lock back, wakes a thread that waits, and waits in
its place. -/
theorem Acts.of_pass (hb : T.build = .lock) (hf : a.frame i = .user (.got c .sendWait))
    (hp : a.g.syncPrim = some p) (hact : Acts T a i b fr r) :
    r = .wakeupWait p ∧ fr = .relAcq p (.reply c) ∧ b.held p = 0 := by
  cases hact with
  | user hf' hd =>
    obtain rfl := Frame.user.inj (hf.symm.trans hf')
    cases hd
  | enter hf' he =>
    obtain rfl := Frame.user.inj (hf.symm.trans hf')
    cases he
  | pass _ hf' hp' _ hheld =>
    cases hf.symm.trans hf'
    obtain rfl := Option.some.inj (hp.symm.trans hp')
    exact ⟨rfl, rfl, hheld⟩
  | post hb' => cases hb.symm.trans hb'
  | alloc hf' | passed _ hf' => cases hf.symm.trans hf'
  | spin hf' | sleep hf' | take hf' => exact absurd (hf'.symm.trans hf) waitFrame_ne_user

/-- `thread_lock_release_acquire` returns when the thread has been woken, without a test. -/
theorem Acts.of_relAcq (hf : a.frame i = .relAcq p (.reply c)) (hact : Acts T a i b fr r) :
    r = .stay ∧ fr = .user (.reply c) := by
  cases hact with
  | passed _ hf' =>
    cases hf.symm.trans hf'
    exact ⟨rfl, rfl⟩
  | user hf' | alloc hf' | enter hf' | pass _ hf' | post _ hf' => cases hf.symm.trans hf'
  | spin hf' | sleep hf' | take hf' => exact absurd (hf'.symm.trans hf) waitFrame_ne_relAcq

/-! ## Modes -/

/-- Thread `j` sleeps on the lock with a request of client `c`, which was `WAIT` or `SEND_WAIT`. -/
def Sleeps (a : AMach (TokenPc n) (TokenShared n)) (p : Addr) (j : ℕ) (c : Fin n) : Prop :=
  a.frame j = .acquire true p (.reply c) ∨ a.frame j = .relAcq p (.reply c)

/-- **How the token is passed on**, and the clients that wait for it. -/
inductive LockMode (a : AMach (TokenPc n) (TokenShared n)) (p : Addr) : List (Fin n) → Prop where
  /-- one thread sleeps -/
  | resting {j : ℕ} {c : Fin n} (hw : a.sched.waiting p = [j]) (hj : Live a j)
    (hfj : Sleeps a p j c) (hidle : Idle a) (h0 : a.sched.running ≠ some 0) (hline : Line a [j]) :
    LockMode a p [c]
  /-- the running thread has received `SEND_WAIT` -/
  | giving {i j : ℕ} {c d : Fin n} (hw : a.sched.waiting p = [j]) (hj : Live a j)
    (hfj : Sleeps a p j c) (hi : a.sched.running = some i) (h0 : i ≠ 0)
    (hf : a.frame i = .user (.got d .sendWait)) (hne : c ≠ d) (hline : Line a [j]) :
    LockMode a p [c, d]
  /-- the thread that slept runs, the other one sleeps -/
  | taking {i j : ℕ} {c d : Fin n} (hw : a.sched.waiting p = [j]) (hj : Live a j)
    (hfj : a.frame j = .relAcq p (.reply d)) (hi : a.sched.running = some i) (h0 : i ≠ 0)
    (hf : a.frame i = .acquire true p (.reply c) ∧ a.held p = 0 ∨
      a.frame i = .relAcq p (.reply c) ∨ a.frame i = .user (.reply c))
    (hne : c ≠ d) (hline : Line a [j]) : LockMode a p [c, d]

/-- **The order of the token**: what has been received is what has been answered, followed by the
clients that wait. -/
def LockOrder (a : AMach (TokenPc n) (TokenShared n)) (p : Addr) : Prop :=
  ∃ pending, a.g.received = a.g.answered ++ pending ∧ LockMode a p pending

theorem Sleeps.owes (h : Sleeps a p j c) : owesAt a j = some c := by
  rcases h with h | h <;> rw [owesAt, h] <;> rfl

theorem Sleeps.of_ne (h : Sleeps a p j c) (hframe : a'.frame = Function.update a.frame i fr)
    (hji : j ≠ i) : Sleeps a' p j c := by
  rwa [Sleeps, hframe, Function.update_of_ne hji]

namespace LockMode

/-- A client makes a call, which changes nothing about who sleeps and who runs. -/
theorem congr (h : LockMode a p pending) (hs : a'.sched = a.sched) (hframe : a'.frame = a.frame)
    (hheld : a'.held = a.held) : LockMode a' p pending := by
  have hlive : ∀ {k}, Live a k → Live a' k := fun hk => by rwa [Live, hs]
  have hsleeps : ∀ {j c}, Sleeps a p j c → Sleeps a' p j c := fun h => by rwa [Sleeps, hframe]
  cases h with
  | resting hw hj hfj hidle h0 hline =>
    exact .resting (by rwa [hs]) (hlive hj) (hsleeps hfj) (hidle.congr hs hframe) (by rwa [hs])
      (hline.congr hs hframe)
  | giving hw hj hfj hi h0 hf hne hline =>
    exact .giving (by rwa [hs]) (hlive hj) (hsleeps hfj) (by rwa [hs]) h0 (by rwa [hframe]) hne
      (hline.congr hs hframe)
  | taking hw hj hfj hi h0 hf hne hline =>
    exact .taking (by rwa [hs]) (hlive hj) (by rwa [hframe]) (by rwa [hs]) h0
      (by rwa [hframe, hheld]) hne (hline.congr hs hframe)

/-- Thread 0 does not run, because it has handed over. -/
theorem running_ne_zero (h : LockMode a p pending) : a.sched.running ≠ some 0 := by
  cases h with
  | resting _ _ _ _ h0 => exact h0
  | giving _ _ _ hi h0 | taking _ _ _ hi h0 => exact running_ne_zero_of hi h0

/-- One thread sleeps, and the running one acts. It may receive a `SEND_WAIT`. -/
theorem resting_act (hK : Known T a) (hr : a.g.received = a.g.answered ++ [c])
    (hw : a.sched.waiting p = [j]) (hj : Live a j) (hfj : Sleeps a p j c) (hidle : Idle a)
    (hline : Line a [j]) (hi : a.sched.running = some i) (h0 : i ≠ 0) (hact : Acts T a i a' fr r)
    (hs : Step a.sched i r a'.sched) (hframe : a'.frame = Function.update a.frame i fr) :
    LockOrder a' p := by
  obtain ⟨rfl, -, -, hans, hcase⟩ := hact.of_idle hK.undisturbed hK.inv hi h0 (hidle i hi h0)
  have hji := ne_of_waiting hw hi
  have hw' : a'.sched.waiting p = [j] := by rw [hs.stay_eq, hw]
  have hi' : a'.sched.running = some i := by rw [hs.stay_eq, hi]
  have hself : a'.frame i = fr := by rw [hframe, Function.update_self]
  have hj' := hj.step hji hi hs
  have hfj' := hfj.of_ne hframe hji
  have hline' := hline.stay hi hs hframe
  rcases hcase with ⟨ho, hrec⟩ | ⟨d, req, rfl, hreq, hphase, hrec⟩
  · obtain ⟨hidle', hmain⟩ := Idle.stay hi h0 hs hframe ho
    exact ⟨[c], by rw [hrec, hans, hr], .resting hw' hj' hfj' hidle' hmain hline'⟩
  · rcases hK.inv.first hphase hreq with ⟨-, hnil⟩ | ⟨rfl, -⟩
    · have hnil : a.g.received = [] := hnil
      rw [hr] at hnil
      simp at hnil
    · have hne := ne_of_asked hK.inv hj hfj.owes hphase
      exact ⟨[c, d], by rw [hrec, hans, hr, List.append_assoc, List.singleton_append],
        .giving hw' hj' hfj' hi' h0 hself hne hline'⟩

/-- **`SEND_WAIT`.** The sleeping thread and the running one change places. -/
theorem giving_act (hb : T.build = .lock) (hK : Known T a) (hp : a.g.syncPrim = some p)
    (hr : a.g.received = a.g.answered ++ [c, d]) (hw : a.sched.waiting p = [j]) (hj : Live a j)
    (hfj : Sleeps a p j c) (hi : a.sched.running = some i) (h0 : i ≠ 0)
    (hf : a.frame i = .user (.got d .sendWait)) (hne : c ≠ d) (hline : Line a [j])
    (hact : Acts T a i a' fr r) (hs : Step a.sched i r a'.sched)
    (hframe : a'.frame = Function.update a.frame i fr) : LockOrder a' p := by
  have hbooks := hact.books hK.undisturbed hK.inv hi h0
  obtain ⟨rfl, rfl, hheld⟩ := hact.of_pass hb hf hp
  have hji := ne_of_waiting hw hi
  have hfj' := hfj.of_ne hframe hji
  have hself : a'.frame i = .relAcq p (.reply d) := by rw [hframe, Function.update_self]
  rw [owesAt, hf] at hbooks
  have hb' := hs.wakeupWait_cons hw
  have hw' : a'.sched.waiting p = [i] := by
    rw [hb'.waiting, Function.update_self, List.nil_append]
  have hline' : Line a' [i] := by
    refine hline.step hi hs (fun k hk => by rw [hframe, Function.update_of_ne hk]) ?_
      fun _ => .inr (by simp)
    intro k hk _
    rw [List.mem_singleton.mp hk]
    exact hb'.running
  have hi' := live_of_waiting hw' h0
  cases hbooks with
  | same hr' ha' =>
    refine ⟨[c, d], by rw [hr', ha', hr], .taking hw' hi' hself hb'.running hj.1 ?_ hne hline'⟩
    exact hfj'.elim (fun h => .inl ⟨h, hheld⟩) fun h => .inr (.inl h)

/-- The thread that slept returns from its call and answers. In `thread_lock_acquire` it finds the
lock free. -/
theorem taking_act (hb : T.build = .lock) (hK : Known T a)
    (hr : a.g.received = a.g.answered ++ [c, d]) (hw : a.sched.waiting p = [j]) (hj : Live a j)
    (hfj : a.frame j = .relAcq p (.reply d)) (hi : a.sched.running = some i) (h0 : i ≠ 0)
    (hf : a.frame i = .acquire true p (.reply c) ∧ a.held p = 0 ∨
      a.frame i = .relAcq p (.reply c) ∨ a.frame i = .user (.reply c))
    (hne : c ≠ d) (hline : Line a [j]) (hact : Acts T a i a' fr r)
    (hs : Step a.sched i r a'.sched) (hframe : a'.frame = Function.update a.frame i fr) :
    LockOrder a' p := by
  have hbooks := hact.books hK.undisturbed hK.inv hi h0
  have hji := ne_of_waiting hw hi
  have hself : a'.frame i = fr := by rw [hframe, Function.update_self]
  have hfj' : a'.frame j = .relAcq p (.reply d) := by rw [hframe, Function.update_of_ne hji, hfj]
  have howes : owesAt a i = some c := by
    rcases hf with ⟨hf, -⟩ | hf | hf <;> rw [owesAt, hf] <;> rfl
  rw [howes] at hbooks
  -- the call has returned
  have hreturns : r = .stay → fr = .user (.reply c) → LockOrder a' p := by
    rintro rfl rfl
    cases hbooks with
    | same hr' ha' =>
      exact ⟨[c, d], by rw [hr', ha', hr], .taking (by rw [hs.stay_eq, hw]) (hj.step hji hi hs) hfj'
        (by rw [hs.stay_eq, hi]) h0 (.inr (.inr hself)) hne (hline.stay hi hs hframe)⟩
  rcases hf with ⟨hf, hheld⟩ | hf | hf
  · have hwait : a.frame i = T.waitFrame true p c := by rw [waitFrame, hb, hf]
    have hfree : T.Free a p := by rwa [Free, hb]
    rcases hact.of_waiting hwait with ⟨hbusy, -⟩ | ⟨-, hr', hfr, -⟩
    · exact absurd hfree hbusy.not_free
    · exact hreturns hr' hfr
  · obtain ⟨hr', hfr⟩ := hact.of_relAcq hf
    exact hreturns hr' hfr
  · obtain ⟨rfl, rfl, -⟩ := hact.of_reply hf
    obtain ⟨hidle, hmain⟩ := Idle.stay hi h0 hs hframe rfl
    cases hbooks with
    | answered hr' ha' =>
      refine ⟨[d], ?_, .resting (by rw [hs.stay_eq, hw]) (hj.step hji hi hs) (.inr hfj') hidle hmain
        (hline.stay hi hs hframe)⟩
      rw [hr', ha', hr, List.append_assoc, List.singleton_append]

/-- **Every step keeps the order of the token**, from the first thread that sleeps on. -/
theorem next (hb : T.build = .lock) (hK : Known T a) (hp : a.g.syncPrim = some p)
    (hr : a.g.received = a.g.answered ++ pending) (h : LockMode a p pending) (hs : Steps T a a') :
    LockOrder a' p := by
  have hmain := h.running_ne_zero
  cases hs with
  | pool hi | made hi | held hi | create hi | notCreated hi | resume hi => exact absurd hi hmain
  | act hi' h0' hact hs hframe =>
    cases h with
    | resting hw hj hfj hidle h0 hline =>
      exact resting_act hK hr hw hj hfj hidle hline hi' h0' hact hs hframe
    | giving hw hj hfj hi h0 hf hne hline =>
      obtain rfl := Option.some.inj (hi.symm.trans hi')
      exact giving_act hb hK hp hr hw hj hfj hi h0 hf hne hline hact hs hframe
    | taking hw hj hfj hi h0 hf hne hline =>
      obtain rfl := Option.some.inj (hi.symm.trans hi')
      exact taking_act hb hK hr hw hj hfj hi h0 hf hne hline hact hs hframe
  | exit hi' _ hf' hs hframe hk =>
    have hg : a'.g.received = a'.g.answered ++ pending := by
      rw [hk.g]
      exact hr
    refine ⟨pending, hg, ?_⟩
    cases h with
    | resting hw hj hfj hidle h0 hline =>
      obtain ⟨hidle', h0', hline'⟩ :=
        Idle.exit hline hK.setUp hi' hs hframe (not_woken_of_exit hw hs)
      refine .resting ?_ (hj.step (ne_of_waiting hw hi') hi' hs) (by rwa [Sleeps, hframe]) hidle'
        h0' hline'
      rw [hs.waiting_of_not_touches (by simp [Req.Touches]), hw]
    | giving hw hj hfj hi h0 hf =>
      obtain rfl := Option.some.inj (hi.symm.trans hi')
      cases hf.symm.trans hf'
    | taking hw hj hfj hi h0 hf =>
      obtain rfl := Option.some.inj (hi.symm.trans hi')
      rcases hf with ⟨hf, -⟩ | hf | hf <;> cases hf.symm.trans hf'
  | env he hs hframe hk =>
    refine ⟨pending, ?_, h.congr hs hframe hk.held⟩
    rw [hk.g, (call_eq he).2]
    exact hr

/-- The clients that wait are those whose requests have not been answered, and there is one of them
when the server receives. -/
theorem owed (hinv : Inv (desk a)) (h : LockMode a p pending) :
    pending.Nodup ∧ pending.length ≤ 2 ∧
      (∀ c, (a.g.client c).waits = true ↔ c ∈ pending) ∧
      (∀ i, a.sched.running = some i → a.frame i = .user .recv → pending.length = 1) := by
  cases h with
  | resting hw hj hfj hidle h0 hline =>
    exact ⟨by simp, by simp, hline.waits_one hinv hj hfj.owes hidle, fun _ _ _ => rfl⟩
  | giving hw hj hfj hi h0 hf hne hline =>
    refine ⟨by simpa using hne, by simp, ?_, fun k hk hrecv => ?_⟩
    · exact hline.waits_two hinv hj hfj.owes hi h0 (by rw [owesAt, hf]; rfl)
    · obtain rfl := Option.some.inj (hi.symm.trans hk)
      cases hf.symm.trans hrecv
  | @taking i j c d hw hj hfj hi h0 hf hne hline =>
    have ho : owesAt a i = some c := by
      rcases hf with ⟨hf, -⟩ | hf | hf <;> rw [owesAt, hf] <;> rfl
    refine ⟨by simpa using hne, by simp, fun e => ?_, fun k hk hrecv => ?_⟩
    · rw [hline.waits_two hinv hj (by rw [owesAt, hfj]; rfl) hi h0 ho]
      simp only [List.mem_cons, List.not_mem_nil, or_false]
      exact or_comm
    · obtain rfl := Option.some.inj (hi.symm.trans hk)
      rw [owesAt, hrecv] at ho
      cases ho

end LockMode

/-- **The token is passed on.** In every run of the token server with a lock, the requests for the
token are answered in the order in which they were received, the clients that wait for the token are
those whose requests have not been answered, there are at most two of them, and when the server
receives after the first request there is exactly one. -/
theorem token_passes (hb : T.build = .lock) {m : Mach (TokenPc n) (TokenShared n)}
    (hm : Reach T.runs m) :
    ∃ pending : List (Fin n), m.g.received = m.g.answered ++ pending ∧ pending.Nodup ∧
      pending.length ≤ 2 ∧ (∀ c, (m.g.client c).waits = true ↔ c ∈ pending) ∧
      (m.cpu = .user .recv → m.g.received ≠ [] → pending.length = 1) := by
  obtain ⟨a, ht, hinv, hprog⟩ := Tracks.order (R := LockOrder)
    (fun a p j c h => ⟨[c], by rw [h.received, h.answered, List.nil_append], by
      have hf : a.frame j = .acquire true p (.reply c) := by rw [h.frame, waitFrame, hb]
      exact .resting h.waiting h.live (.inl hf) h.idle h.nonzero h.line⟩)
    (fun a a' p hK hp ⟨pending, hr, h⟩ hs => h.next hb hK hp hr hs) hm
  rw [ht.sim.g]
  cases hprog with
  | unmade hp hr ha =>
    refine ⟨[], by simp [hr, ha], List.nodup_nil, by simp, fun c => ?_, fun _ hne => absurd hr hne⟩
    simp [Known.not_waits ht.setUp hinv hp]
  | opening hp h =>
    obtain ⟨ha, hwaits, hcase⟩ := h.pending hinv
    refine ⟨a.g.received, by rw [ha, List.nil_append], ?_, ?_, hwaits, fun hcpu hne => ?_⟩
    · rcases hcase with hr | ⟨c, i, hr, -⟩ <;> simp [hr]
    · rcases hcase with hr | ⟨c, i, hr, -⟩ <;> simp [hr]
    · rcases hcase with hr | ⟨c, i, hr, -⟩
      · exact absurd hr hne
      · rw [hr]
        rfl
  | passing hp h =>
    obtain ⟨pending, hr, hmode⟩ := h
    obtain ⟨hnodup, hlen, hwaits, hrecv⟩ := hmode.owed hinv
    refine ⟨pending, hr, hnodup, hlen, hwaits, fun hcpu hne => ?_⟩
    obtain ⟨c, rest, -⟩ := List.exists_cons_of_ne_nil hne
    obtain ⟨i, hi, -, hf⟩ := ht.at_recv hcpu c
    exact hrecv i hi hf

/-- Client 0 has got the token, and client 1 waits for it. -/
theorem token_passes_once :
    ∃ m, Reach (TokenServer.runs (n := 2) ⟨.lock, 2⟩) m ∧ m.cpu = .user .recv ∧
      m.g.received = [0, 1] ∧ m.g.answered = [0] ∧
      ∃ pending : List (Fin 2), m.g.received = m.g.answered ++ pending ∧ pending.Nodup ∧
        pending.length ≤ 2 ∧ (∀ c, (m.g.client c).waits = true ↔ c ∈ pending) ∧
        (m.cpu = .user .recv → m.g.received ≠ [] → pending.length = 1) := by
  obtain ⟨m, hm, hcpu, hr, ha⟩ := Reach.exists_of_exec (TokenServer.step (n := 2) ⟨.lock, 2⟩)
    (fun _ _ _ h => h) (.init (boot_init _)) twoClients
    (fun m => m.cpu = .user .recv ∧ m.g.received = [0, 1] ∧ m.g.answered = [0]) (by decide +kernel)
  exact ⟨m, hm, hcpu, hr, ha, token_passes rfl hm⟩

end TokenServer

end GreenLib
