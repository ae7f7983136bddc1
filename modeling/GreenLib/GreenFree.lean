import GreenLib.GreenBuffer
import GreenLib.GreenDesk

/-!
# The green server without a lock

The newer `process_message` does not guard the buffer. A handler tests the buffer, and changes it or
goes to sleep, in one step (`Free`), and there are fewer places for a thread to be at (`FreeFrame`).
`FreeStep` says what a step of this server is.

The invariant (`Queues`) says who is in which queue. A thread in the ready queue has not started a
request or has only its answer to send. A thread in one of the two lists sleeps because of the
buffer: either the handlers of its role are still blocked, or one of them has just been woken and
will take the only place.
-/

namespace GreenLib

namespace GreenServer

open Sched

variable {n : ℕ} {S : GreenServer n} {a a' : AMach (GreenPc n) (Shared n)} {i : ℕ}

/-! ## Steps -/

/-- Where a thread of the server without a lock can be. There are no waiting loops of the library
among these places. -/
inductive FreeFrame : Frame (GreenPc n) → Prop where
  | recv : FreeFrame (.user .recv)
  | got {c : Fin n} {r : Request} : FreeFrame (.user (.got c r))
  | inited {c : Fin n} {id : ℕ} : FreeFrame (.user (.inited c id))
  | slept {role : Role} {c : Fin n} {sl : ℕ} : FreeFrame (.user (.serve .slept role c sl))
  | reply {role : Role} {c : Fin n} {sl : ℕ} : FreeFrame (.user (.serve .reply role c sl))

/-- **What a thread does** at `u`: where it goes on, the shared data, and what it asks of the
scheduler. -/
inductive Free (v : View) (g : Shared n) :
    GreenPc n → GreenPc n → Shared n → Req Addr → Prop where
  | recv {c : Fin n} {r : Request} (hc : (g.client c).phase = .asked r) :
    Free v g .recv (.got c r) (g.receive c r) .stay
  | init {c : Fin n} :
    Free v g (.got c .init) (.inited c g.clientNew) (g.initialClient c) .stay
  | immd {c : Fin n} : Free v g (.got c .immd) .recv g .stay
  | register {c : Fin n} {id : ℕ} :
    Free v g (.inited c id) .recv ((g.saveCaller v.slot).registerClient id v.slot) .stay
  | change {u : GreenPc n} {role : Role} {c : Fin n} {sl p : ℕ} {g₁ : Shared n}
    (h : Enters v g u role c sl g₁) (hb : g.buf.blocked role = false)
    (hp : g.list role.other = some p) :
    Free v g u (.serve .reply role c sl) (g₁.change role c) (.wakeup p)
  | sleep {u : GreenPc n} {role : Role} {c : Fin n} {sl p : ℕ} {g₁ : Shared n}
    (h : Enters v g u role c sl g₁) (hb : g.buf.blocked role = true)
    (hp : g.list role = some p) : Free v g u (.serve .slept role c sl) g₁ (.sleep p)
  | reply {role : Role} {c : Fin n} {sl : ℕ} :
    Free v g (.serve .reply role c sl) .recv (g.send v.slot none) .stay

/-- **The steps** of the server without a lock. What thread 0 does is summed up in one case. -/
inductive FreeStep (S : GreenServer n) (a a' : AMach (GreenPc n) (Shared n)) : Prop where
  /-- Thread 0 sets up or hands over. The server threads are where they were, and a new one is at
  `seL4_Recv`. -/
  | main (hi : a.sched.running = some 0) (hg : ∃ q, a'.g = { a.g with prim := q })
    (hwait : a'.sched.waiting = a.sched.waiting)
    (hrun : ∀ j, a'.sched.running = some j → j = 0 ∨ a.sched.place j = .ready)
    (hready : ∀ k, a'.sched.place k = .ready → a.sched.place k = .ready ∨ ¬ Live a k)
    (hold : ∀ k, Live a k → Live a' k ∧ a'.frame k = a.frame k)
    (hnew : ∀ k, Live a' k → ¬ Live a k → a'.frame k = .user .recv)
  | act {i : ℕ} {u w : GreenPc n} {r : Req Addr} {g : Shared n} (hi : a.sched.running = some i)
    (h0 : i ≠ 0) (hf : a.frame i = .user u) (hd : Free (a.view i) a.g u w g r)
    (hs : Step a.sched i r a'.sched) (hframe : a'.frame = Function.update a.frame i (.user w))
    (hg : a'.g = g)
  | exit {i : ℕ} {c : Fin n} (hi : a.sched.running = some i) (h0 : i ≠ 0)
    (hf : a.frame i = .user (.got c .tmnt)) (hs : Step a.sched i .exit a'.sched)
    (hframe : a'.frame = a.frame) (hg : a'.g = a.g.terminate c)
  | ask {c : Fin n} {r : Request}
    (hc : (a.g.client c).phase = .fresh ∧ r = .init ∨
      (a.g.client c).phase = .idle ∧ r ≠ .init ∧ S.may (a.g.client c) r = true)
    (hs : a'.sched = a.sched) (hframe : a'.frame = a.frame)
    (hg : a'.g = a.g.setClient c ((a.g.client c).ask r))

/-- Without a lock a thread is at one of these places, whatever it does, -/
theorem Acts.freeFrame {fr : Frame (GreenPc n)} {r : Req Addr} (hl : S.locked = false)
    (h : Acts S a i a' fr r) (hf : FreeFrame (a.frame i)) : FreeFrame fr := by
  cases h with
  | call hu hd hc hx =>
    rw [hu] at hf
    cases hd with
    | recv => exact .got
    | init => exact absurd rfl hc
    | tmnt => exact absurd rfl hx
    | acquire hl' => cases hl.symm.trans hl'
    | change =>
      rw [hl]
      exact .reply
    | giveUp hl' => cases hl.symm.trans hl'
    | sleep => exact .slept
    | sleepReleased => cases hf
    | release => cases hf
    | immd | register | reply => exact .recv
  | alloc => exact .inited
  | turn hu =>
    rw [hu] at hf
    cases hf

/-- and does one of these things, each of them without giving control away in the middle. -/
theorem Acts.free {fr : Frame (GreenPc n)} {r : Req Addr} (hl : S.locked = false)
    (h : Acts S a i a' fr r) (hf : FreeFrame (a.frame i)) :
    ∃ u w, a.frame i = .user u ∧ fr = .user w ∧ Free (a.view i) a.g u w a'.g r := by
  have henters : ∀ {u role c sl g₁}, Tests S (a.view i) a.g u role c sl g₁ → a.frame i = .user u →
      Enters (a.view i) a.g u role c sl g₁ := by
    intro u role c sl g₁ hT hu
    cases hT with
    | here =>
      rw [hu] at hf
      cases hf
    | free _ hE => exact hE
  cases h with
  | @call u w _ _ hu hd hc hx hk =>
    refine ⟨u, w, hu, ?_⟩
    rw [hk.g]
    cases hd with
    | recv hphase => exact ⟨rfl, .recv hphase⟩
    | init => exact absurd rfl hc
    | tmnt => exact absurd rfl hx
    | immd => exact ⟨rfl, .immd⟩
    | register => exact ⟨rfl, .register⟩
    | acquire hl' => cases hl.symm.trans hl'
    | change hT hb ha hp =>
      rw [hl]
      exact ⟨rfl, .change (henters hT hu) hb hp⟩
    | giveUp hl' => cases hl.symm.trans hl'
    | sleep _ hT hb hp => exact ⟨rfl, .sleep (henters hT hu) hb hp⟩
    | sleepReleased | release =>
      rw [hu] at hf
      cases hf
    | reply => exact ⟨rfl, .reply⟩
  | alloc hu _ hg =>
    refine ⟨_, _, hu, rfl, ?_⟩
    rw [hg]
    exact .init
  | turn hu =>
    rw [hu] at hf
    cases hf

theorem Steps.freeFrame (hl : S.locked = false) (hs : Steps S a a')
    (hfree : ∀ k, Live a k → FreeFrame (a.frame k)) (k : ℕ) (hk : Live a' k) :
    FreeFrame (a'.frame k) :=
  hs.threads.frames .recv (fun _ _ _ hact => hact.freeFrame hl) hfree k hk

theorem freeFrame_of_reach (hl : S.locked = false) (ha : Reach S.program.aruns a) :
    ∀ k, Live a k → FreeFrame (a.frame k) := by
  induction ha with
  | init h₀ => exact fun k hk => absurd (h₀.place k hk.1) hk.2
  | step hr hs ih => exact ((SetUp.of_reach hr).shape.steps hs).freeFrame hl ih

/-- A step of thread 0 that creates nobody and keeps control. -/
theorem FreeStep.setUp {fr : Frame (GreenPc n)} (hi : a.sched.running = some 0)
    (hg : ∃ q, a'.g = { a.g with prim := q }) (hq : SameQueues a.sched a'.sched)
    (hframe : a'.frame = Function.update a.frame 0 fr) : FreeStep S a a' := by
  refine .main hi hg hq.waiting (fun j hj => .inl ?_) (fun k hk => .inl (hq.place ▸ hk))
    (fun k hk => ⟨⟨hk.1, by rw [hq.place]; exact hk.2⟩, ?_⟩)
    (fun k hk hnot => absurd ⟨hk.1, by rw [← hq.place]; exact hk.2⟩ hnot)
  · rw [hq.running, hi] at hj
    exact (Option.some.inj hj).symm
  · rw [hframe, Function.update_of_ne hk.1]

/-- **Inversion.** A step of the server is one of these, if it has no lock and its threads are at
the places above. -/
theorem Steps.freeStep (hl : S.locked = false) (hs : Steps S a a')
    (hfree : ∀ k, Live a k → FreeFrame (a.frame k)) : FreeStep S a a' := by
  cases hs with
  | @lock got x xs r hi hf hgot hq hframe hg =>
    have hd : Sets S a.g (.pool got (x :: xs)) .lockCreate (fun r => .pool (some (x, r)) xs)
      (a.g.assign got) := .lock hgot
    exact .setUp hi (hg ▸ hd.shared) hq hframe
  | @create u left id sl g hi hf hd hid h0 hrun hready hwait hplace hfree' hframe hg =>
    have hnew : ¬ Live a id := fun h => h.2 (hid ▸ place_newId)
    have hother : ∀ {k}, Live a k → k ≠ id := fun h he => hnew (he ▸ h)
    refine .main hi (hg ▸ hd.shared) hwait (fun j hj => .inl ?_) (fun k hk => ?_) (fun k hk => ?_)
      (fun k hk hnot => ?_)
    · rw [hrun, hi] at hj
      exact (Option.some.inj hj).symm
    · rcases eq_or_ne k id with rfl | hne
      · exact .inr hnew
      · rw [hplace, Function.update_of_ne hne] at hk
        exact .inl hk
    · have hne := hother hk
      refine ⟨⟨hk.1, ?_⟩, ?_⟩
      · rw [hplace, Function.update_of_ne hne]
        exact hk.2
      · rw [hframe, Function.update_of_ne hne, Function.update_of_ne hk.1]
    · rcases eq_or_ne k id with rfl | hne
      · rw [hframe, Function.update_self]
      · have hk' := hk.2
        rw [hplace, Function.update_of_ne hne] at hk'
        exact absurd ⟨hk.1, hk'⟩ hnot
  | notCreated hi hf hd hq hframe hg => exact .setUp hi (hg ▸ hd.shared) hq hframe
  | resume hi hf hstep hframe hk =>
    have hlive : ∀ {k}, Live a' k ↔ Live a k := fun {k} => live_iff_act hi hstep nofun k
    refine .main hi ⟨a.g.prim, hk.g⟩ ?_ (fun j hj => ?_) (fun k hk => ?_)
      (fun k hk => ⟨hlive.mpr hk, ?_⟩) (fun k hk hnot => absurd (hlive.mp hk) hnot)
    · funext p
      refine hstep.waiting_of_not_touches ?_
      rintro (h | h | h) <;> cases h
    · by_cases hj0 : j = 0
      · exact .inl hj0
      · rcases hstep.running_from hi hj hj0 with h | ⟨p, h | h | h, -⟩
        · exact .inr h
        all_goals cases h
    · by_cases hk0 : k = 0
      · exact .inr fun h => h.1 hk0
      · rcases hstep.moves hi hk0 with ⟨-, he⟩ | ⟨hrun, -⟩
        · exact .inl (he ▸ hk)
        · cases (place_running hrun).symm.trans hk
    · rw [hframe, Function.update_of_ne hk.1]
  | @act i fr r hi h0 hact hstep hframe =>
    obtain ⟨u, w, hf, rfl, hd⟩ := hact.free hl (hfree i (live_of_running hi h0))
    exact .act hi h0 hf hd hstep hframe rfl
  | exit hi h0 hf hstep hframe hk => exact .exit hi h0 hf hstep hframe hk.g
  | @env e g he hsched hframe hk =>
    obtain ⟨hc, rfl⟩ := call_eq he
    exact .ask hc hsched hframe hk.g

/-- One step of a run of the server without a lock. -/
theorem freeStep (hl : S.locked = false) (ha : Reach S.program.aruns a)
    {l : Label (Option (Fin n)) (Fin n × Request)} (hs : AStep S.program a l a') :
    FreeStep S a a' :=
  ((SetUp.of_reach ha).shape.steps hs).freeStep hl (freeFrame_of_reach hl ha)

/-! ## Queues -/

/-- The running thread is a handler of the role that has slept and has not repeated its test. -/
def Woken (a : AMach (GreenPc n) (Shared n)) (role : Role) : Prop :=
  ∃ i c sl, i ≠ 0 ∧ a.sched.running = some i ∧ a.frame i = .user (.serve .slept role c sl)

/-- **Who is in which queue.** If somebody sleeps in the list of a role, then the role is blocked,
or one of its handlers has just been woken to take the only place. -/
structure Queues (a : AMach (GreenPc n) (Shared n)) : Prop where
  start : a.sched.running = some 0 → ∀ p, a.sched.waiting p = []
  ready : ∀ k, k ≠ 0 → a.sched.place k = .ready →
    a.frame k = .user .recv ∨ ∃ role c sl, a.frame k = .user (.serve .reply role c sl)
  waiting : ∀ k p, a.sched.place k = .waiting p →
    ∃ role c sl, a.g.list role = some p ∧ a.frame k = .user (.serve .slept role c sl)
  asleep : ∀ role p, a.g.list role = some p → a.sched.waiting p ≠ [] →
    a.g.buf.places role = 0 ∨ Woken a role
  woken : ∀ role, Woken a role →
    a.g.buf.places role ≤ 1 ∧ ∀ p, a.g.list role.other = some p → a.sched.waiting p = []

/-- A handler enters its loop from one of two places: with a request it has just received, or after
its sleep. -/
theorem Enters.cases {v : View} {g g₁ : Shared n} {u : GreenPc n} {role : Role} {c : Fin n} {sl : ℕ}
    (h : Enters v g u role c sl g₁) : u = .got c (.op role) ∨ u = .serve .slept role c sl := by
  cases h with
  | first => exact .inl rfl
  | again => exact .inr rfl

/-- The lists and, unless a handler changes it, the buffer stay. -/
theorem Free.kept {v : View} {g g' : Shared n} {u w : GreenPc n} {r : Req Addr}
    (h : Free v g u w g' r) : g'.prim = g.prim ∧ (r = .stay → g'.buf = g.buf) := by
  cases h with
  | register =>
    exact ⟨Shared.registerClient_keeps Shared.prim _ _ _ (fun _ _ _ => rfl) rfl,
      fun _ => Shared.registerClient_keeps Shared.buf _ _ _ (fun _ _ _ => rfl) rfl⟩
  | change h => exact ⟨h.prim.1, nofun⟩
  | sleep h => exact ⟨h.prim.1, nofun⟩
  | reply => exact ⟨rfl, fun _ => rfl⟩
  | _ => exact ⟨rfl, fun _ => rfl⟩

theorem list_congr {g g' : Shared n} (h : g'.prim = g.prim) (role : Role) :
    g'.list role = g.list role := by
  cases role <;> simp only [Shared.list, h]

namespace Queues

/-- The queues of a state in which the same threads are in the same queues, with a buffer that still
fits them. -/
theorem same (h : Queues a) (hs : a'.sched = a.sched) (hframe : ∀ k, a.sched.running ≠ some k →
    a'.frame k = a.frame k) (hprim : a'.g.prim = a.g.prim)
    (hasleep : ∀ role p, a'.g.list role = some p → a'.sched.waiting p ≠ [] →
      a'.g.buf.places role = 0 ∨ Woken a' role)
    (hwoken : ∀ role, Woken a' role → a'.g.buf.places role ≤ 1 ∧
      ∀ p, a'.g.list role.other = some p → a'.sched.waiting p = []) : Queues a' := by
  refine ⟨hs ▸ h.start, fun k h0 hk => ?_, fun k p hk => ?_, hasleep, hwoken⟩
  · rw [hs] at hk
    rw [hframe k (running_ne (by rw [hk]; nofun))]
    exact h.ready k h0 hk
  · rw [hs] at hk
    obtain ⟨role, c, sl, hl, hf⟩ := h.waiting k p hk
    exact ⟨role, c, sl, (list_congr hprim role).trans hl,
      (hframe k (running_ne (by rw [hk]; nofun))).trans hf⟩

theorem main (h : Queues a) (hi : a.sched.running = some 0)
    (hwait : a'.sched.waiting = a.sched.waiting)
    (hrun : ∀ j, a'.sched.running = some j → j = 0 ∨ a.sched.place j = .ready)
    (hready : ∀ k, a'.sched.place k = .ready → a.sched.place k = .ready ∨ ¬ Live a k)
    (hold : ∀ k, Live a k → Live a' k ∧ a'.frame k = a.frame k)
    (hnew : ∀ k, Live a' k → ¬ Live a k → a'.frame k = .user .recv) : Queues a' := by
  have hnil : ∀ p, a'.sched.waiting p = [] := fun p => by rw [hwait, h.start hi]
  have hkept : ∀ k, k ≠ 0 → a.sched.place k = .ready → a'.frame k = a.frame k := fun k h0 hk =>
    (hold k ⟨h0, by rw [hk]; nofun⟩).2
  refine ⟨fun _ => hnil, fun k h0 hk => ?_, fun k p hk => ?_, fun role p _ hp => absurd (hnil p) hp,
    ?_⟩
  · rcases hready k hk with hp | hnot
    · rw [hkept k h0 hp]
      exact h.ready k h0 hp
    · exact .inl (hnew k ⟨h0, by rw [hk]; nofun⟩ hnot)
  · have hmem := a'.sched.waiting_iff.mpr hk
    rw [hnil] at hmem
    cases hmem
  · rintro role ⟨k, c, sl, h0, hk, hf⟩
    have hp := (hrun k hk).resolve_left h0
    rw [hkept k h0 hp] at hf
    rcases h.ready k h0 hp with he | ⟨_, _, _, he⟩ <;> cases hf.symm.trans he

/-- The queues after a switch of thread `i`: who is ready and who waits is said by its step, and the
rest is about the buffer. -/
theorem moved {r : Req Addr} (h : Queues a) (hset : SetUp a) (hi : a.sched.running = some i)
    (h0 : i ≠ 0) (hs : Step a.sched i r a'.sched) (hframe : ∀ k, k ≠ i → a'.frame k = a.frame k)
    (hprim : a'.g.prim = a.g.prim)
    (hready : a'.sched.place i = .ready → ∃ role c sl, a'.frame i = .user (.serve .reply role c sl))
    (hwaiting : ∀ p, a'.sched.place i = .waiting p →
      ∃ role c sl, a'.g.list role = some p ∧ a'.frame i = .user (.serve .slept role c sl))
    (hasleep : ∀ role p, a'.g.list role = some p → a'.sched.waiting p ≠ [] →
      a'.g.buf.places role = 0 ∨ Woken a' role)
    (hwoken : ∀ role, Woken a' role → a'.g.buf.places role ≤ 1 ∧
      ∀ p, a'.g.list role.other = some p → a'.sched.waiting p = []) : Queues a' := by
  refine ⟨fun hzero => ?_, fun k hk0 hk => ?_, fun k p hk => ?_, hasleep, hwoken⟩
  · -- thread 0 is parked
    exfalso
    rcases hset.shape.zero with ⟨-, hrun, -⟩ | ⟨hpark, -⟩
    · exact h0 (Option.some.inj (hi.symm.trans hrun))
    · rcases hs.running_from hi hzero h0.symm with hp | ⟨p, -, hp⟩ <;> cases hpark.symm.trans hp
  · rcases eq_or_ne k i with rfl | hne
    · exact .inr (hready hk)
    · rcases hs.moves hi hne with ⟨-, hp⟩ | ⟨hrun, -⟩
      · rw [hframe k hne]
        exact h.ready k hk0 (hp ▸ hk)
      · cases (place_running hrun).symm.trans hk
  · rcases eq_or_ne k i with rfl | hne
    · exact hwaiting p hk
    · rcases hs.moves hi hne with ⟨-, hp⟩ | ⟨hrun, -⟩
      · obtain ⟨role, c, sl, hl, hf⟩ := h.waiting k p (hp ▸ hk)
        exact ⟨role, c, sl, (list_congr hprim role).trans hl, (hframe k hne).trans hf⟩
      · cases (place_running hrun).symm.trans hk

/-- Who comes from the ready queue is at `seL4_Recv` or has only its answer to send, and is no woken
handler. -/
theorem not_woken {j : ℕ} {role : Role} (h : Queues a) (hj : a'.sched.running = some j)
    (hp : a.sched.place j = .ready) (hframe : a'.frame j = a.frame j) : ¬ Woken a' role := by
  rintro ⟨k, c, sl, h0, hk, hf⟩
  obtain rfl := Option.some.inj (hj.symm.trans hk)
  rw [hframe] at hf
  rcases h.ready j h0 hp with he | ⟨_, _, _, he⟩ <;> cases hf.symm.trans he

/-- Nobody has been woken while the running thread is elsewhere: `Woken` is about the running
thread. -/
theorem eq_of_woken {role : Role} {u : GreenPc n} (hi : a.sched.running = some i)
    (hf : a.frame i = .user u) (hw : Woken a role) : ∃ c sl, u = .serve .slept role c sl := by
  obtain ⟨k, c, sl, -, hk, hfk⟩ := hw
  obtain rfl := Option.some.inj (hi.symm.trans hk)
  exact ⟨c, sl, Frame.user.inj (hf.symm.trans hfk)⟩

/-- A step at which the thread goes on, and works neither on the buffer nor on the lists. -/
theorem stay {u w : GreenPc n} (h : Queues a) (hi : a.sched.running = some i)
    (hf : a.frame i = .user u) (hu : ∀ role c sl, u ≠ .serve .slept role c sl)
    (hw : ∀ role c sl, w ≠ .serve .slept role c sl) (hs : a'.sched = a.sched)
    (hframe : a'.frame = Function.update a.frame i (.user w)) (hprim : a'.g.prim = a.g.prim)
    (hbuf : a'.g.buf = a.g.buf) : Queues a' := by
  refine h.same hs (fun k hk => ?_) hprim (fun role p hp hne => .inl ?_) fun role hwoken => ?_
  · rw [hframe, Function.update_of_ne]
    rintro rfl
    exact hk hi
  · rw [list_congr hprim] at hp
    rw [hs] at hne
    rw [hbuf]
    refine (h.asleep role p hp hne).resolve_right fun hwoken => ?_
    obtain ⟨c, sl, rfl⟩ := eq_of_woken hi hf hwoken
    exact hu role c sl rfl
  · have hf' : a'.frame i = .user w := by rw [hframe, Function.update_self]
    obtain ⟨c, sl, rfl⟩ := eq_of_woken (hs ▸ hi) hf' hwoken
    exact absurd rfl (hw role c sl)

theorem exit {c : Fin n} (h : Queues a) (hset : SetUp a) (hi : a.sched.running = some i)
    (h0 : i ≠ 0) (hf : a.frame i = .user (.got c .tmnt)) (hs : Step a.sched i .exit a'.sched)
    (hframe : a'.frame = a.frame) (hg : a'.g = a.g.terminate c) : Queues a' := by
  have hnowhere := (hs.self hi).1.mpr rfl
  have hwait : ∀ p, a'.sched.waiting p = a.sched.waiting p := fun p => by
    refine hs.waiting_of_not_touches ?_
    rintro (he | he | he) <;> cases he
  refine h.moved hset hi h0 hs (fun k _ => by rw [hframe]) (by rw [hg]; rfl)
    (fun hp => ?_) (fun p hp => ?_) (fun role p hp hne => .inl ?_) fun role hwoken => ?_
  · cases hnowhere.symm.trans hp
  · cases hnowhere.symm.trans hp
  · rw [hg] at hp
    rw [hwait] at hne
    rw [hg]
    refine (h.asleep role p hp hne).resolve_right fun hwoken => ?_
    obtain ⟨_, _, hu⟩ := eq_of_woken hi hf hwoken
    cases hu
  · obtain ⟨k, d, sl, hk0, hk, hfk⟩ := hwoken
    have hki : k ≠ i := by
      rintro rfl
      cases (place_running hk).symm.trans hnowhere
    rcases hs.running_from hi hk hki with hp | ⟨p, he | he | he, -⟩
    · exact absurd ⟨k, d, sl, hk0, hk, hfk⟩ (h.not_woken hk hp (by rw [hframe]))
    all_goals cases he

section Handler

variable {u : GreenPc n} {role : Role} {c : Fin n} {sl p : ℕ} {v : View} {g₁ : Shared n}

/-- A handler finds the list of the other role empty, if the handlers of that role have places. -/
theorem other_nil (h : Queues a) (hi : a.sched.running = some i) (hf : a.frame i = .user u)
    (hE : Enters v a.g u role c sl g₁) (hplaces : a.g.buf.places role.other ≠ 0)
    (hp : a.g.list role.other = some p) : a.sched.waiting p = [] := by
  by_contra hne
  rcases h.asleep _ p hp hne with he | hw
  · exact hplaces he
  · obtain ⟨d, sl', rfl⟩ := eq_of_woken hi hf hw
    rcases hE.cases with he | he
    · cases he
    · exact role.other_ne (GreenPc.serve.inj he).2.1

/-- A handler whose test succeeds finds the list of its own role empty, or has been woken to take
the only place. -/
theorem own_nil (h : Queues a) (hrange : a.g.buf.InRange) (hb : a.g.buf.blocked role = false)
    (hp : a.g.list role = some p) (hne : a.sched.waiting p ≠ []) :
    Woken a role ∧ a.g.buf.places role = 1 := by
  have hpos := Buffer.places_of_allowed (hrange.allowed hb)
  rcases h.asleep role p hp hne with he | hw
  · omega
  · have hle := (h.woken role hw).1
    exact ⟨hw, by omega⟩

/-- A handler changes the buffer and wakes nobody. -/
theorem changeNone (h : Queues a) (hrange : a.g.buf.InRange) (hi : a.sched.running = some i)
    (hb : a.g.buf.blocked role = false)
    (hp : a.g.list role.other = some p) (hnil : a.sched.waiting p = []) (hs : a'.sched = a.sched)
    (hframe : a'.frame = Function.update a.frame i (.user (.serve .reply role c sl)))
    (hprim : a'.g.prim = a.g.prim) (hbuf : a'.g.buf = a.g.buf.change role) : Queues a' := by
  refine h.same hs (fun k hk => ?_) hprim (fun role' q hq hne => .inl ?_) fun role' hwoken => ?_
  · rw [hframe, Function.update_of_ne]
    rintro rfl
    exact hk hi
  · rw [list_congr hprim] at hq
    rw [hs] at hne
    rcases role.eq_or_eq_other role' with rfl | rfl
    · obtain ⟨-, hone⟩ := h.own_nil hrange hb hq hne
      rw [hbuf, Buffer.places_change_self, hone]
      rfl
    · rw [Option.some.inj (hq.symm.trans hp)] at hne
      exact absurd hnil hne
  · have hf' : a'.frame i = .user (.serve .reply role c sl) := by rw [hframe, Function.update_self]
    obtain ⟨d, sl', he⟩ := eq_of_woken (hs ▸ hi) hf' hwoken
    cases he

/-- A handler changes the buffer and wakes one of the other role, which will take the place. Nobody
can take it before, since the woken one runs at once. -/
theorem changeWakes {j : ℕ} {tl : List ℕ} (h : Queues a) (hset : SetUp a)
    (hrange : a.g.buf.InRange) (hi : a.sched.running = some i) (h0 : i ≠ 0)
    (hf : a.frame i = .user u) (hE : Enters v a.g u role c sl g₁)
    (hb : a.g.buf.blocked role = false) (hp : a.g.list role.other = some p)
    (hw : a.sched.waiting p = j :: tl) (hs : Step a.sched i (.wakeup p) a'.sched)
    (hframe : a'.frame = Function.update a.frame i (.user (.serve .reply role c sl)))
    (hprim : a'.g.prim = a.g.prim) (hbuf : a'.g.buf = a.g.buf.change role) : Queues a' := by
  have hassigned := (hset.assigned (by rw [hi]; simpa using h0)).2
  have hzero : a.g.buf.places role.other = 0 := by
    by_contra hne
    cases (h.other_nil hi hf hE hne hp).symm.trans hw
  have hown : ∀ q, a.g.list role = some q → a.sched.waiting q = [] := by
    intro q hq
    by_contra hne
    obtain ⟨hwoken, -⟩ := h.own_nil hrange hb hq hne
    cases ((h.woken role hwoken).2 p hp).symm.trans hw
  have hother : ∀ k, k ≠ i → a'.frame k = a.frame k := fun k hk => by
    rw [hframe, Function.update_of_ne hk]
  -- the woken thread
  have hplace : a.sched.place j = .waiting p := place_waiting (hw ▸ List.mem_cons_self)
  obtain ⟨role', d, sl', hl', hfj⟩ := h.waiting j p hplace
  obtain rfl := hassigned.list_inj hl' hp
  have hji : j ≠ i := by
    rintro rfl
    cases (place_running hi).symm.trans hplace
  have hj0 : j ≠ 0 := by
    rintro rfl
    rcases hset.shape.zero with ⟨-, hrun, -⟩ | ⟨hpark, -⟩
    · exact h0 (Option.some.inj (hi.symm.trans hrun))
    · cases hpark.symm.trans hplace
  have hbec := hs.wakeup_cons hw
  have hself : a'.sched.place i = .ready := by
    rw [hbec.place, Function.update_of_ne hji.symm, Function.update_self]
  have hf' : a'.frame j = .user (.serve .slept role.other d sl') := by rw [hother j hji, hfj]
  refine h.moved hset hi h0 hs hother hprim (fun _ => ?_) (fun q hq => ?_) (fun r q hq hne => ?_)
    fun r hwoken => ?_
  · exact ⟨role, c, sl, by rw [hframe, Function.update_self]⟩
  · cases hself.symm.trans hq
  · rw [list_congr hprim] at hq
    rcases role.eq_or_eq_other r with rfl | rfl
    · have hqp : q ≠ p := by
        rintro rfl
        exact r.ne_other (hassigned.list_inj hq hp)
      rw [hbec.waiting, Function.update_of_ne hqp, hown q hq] at hne
      exact absurd rfl hne
    · exact .inr ⟨j, d, sl', hj0, hbec.running, hf'⟩
  · obtain ⟨_, _, he⟩ := eq_of_woken hbec.running hf' hwoken
    obtain rfl := (GreenPc.serve.inj he).2.1
    refine ⟨?_, fun q hq => ?_⟩
    · rw [hbuf, Buffer.places_change_other, hzero]
      rfl
    · rw [list_congr hprim, Role.other_other] at hq
      have hqp : q ≠ p := by
        rintro rfl
        exact role.ne_other (hassigned.list_inj hq hp)
      rw [hbec.waiting, Function.update_of_ne hqp, hown q hq]

/-- A handler whose test fails goes to sleep, or comes back at once if nobody is ready. -/
theorem sleep (h : Queues a) (hset : SetUp a) (hlimit : 1 ≤ a.g.buf.limit)
    (hi : a.sched.running = some i) (h0 : i ≠ 0) (hf : a.frame i = .user u)
    (hE : Enters v a.g u role c sl g₁) (hb : a.g.buf.blocked role = true)
    (hp : a.g.list role = some p) (hs : Step a.sched i (.sleep p) a'.sched)
    (hframe : a'.frame = Function.update a.frame i (.user (.serve .slept role c sl)))
    (hprim : a'.g.prim = a.g.prim) (hbuf : a'.g.buf = a.g.buf) : Queues a' := by
  have hassigned := (hset.assigned (by rw [hi]; simpa using h0)).2
  have hzero := Buffer.places_of_blocked hb
  have hnil : ∀ q, a.g.list role.other = some q → a.sched.waiting q = [] := by
    intro q hq
    have hadd := a.g.buf.places_add role
    exact h.other_nil hi hf hE (by omega) hq
  have hother : ∀ k, k ≠ i → a'.frame k = a.frame k := fun k hk => by
    rw [hframe, Function.update_of_ne hk]
  have hf' : a'.frame i = .user (.serve .slept role c sl) := by rw [hframe, Function.update_self]
  rcases hr : a.sched.ready with _ | ⟨j, tl⟩
  · have hsame := hs.sleep_nil hr
    refine h.same hsame (fun k hk => hother k ?_) hprim (fun r q hq hne => .inl ?_)
      fun r hwoken => ?_
    · rintro rfl
      exact hk hi
    · rw [list_congr hprim] at hq
      rw [hsame] at hne
      rcases role.eq_or_eq_other r with rfl | rfl
      · rw [hbuf, hzero]
      · exact absurd (hnil q hq) hne
    · obtain ⟨_, _, he⟩ := eq_of_woken (hsame ▸ hi) hf' hwoken
      obtain rfl := (GreenPc.serve.inj he).2.1
      rw [hbuf, hzero, hsame]
      exact ⟨Int.one_pos.le, fun q hq => hnil q ((list_congr hprim _).symm.trans hq)⟩
  · have hbec := hs.sleep_cons hr
    have hplace : a.sched.place j = .ready := place_ready (hr ▸ List.mem_cons_self)
    have hji : j ≠ i := by
      rintro rfl
      cases (place_running hi).symm.trans hplace
    have hself : a'.sched.place i = .waiting p := by
      rw [hbec.place, Function.update_of_ne hji.symm, Function.update_self]
    refine h.moved hset hi h0 hs hother hprim (fun hq => ?_) (fun q hq => ?_)
      (fun r q hq hne => .inl ?_) fun r hwoken => ?_
    · cases hself.symm.trans hq
    · obtain rfl := Place.waiting.inj (hself.symm.trans hq)
      exact ⟨role, c, sl, (list_congr hprim role).trans hp, hf'⟩
    · rw [list_congr hprim] at hq
      rcases role.eq_or_eq_other r with rfl | rfl
      · rw [hbuf, hzero]
      · have hqp : q ≠ p := by
          rintro rfl
          exact role.other_ne (hassigned.list_inj hq hp)
        rw [hbec.waiting, Function.update_of_ne hqp, hnil q hq] at hne
        exact absurd rfl hne
    · exact absurd hwoken (h.not_woken hbec.running hplace (hother j hji))

end Handler

/-- **Every step keeps the queues in order**, for a buffer in range with at least one place. -/
theorem next (h : Queues a) (hset : SetUp a) (hrange : a.g.buf.InRange)
    (hlimit : 1 ≤ a.g.buf.limit) (hs : FreeStep S a a') : Queues a' := by
  cases hs with
  | main hi hg hwait hrun hready hold hnew => exact h.main hi hwait hrun hready hold hnew
  | @act i u w r g hi h0 hf hd hstep hframe hg =>
    obtain ⟨hprim, hbuf⟩ := hd.kept
    rw [← hg] at hprim hbuf
    have hstay : r = .stay → (∀ role c sl, u ≠ .serve .slept role c sl) →
        (∀ role c sl, w ≠ .serve .slept role c sl) → Queues a' := by
      rintro rfl hu hw
      exact h.stay hi hf hu hw hstep.stay_eq hframe hprim (hbuf rfl)
    cases hd with
    | recv | init | immd | register | reply => exact hstay rfl nofun nofun
    | @change _ role c sl p g₁ hE hb hp =>
      have hbuf' : a'.g.buf = a.g.buf.change role := by
        rw [hg]
        exact congrArg (Buffer.change · role) hE.prim.2
      rcases hw : a.sched.waiting p with _ | ⟨j, tl⟩
      · exact h.changeNone hrange hi hb hp hw (hstep.wakeup_nil hw) hframe hprim hbuf'
      · exact h.changeWakes hset hrange hi h0 hf hE hb hp hw hstep hframe hprim hbuf'
    | sleep hE hb hp =>
      exact h.sleep hset hlimit hi h0 hf hE hb hp hstep hframe hprim (by rw [hg, hE.prim.2])
  | exit hi h0 hf hstep hframe hg => exact h.exit hset hi h0 hf hstep hframe hg
  | @ask c r hc hsched hframe hg =>
    have hwoken : ∀ role, Woken a' role ↔ Woken a role := fun role => by
      rw [Woken, Woken, hsched, hframe]
    refine h.same hsched (fun k _ => by rw [hframe]) (by rw [hg]; rfl) (fun role p => ?_)
      fun role => ?_
    · rw [hwoken, hsched, hg]
      exact h.asleep role p
    · rw [hwoken, hsched, hg]
      exact h.woken role

theorem initial (h : a.Init S.program) : Queues a := by
  have hnil : ∀ k, k ≠ 0 → a.sched.place k = .nowhere := h.place
  refine ⟨fun _ p => ?_, fun k h0 hk => ?_, fun k p hk => ?_, fun role p hp => ?_, ?_⟩
  · rw [waiting_eq_nil]
    rw [h.prims]
    exact Finset.notMem_empty p
  · cases (hnil k h0).symm.trans hk
  · rcases eq_or_ne k 0 with rfl | h0
    · cases (place_running h.running).symm.trans hk
    · cases (hnil k h0).symm.trans hk
  · have hg : a.g = .initialClientPool n S.limit := h.g
    rw [hg] at hp
    cases role <;> cases hp
  · rintro role ⟨k, c, sl, h0, hk, -⟩
    exact absurd (Option.some.inj (hk.symm.trans h.running)) h0

theorem of_reach (hl : S.locked = false) (hlimit : 1 ≤ S.limit) (ha : Reach S.program.aruns a) :
    Queues a := by
  induction ha with
  | init h₀ => exact initial h₀
  | step hr hs ih =>
    have hsafe := safe_of_aruns (Int.one_pos.le.trans hlimit) hr
    exact ih.next (.of_reach hr) hsafe.range (hsafe.limit ▸ hlimit) (freeStep hl hr hs)

end Queues

end GreenServer

end GreenLib
