import GreenLib.TokenReplies

/-!
# The beginning of the token server

Who waits for the token, on the abstract machine. All server threads are at `seL4_Recv` but the
running one and a few others, which are named (`Line`); so the clients that wait are those of these
few threads (`waits_iff`).

How the server begins is the same in both builds (`Opening`): until `WAIT` is received nobody waits,
and the thread that handles `WAIT` is the first one to sleep on `sync_prim`, since the token is
taken from the start. What happens from then on depends on the build. `Tracks.order` is the rule for
it: an invariant of what follows has to hold when that first thread has gone to sleep, and to be
kept.
-/

namespace GreenLib

namespace TokenShared

variable {n : ℕ}

@[simp] theorem send_terminateNum (g : TokenShared n) (sl : ℕ) (m : Option (ℕ × ℕ)) :
    (g.send sl m).terminateNum = g.terminateNum :=
  ClientPool.send_terminateNum

@[simp] theorem multicast_terminateNum (g : TokenShared n) :
    g.processMessageMulticast.terminateNum = g.terminateNum := by
  refine multicast_induction (P := fun g' : TokenShared n => g'.terminateNum = g.terminateNum) rfl
    fun g i h => ?_
  rw [send_terminateNum, h]

@[simp] theorem registerClient_terminateNum (g : TokenShared n) (id sl : ℕ) :
    (g.registerClient id sl).terminateNum = g.terminateNum := by
  rw [registerClient]
  split
  · exact send_terminateNum ..
  · rfl

end TokenShared

namespace TokenServer

open Sched TokenJob

variable {n : ℕ} {T : TokenServer n} {a a' b : AMach (TokenPc n) (TokenShared n)} {i j k : ℕ}
  {c : Fin n} {p : Addr} {ks : List ℕ} {fr : Frame (TokenPc n)} {r : Req Addr}

/-! ## Who waits -/

/-- The client that a thread owes the token to, by where the thread is. -/
def owesAt (a : AMach (TokenPc n) (TokenShared n)) (i : ℕ) : Option (Fin n) :=
  (ofFrame (a.frame i)).owes

/-- All server threads but the running one and those in `ks` are at `seL4_Recv`, and so owe nobody
anything. -/
def Line (a : AMach (TokenPc n) (TokenShared n)) (ks : List ℕ) : Prop :=
  ∀ k, Live a k → a.sched.running ≠ some k → k ∉ ks → a.frame k = .user .recv

/-- The running thread owes nobody the token. Thread 0 never does. -/
def Idle (a : AMach (TokenPc n) (TokenShared n)) : Prop :=
  ∀ i, a.sched.running = some i → i ≠ 0 → owesAt a i = none

/-- A client waits for the token while a thread has its request. -/
theorem waits_iff_owes (h : Inv (desk a)) :
    (a.g.client c).waits = true ↔ ∃ k, Live a k ∧ owesAt a k = some c := by
  refine ⟨fun hw => ?_, fun ⟨k, hk, ho⟩ => ?_⟩
  · obtain ⟨k, hk⟩ := h.caps.waiting c hw
    have hlive : Live a k := h.caps.live_of_job fun hfree => by
      rw [hfree] at hk
      rcases hk with hk | ⟨_, hk⟩ <;> cases hk
    refine ⟨k, hlive, ?_⟩
    have hcaller := h.caps.caller k c
    rw [desk_job hlive] at hk hcaller
    rcases hk with hk | ⟨r, hk⟩
    · rw [owesAt, hk]
      rfl
    · have hr : r.asksToken = true :=
        (TokenClient.waits_of_served (hcaller r hk).2.1).symm.trans hw
      rw [owesAt]
      rcases hj : ofFrame (a.frame k) with _ | ⟨d, r'⟩ | ⟨d, id⟩ | d <;> rw [hj] at hk <;> cases hk
      · simp [owes, hr]
      · cases hr
  · have hj := desk_job hk
    have hcaller := h.caps.caller k c
    have hholder := h.caps.holder k c
    rw [hj] at hcaller hholder
    rw [owesAt] at ho
    rcases hf : ofFrame (a.frame k) with _ | ⟨d, r⟩ | ⟨d, id⟩ | d <;>
      rw [hf] at ho hcaller hholder
    · cases ho
    · simp only [owes, Option.ite_none_right_eq_some, Option.some.injEq] at ho
      obtain ⟨hr, rfl⟩ := ho
      exact (TokenClient.waits_of_served (hcaller r rfl).2.1).trans hr
    · cases ho
    · cases ho
      exact (hholder rfl).2

/-- **Who waits**: the client of the running thread, and those of the threads that are named. -/
theorem Line.waits_iff (hline : Line a ks) (h : Inv (desk a)) (hks : ∀ k ∈ ks, Live a k) :
    (a.g.client c).waits = true ↔ (∃ i, a.sched.running = some i ∧ i ≠ 0 ∧ owesAt a i = some c) ∨
      ∃ k ∈ ks, owesAt a k = some c := by
  rw [waits_iff_owes h]
  constructor
  · rintro ⟨k, hk, ho⟩
    by_cases hrun : a.sched.running = some k
    · exact .inl ⟨k, hrun, hk.1, ho⟩
    · by_cases hmem : k ∈ ks
      · exact .inr ⟨k, hmem, ho⟩
      · rw [owesAt, hline k hk hrun hmem] at ho
        cases ho
  · rintro (⟨i, hi, h0, ho⟩ | ⟨k, hk, ho⟩)
    · exact ⟨i, live_of_running hi h0, ho⟩
    · exact ⟨k, hks k hk, ho⟩

/-! ## Steps -/

theorem running_ne_zero_of (hi : a.sched.running = some i) (h0 : i ≠ 0) :
    a.sched.running ≠ some 0 := by
  rw [hi]
  exact fun he => h0 (Option.some.inj he)

/-- The one thread that sleeps on the primitive exists, -/
theorem live_of_waiting (hw : a.sched.waiting p = [j]) (h0 : j ≠ 0) : Live a j :=
  ⟨h0, by simp [place_waiting (hw ▸ List.mem_cons_self : j ∈ a.sched.waiting p)]⟩

/-- does not run, -/
theorem ne_of_waiting (hw : a.sched.waiting p = [j]) (hi : a.sched.running = some i) : j ≠ i :=
  ne_running_of_place hi (place_waiting (hw ▸ List.mem_cons_self : j ∈ a.sched.waiting p)) (by simp)

/-- and is not woken by an exit. -/
theorem not_woken_of_exit (hw : a.sched.waiting p = [j]) (hs : Step a.sched i .exit a'.sched) :
    ∀ k ∈ [j], a'.sched.running ≠ some k := by
  intro k hk hrun
  rw [List.mem_singleton.mp hk] at hrun
  have hpl := place_waiting (hw ▸ List.mem_cons_self : j ∈ a.sched.waiting p)
  rcases hs.woken hpl hrun with he | he <;> cases he

/-- The line after a step: the threads that leave it run, and those that join it were running. -/
theorem Line.step {ks' : List ℕ} (h : Line a ks) (hi : a.sched.running = some i)
    (hs : Step a.sched i r a'.sched) (hframe : ∀ k, k ≠ i → a'.frame k = a.frame k)
    (hks : ∀ k ∈ ks, k ∉ ks' → a'.sched.running = some k)
    (hself : Live a' i → a'.sched.running = some i ∨ i ∈ ks') : Line a' ks' := by
  intro k hk hrun hmem
  have hki : k ≠ i := by
    rintro rfl
    exact (hself hk).elim hrun hmem
  have hold : Live a k := ⟨hk.1, hs.placed hi hk.2⟩
  have hne : a.sched.running ≠ some k := by
    rw [hi]
    exact fun he => hki (Option.some.inj he).symm
  rw [hframe k hki]
  exact h k hold hne fun hin => hrun (hks k hin hmem)

/-- The running thread goes on, and the others are where they were. -/
theorem Line.stay (h : Line a ks) (hi : a.sched.running = some i)
    (hs : Step a.sched i .stay a'.sched) (hframe : a'.frame = Function.update a.frame i fr) :
    Line a' ks := by
  refine h.step hi hs (fun k hk => by rw [hframe, Function.update_of_ne hk])
    (fun k hk hk' => absurd hk hk') fun _ => .inl ?_
  rwa [hs.stay_eq]

/-- The line depends on the scheduler and on where the threads are, not on the shared data. -/
theorem Line.congr (h : Line a ks) (hs : a'.sched = a.sched) (hframe : a'.frame = a.frame) :
    Line a' ks := by
  have hlive : Live a' = Live a := funext fun k => by rw [Live, Live, hs]
  rwa [Line, hlive, hs, hframe]

theorem Idle.congr (h : Idle a) (hs : a'.sched = a.sched) (hframe : a'.frame = a.frame) :
    Idle a' := by
  have howes : owesAt a' = owesAt a := funext fun k => by rw [owesAt, owesAt, hframe]
  rwa [Idle, hs, howes]

/-- A ready thread is at `seL4_Recv`, unless it is named. -/
theorem Line.of_ready (h : Line a ks) (hi : a.sched.running = some i)
    (hz : a.sched.place 0 ≠ .ready) (hj : j ∈ a.sched.ready) (hks : j ∉ ks) :
    j ≠ i ∧ j ≠ 0 ∧ a.frame j = .user .recv := by
  have hpl := place_ready hj
  have hji : j ≠ i := ne_running_of_place hi hpl (by simp)
  have h0 : j ≠ 0 := by
    rintro rfl
    exact hz hpl
  refine ⟨hji, h0, h j ⟨h0, by simp [hpl]⟩ ?_ hks⟩
  rw [hi]
  exact fun he => hji (Option.some.inj he).symm

/-- **The books of an action**: the histories change as the running thread begins to owe an answer
or ceases to. -/
theorem Acts.books (h : Undisturbed a) (hinv : Inv (desk a)) (hi : a.sched.running = some i)
    (h0 : i ≠ 0) (hact : Acts T a i b fr r) : Books a.g b.g (owesAt a i) (ofFrame fr).owes := by
  have hi' := live_of_running hi h0
  rcases hact.serves with ⟨g, hk, hserves⟩ | ⟨c, sl, hf, rfl, hfree, hg, hslot, hused⟩
  · rw [hk.g]
    exact hinv.books hi' (desk_job hi') (alone h hi) hserves
  · rw [owesAt, hf, hg]
    exact .same rfl rfl

theorem Serves.terminateNum {g g' : TokenShared n} {sl : ℕ} {o o' : TokenJob n}
    (h : Serves g sl o o' g') : g'.terminateNum = g.terminateNum := by
  cases h with
  | register => exact TokenShared.registerClient_terminateNum ..
  | wait => exact TokenShared.multicast_terminateNum _
  | reply => exact TokenShared.send_terminateNum ..
  | _ => rfl

/-- Only an exit is counted in `terminate_num`, and an exit is none of these actions. -/
theorem Acts.terminateNum (hact : Acts T a i b fr r) : b.g.terminateNum = a.g.terminateNum := by
  rcases hact.serves with ⟨g, hk, hserves⟩ | ⟨c, sl, -, -, -, hg, -⟩
  · rw [hk.g]
    exact hserves.terminateNum
  · rw [hg]
    rfl

/-- What a thread does that owes nobody the token: it goes on, and may receive a request for the
token, but leaves the token alone. -/
theorem Acts.of_idle (h : Undisturbed a) (hinv : Inv (desk a)) (hi : a.sched.running = some i)
    (h0 : i ≠ 0) (ho : owesAt a i = none) (hact : Acts T a i b fr r) :
    r = .stay ∧ b.held = a.held ∧ b.count = a.count ∧ b.g.answered = a.g.answered ∧
      ((ofFrame fr).owes = none ∧ b.g.received = a.g.received ∨
        ∃ c req, fr = .user (.got c req) ∧ req.asksToken = true ∧
          (a.g.client c).phase = .asked req ∧ b.g.received = a.g.received ++ [c]) := by
  have hbooks := hact.books h hinv hi h0
  rw [ho] at hbooks
  rw [owesAt] at ho
  cases hact with
  | user hf hd hk =>
    rw [hf] at ho
    refine ⟨rfl, hk.held, hk.count, ?_⟩
    cases hd with
    | @recv c req hc =>
      refine ⟨by rw [hk.g]; rfl, ?_⟩
      by_cases hreq : req.asksToken = true
      · refine .inr ⟨c, req, rfl, hreq, hc, ?_⟩
        simp [hk.g, TokenShared.receive, hreq]
      · refine .inl ⟨by simp [ofFrame, owes, hreq], ?_⟩
        simp [hk.g, TokenShared.receive, hreq, TokenShared.setClient]
    | register =>
      cases hbooks with
      | same hr ha => exact ⟨ha, .inl ⟨rfl, hr⟩⟩
    | immd => exact ⟨by rw [hk.g], .inl ⟨rfl, by rw [hk.g]⟩⟩
    | reply => cases ho
  | alloc hf hfree hg hslot hused hkind hheld hcount =>
    exact ⟨rfl, hheld, hcount, by rw [hg]; rfl, .inl ⟨rfl, by rw [hg]; rfl⟩⟩
  | enter hf he =>
    rw [hf] at ho
    cases he <;> cases ho
  | pass hb hf | post hb hf | passed hb hf =>
    rw [hf] at ho
    cases ho
  | spin hf | sleep hf | take hf =>
    rw [hf, ofFrame_waitFrame] at ho
    cases ho

/-- The running thread goes on, owes nobody the token, and is not thread 0. -/
theorem Idle.stay (hi : a.sched.running = some i) (h0 : i ≠ 0)
    (hs : Step a.sched i .stay a'.sched) (hframe : a'.frame = Function.update a.frame i fr)
    (ho : (ofFrame fr).owes = none) : Idle a' ∧ a'.sched.running ≠ some 0 := by
  have hi' : a'.sched.running = some i := by rw [hs.stay_eq, hi]
  refine ⟨fun k hk _ => ?_, running_ne_zero_of hi' h0⟩
  obtain rfl := Option.some.inj (hi'.symm.trans hk)
  rwa [owesAt, hframe, Function.update_self]

/-! ## Actions of a thread that owes the token -/

theorem waitFrame_ne_user {slept : Bool} {u : TokenPc n} : T.waitFrame slept p c ≠ .user u := by
  unfold waitFrame
  split <;> simp

theorem waitFrame_ne_relAcq {slept : Bool} {q : Addr} {u : TokenPc n} :
    T.waitFrame slept p c ≠ .relAcq q u := by
  unfold waitFrame
  split <;> simp

theorem waitFrame_inj {slept slept' : Bool} {p' : Addr} {c' : Fin n}
    (h : T.waitFrame slept p c = T.waitFrame slept' p' c') : slept = slept' ∧ p = p' ∧ c = c' := by
  unfold waitFrame at h
  split at h <;> cases h <;> exact ⟨rfl, rfl, rfl⟩

/-- `WAIT`: the thread begins to wait for the token, and nobody else runs before its first test. -/
theorem Acts.of_wait (hf : a.frame i = .user (.got c .wait)) (hp : a.g.syncPrim = some p)
    (hact : Acts T a i b fr r) :
    r = .stay ∧ fr = T.waitFrame false p c ∧ b.held = a.held ∧ b.count = a.count := by
  cases hact with
  | user hf' hd =>
    obtain rfl := Frame.user.inj (hf.symm.trans hf')
    cases hd
  | enter hf' he hp' hk =>
    obtain rfl := Frame.user.inj (hf.symm.trans hf')
    obtain rfl := Option.some.inj (hp.symm.trans hp')
    cases he
    exact ⟨rfl, rfl, hk.held, hk.count⟩
  | alloc hf' | pass _ hf' | post _ hf' | passed _ hf' => cases hf.symm.trans hf'
  | spin hf' | sleep hf' | take hf' => exact absurd (hf'.symm.trans hf) waitFrame_ne_user

/-- The next time around in a waiting loop: the token is not there, and the thread tests again or
sleeps, or it takes the token. -/
theorem Acts.of_waiting {slept : Bool} (hf : a.frame i = T.waitFrame slept p c)
    (hact : Acts T a i b fr r) :
    T.Busy a p ∧ b.held = a.held ∧ b.count = a.count ∧
        (r = .stay ∧ fr = T.waitFrame slept p c ∨
          r = .sleep p ∧ fr = T.waitFrame true p c ∧ a.sched.ready ≠ []) ∨
      T.Free a p ∧ r = .stay ∧ fr = .user (.reply c) ∧ T.Takes a b p := by
  have hno : ∀ {u}, a.frame i ≠ .user u := fun hu => waitFrame_ne_user (hf.symm.trans hu)
  cases hact with
  | user hf' => exact absurd hf' hno
  | alloc hf' => exact absurd hf' hno
  | enter hf' => exact absurd hf' hno
  | pass _ hf' => exact absurd hf' hno
  | post _ hf' => exact absurd hf' hno
  | spin hf' hr hbusy hk =>
    obtain ⟨rfl, rfl, rfl⟩ := waitFrame_inj (hf.symm.trans hf')
    exact .inl ⟨hbusy, hk.held, hk.count, .inl ⟨rfl, rfl⟩⟩
  | sleep hf' hr hbusy hk =>
    obtain ⟨rfl, rfl, rfl⟩ := waitFrame_inj (hf.symm.trans hf')
    exact .inl ⟨hbusy, hk.held, hk.count, .inr ⟨rfl, rfl, hr⟩⟩
  | take hf' hfree hk ht =>
    obtain ⟨rfl, rfl, rfl⟩ := waitFrame_inj (hf.symm.trans hf')
    exact .inr ⟨hfree, rfl, rfl, ht⟩
  | passed _ hf' => exact absurd (hf.symm.trans hf') waitFrame_ne_relAcq

/-- A thread that has the token answers, and is back at `seL4_Recv`. -/
theorem Acts.of_reply (hf : a.frame i = .user (.reply c)) (hact : Acts T a i b fr r) :
    r = .stay ∧ fr = .user .recv ∧ b.held = a.held ∧ b.count = a.count := by
  cases hact with
  | user hf' hd hk =>
    obtain rfl := Frame.user.inj (hf.symm.trans hf')
    cases hd
    exact ⟨rfl, rfl, hk.held, hk.count⟩
  | enter hf' he =>
    obtain rfl := Frame.user.inj (hf.symm.trans hf')
    cases he
  | alloc hf' | pass _ hf' | post _ hf' | passed _ hf' => cases hf.symm.trans hf'
  | spin hf' | sleep hf' | take hf' => exact absurd (hf'.symm.trans hf) waitFrame_ne_user

/-- The token is not both free and taken, so the test of the waiting loop has one outcome. -/
theorem Busy.not_free (h : T.Busy a p) : ¬ T.Free a p := by
  unfold Busy at h
  unfold Free
  split at h
  · exact h
  · rw [h]
    exact lt_irrefl 0

/-- At first the token is taken, by nobody: the first thread that waits for it has to sleep. -/
theorem Unused.busy (h : Unused T a p) : T.Busy a p := by
  unfold Busy
  split
  · rename_i hb
    rw [h.1 hb]
    exact one_ne_zero
  · rename_i hb
    exact h.2 hb

theorem Unused.congr (h : Unused T a p) (hheld : a'.held = a.held) (hcount : a'.count = a.count) :
    Unused T a' p := by
  rwa [Unused, hheld, hcount]

/-! ## The first requests -/

/-- **The beginning**, from the assignment of `sync_prim` to the first thread that sleeps on it. -/
inductive Opening (T : TokenServer n) (a : AMach (TokenPc n) (TokenShared n)) (p : Addr) :
    Prop where
  /-- no request for the token has been received -/
  | before (hr : a.g.received = []) (ha : a.g.answered = []) (hw : a.sched.waiting p = [])
    (hu : Unused T a p) (hidle : Idle a) (hline : Line a [])
  /-- `WAIT` has been received, and its thread has not slept yet -/
  | first {i : ℕ} {c : Fin n} (hr : a.g.received = [c]) (ha : a.g.answered = [])
    (hw : a.sched.waiting p = []) (hu : Unused T a p) (hi : a.sched.running = some i) (h0 : i ≠ 0)
    (hf : a.frame i = .user (.got c .wait) ∨ a.frame i = T.waitFrame false p c)
    (hline : Line a [])

/-- The thread of the client that sent `WAIT` sleeps, and nobody else waits for the token. -/
structure Rests (T : TokenServer n) (a : AMach (TokenPc n) (TokenShared n)) (p : Addr) (j : ℕ)
    (c : Fin n) : Prop where
  received : a.g.received = [c]
  answered : a.g.answered = []
  waiting : a.sched.waiting p = [j]
  frame : a.frame j = T.waitFrame true p c
  live : Live a j
  unused : Unused T a p
  idle : Idle a
  nonzero : a.sched.running ≠ some 0
  line : Line a [j]

/-- What is known about the machine in any build, in every state of a run. -/
structure Known (T : TokenServer n) (a : AMach (TokenPc n) (TokenShared n)) : Prop where
  setUp : SetUp T a
  undisturbed : Undisturbed a
  inv : Inv (desk a)

namespace SetUp

theorem zero_ne_ready (h : SetUp T a) : a.sched.place 0 ≠ .ready := by
  rcases h.shape.zero with ⟨u, hi, -⟩ | ⟨hpark, -⟩
  · simp [place_running hi]
  · simp [hpark]

/-- Before `sync_prim` is assigned, it is the null pointer. -/
theorem syncPrim_none (h : SetUp T a) {u : TokenPc n} (hf : a.frame 0 = .user u)
    (hu : u = .start ∨ (∃ q, u = .pooled q) ∨ ∃ q, u = .made q) : a.g.syncPrim = none := by
  obtain ⟨w, hw, hat⟩ := h.main
  obtain rfl := Frame.user.inj (hw.symm.trans hf)
  rcases hu with rfl | ⟨q, rfl⟩ | ⟨q, rfl⟩
  · exact hat.2
  · exact hat.2
  · exact hat.2.1

/-- `sync_prim` is not assigned again. -/
theorem syncPrim_some (h : SetUp T a) (hp : a.g.syncPrim = some p) (hs : Steps T a a') :
    a'.g.syncPrim = some p := by
  by_cases hrun : a.sched.running = some 0
  · have hzero : ∀ {i}, a.sched.running = some i → i = 0 :=
      fun hi => (Option.some.inj (hrun.symm.trans hi)).symm
    cases hs with
    | pool _ hf => cases (h.syncPrim_none hf (.inl rfl)).symm.trans hp
    | made _ hf => cases (h.syncPrim_none hf (.inr (.inl ⟨_, rfl⟩))).symm.trans hp
    | held _ hf => cases (h.syncPrim_none hf (.inr (.inr ⟨_, rfl⟩))).symm.trans hp
    | create _ _ _ _ _ _ _ _ _ _ _ hg => rwa [hg]
    | notCreated _ _ _ _ _ hg => rwa [hg]
    | resume _ _ _ _ hk => rwa [hk.g]
    | act hi h0 => exact absurd (hzero hi) h0
    | exit hi h0 => exact absurd (hzero hi) h0
    | env he _ _ hk =>
      rw [hk.g, (call_eq he).2]
      exact hp
  · exact (hs.syncPrim hrun).1.trans hp

end SetUp

/-- A ready thread that begins to run owes nobody the token, since it is at `seL4_Recv`. -/
theorem Idle.of_ready (hline : Line a ks) (hset : SetUp T a) (hi : a.sched.running = some i)
    (hframe : ∀ k, k ≠ i → a'.frame k = a.frame k) (hrun : a'.sched.running = some j)
    (hj : j ∈ a.sched.ready) (hks : j ∉ ks) : Idle a' ∧ a'.sched.running ≠ some 0 := by
  obtain ⟨hji, h0, hf⟩ := hline.of_ready hi hset.zero_ne_ready hj hks
  refine ⟨fun k hk _ => ?_, running_ne_zero_of hrun h0⟩
  obtain rfl := Option.some.inj (hrun.symm.trans hk)
  rw [owesAt, hframe j hji, hf]
  rfl

/-- **`TMNT`.** The thread that runs next owes nobody the token, unless it is a named one. -/
theorem Idle.exit (hline : Line a ks) (hset : SetUp T a) (hi : a.sched.running = some i)
    (hs : Step a.sched i .exit a'.sched) (hframe : a'.frame = a.frame)
    (hks : ∀ k ∈ ks, a'.sched.running ≠ some k) :
    Idle a' ∧ a'.sched.running ≠ some 0 ∧ Line a' ks := by
  have hstays : Line a' ks := by
    refine hline.step hi hs (fun _ _ => by rw [hframe]) (fun k hk hk' => absurd hk hk') fun hl => ?_
    exact absurd rfl ((live_iff_exit hi hs i).mp hl).2
  cases hs with
  | @exit j tl _ hr hb =>
    obtain ⟨hidle, h0⟩ := Idle.of_ready hline hset hi (fun _ _ => by rw [hframe]) hb.running
      (hr ▸ List.mem_cons_self) fun hj => hks _ hj hb.running
    exact ⟨hidle, h0, hstays⟩
  | exitLast hr hb =>
    refine ⟨fun k hk => ?_, ?_, hstays⟩
    · cases hb.running.symm.trans hk
    · rw [hb.running]
      simp

namespace Opening

/-- Before the first request for the token, every step leaves the token unused, and the beginning
goes on. -/
theorem before_next (hK : Known T a) (hp : a.g.syncPrim = some p) (hr : a.g.received = [])
    (ha : a.g.answered = []) (hw : a.sched.waiting p = []) (hu : Unused T a p) (hidle : Idle a)
    (hline : Line a []) (hs : Steps T a a') : Opening T a' p := by
  cases hs with
  | pool _ hf => cases (hK.setUp.syncPrim_none hf (.inl rfl)).symm.trans hp
  | made _ hf => cases (hK.setUp.syncPrim_none hf (.inr (.inl ⟨_, rfl⟩))).symm.trans hp
  | held _ hf => cases (hK.setUp.syncPrim_none hf (.inr (.inr ⟨_, rfl⟩))).symm.trans hp
  | @create u left id sl hi hf hu' hid h0 hrun hready hwait hplace hfree hframe hg hslot hused hkind
      hheld hcount =>
    refine .before (by rw [hg, hr]) (by rw [hg, ha]) (by rw [hwait, hw]) (hu.congr hheld hcount)
      (fun k hk h0' => ?_) fun k hk hrun' _ => ?_
    · rw [hrun, hi] at hk
      exact absurd (Option.some.inj hk).symm h0'
    · rcases eq_or_ne k id with rfl | hne
      · rw [hframe, Function.update_self]
      · rw [hframe, Function.update_of_ne hne, Function.update_of_ne hk.1]
        have hlive : Live a k := ⟨hk.1, by simpa [hplace, hne] using hk.2⟩
        exact hline k hlive (hrun ▸ hrun') (by simp)
  | notCreated hi hf hu' hq hframe hg hslot hused hkind hheld hcount =>
    refine .before (by rw [hg, hr]) (by rw [hg, ha]) (by rw [hq.waiting, hw])
      (hu.congr hheld hcount) (fun k hk h0' => ?_) fun k hk hrun' _ => ?_
    · rw [hq.running, hi] at hk
      exact absurd (Option.some.inj hk).symm h0'
    · rw [hframe, Function.update_of_ne hk.1]
      exact hline k ((hq.live_iff k).mp hk) (hq.running ▸ hrun') (by simp)
  | resume hi hf hs hframe hk =>
    have hframe' : ∀ k, k ≠ 0 → a'.frame k = a.frame k := fun k h0 => by
      rw [hframe, Function.update_of_ne h0]
    have hline' : Line a' [] := hline.step hi hs hframe' (by simp) fun hl => absurd rfl hl.1
    cases hs with
    | resume h0 => exact absurd rfl h0
    | handback h0 => exact absurd rfl h0
    | handover _ hj hb =>
      refine .before (by rw [hk.g, hr]) (by rw [hk.g, ha]) (by rw [hb.waiting, hw])
        (hu.congr hk.held hk.count) ?_ hline'
      exact (Idle.of_ready hline hK.setUp hi hframe' hb.running hj (by simp)).1
  | @act i fr r hi h0 hact hs hframe =>
    obtain ⟨rfl, hheld, hcount, hans, hcase⟩ :=
      hact.of_idle hK.undisturbed hK.inv hi h0 (hidle _ hi h0)
    have hrun : a'.sched.running = some i := by rw [hs.stay_eq, hi]
    have hline' := hline.stay hi hs hframe
    have hw' : a'.sched.waiting p = [] := by rw [hs.stay_eq, hw]
    rcases hcase with ⟨ho, hrec⟩ | ⟨c, req, rfl, hreq, hphase, hrec⟩
    · exact .before (hrec.trans hr) (hans.trans ha) hw' (hu.congr hheld hcount)
        (Idle.stay hi h0 hs hframe ho).1 hline'
    · rcases hK.inv.first hphase hreq with ⟨rfl, -⟩ | ⟨-, hne⟩
      · refine .first (by rw [hrec, hr, List.nil_append]) (hans.trans ha) hw'
          (hu.congr hheld hcount) hrun h0 (.inl ?_) hline'
        rw [hframe, Function.update_self]
      · exact absurd hr hne
  | exit hi h0 hf hs hframe hk =>
    obtain ⟨hidle', -, hline'⟩ := Idle.exit hline hK.setUp hi hs hframe (by simp)
    have hw' : a'.sched.waiting p = [] := by
      rw [hs.waiting_of_not_touches (by simp [Req.Touches]), hw]
    refine .before ?_ ?_ hw' (hu.congr hk.held hk.count) hidle' hline'
    · rw [hk.g]
      exact hr
    · rw [hk.g]
      exact ha
  | env he hs hframe hk =>
    have hg := hk.g.trans (call_eq he).2
    refine .before ?_ ?_ (by rw [hs, hw]) (hu.congr hk.held hk.count) (hidle.congr hs hframe)
      (hline.congr hs hframe)
    · rw [hg]
      exact hr
    · rw [hg]
      exact ha

/-- The thread that handles `WAIT` goes on, until it sleeps. As long as nobody else is ready, it
tests again. -/
theorem first_next {i : ℕ} (hK : Known T a) (hp : a.g.syncPrim = some p) (hr : a.g.received = [c])
    (ha : a.g.answered = []) (hw : a.sched.waiting p = []) (hu : Unused T a p)
    (hi : a.sched.running = some i) (h0 : i ≠ 0)
    (hf : a.frame i = .user (.got c .wait) ∨ a.frame i = T.waitFrame false p c)
    (hline : Line a []) (hs : Steps T a a') : Opening T a' p ∨ Rests T a' p i c := by
  have howes : owesAt a i = some c := by
    rcases hf with hf | hf
    · rw [owesAt, hf]
      rfl
    · rw [owesAt, hf, ofFrame_waitFrame]
      rfl
  have hmain := running_ne_zero_of hi h0
  cases hs with
  | pool hi' | made hi' | held hi' | create hi' | notCreated hi' | resume hi' =>
    exact absurd hi' hmain
  | @act i' fr r hi' _ hact hs hframe =>
    obtain rfl := Option.some.inj (hi.symm.trans hi')
    have hbooks := hact.books hK.undisturbed hK.inv hi h0
    rw [howes] at hbooks
    have hself : a'.frame i = fr := by rw [hframe, Function.update_self]
    -- as long as it waits in its loop
    have hgoesOn : r = .stay → fr = T.waitFrame false p c → a'.held = a.held →
        a'.count = a.count → Opening T a' p := by
      rintro rfl rfl hheld hcount
      rw [ofFrame_waitFrame] at hbooks
      cases hbooks with
      | same hr' ha' =>
        refine .first (hr'.trans hr) (ha'.trans ha) (by rw [hs.stay_eq, hw]) (hu.congr hheld hcount)
          (by rw [hs.stay_eq, hi]) h0 (.inr hself) (hline.stay hi hs hframe)
    rcases hf with hf | hf
    · obtain ⟨hr', hfr, hheld, hcount⟩ := hact.of_wait hf hp
      exact .inl (hgoesOn hr' hfr hheld hcount)
    · rcases hact.of_waiting hf with ⟨-, hheld, hcount, ⟨hr', hfr⟩ | ⟨rfl, rfl, hne⟩⟩ | ⟨hfree, -⟩
      · exact .inl (hgoesOn hr' hfr hheld hcount)
      · right
        rw [ofFrame_waitFrame] at hbooks
        obtain ⟨j, tl, hready⟩ := List.exists_cons_of_ne_nil hne
        have hb := hs.sleep_cons hready
        have hframe' : ∀ k, k ≠ i → a'.frame k = a.frame k := fun k hk => by
          rw [hframe, Function.update_of_ne hk]
        have hw' : a'.sched.waiting p = [i] := by
          rw [hb.waiting, Function.update_self, hw, List.nil_append]
        obtain ⟨hidle, hzero⟩ := Idle.of_ready hline hK.setUp hi hframe' hb.running
          (hready ▸ List.mem_cons_self) (by simp)
        cases hbooks with
        | same hr' ha' =>
          exact ⟨hr'.trans hr, ha'.trans ha, hw', hself, live_of_waiting hw' h0,
            hu.congr hheld hcount, hidle, hzero,
            hline.step hi hs hframe' (by simp) fun _ => .inr (by simp)⟩
      · exact absurd hfree hu.busy.not_free
  | exit hi' _ hf' =>
    obtain rfl := Option.some.inj (hi.symm.trans hi')
    rw [owesAt, hf'] at howes
    cases howes
  | env he hs hframe hk =>
    have hg := hk.g.trans (call_eq he).2
    left
    refine .first ?_ ?_ (by rw [hs, hw]) (hu.congr hk.held hk.count) (by rw [hs, hi]) h0
      (by rwa [hframe]) (hline.congr hs hframe)
    · rw [hg]
      exact hr
    · rw [hg]
      exact ha

/-- **The beginning** lasts until the first thread sleeps, which is that of `WAIT`. -/
theorem next (hK : Known T a) (hp : a.g.syncPrim = some p) (h : Opening T a p)
    (hs : Steps T a a') : Opening T a' p ∨ ∃ j c, Rests T a' p j c := by
  cases h with
  | before hr ha hw hu hidle hline => exact .inl (before_next hK hp hr ha hw hu hidle hline hs)
  | first hr ha hw hu hi h0 hf hline =>
    exact (first_next hK hp hr ha hw hu hi h0 hf hline hs).imp_right fun h => ⟨_, _, h⟩

end Opening

/-! ## The rule -/

/-- How far the server is, when `R` says what holds once the first thread has slept, which depends
on the build. -/
inductive Progress (T : TokenServer n) (R : AMach (TokenPc n) (TokenShared n) → Addr → Prop)
    (a : AMach (TokenPc n) (TokenShared n)) : Prop where
  | unmade (hp : a.g.syncPrim = none) (hr : a.g.received = []) (ha : a.g.answered = [])
  | opening {p : Addr} (hp : a.g.syncPrim = some p) (h : Opening T a p)
  | passing {p : Addr} (hp : a.g.syncPrim = some p) (h : R a p)

variable {R : AMach (TokenPc n) (TokenShared n) → Addr → Prop}

/-- Before `sync_prim` is assigned, only thread 0 runs. With the assignment the beginning begins. -/
theorem Progress.unmade_next (hK : Known T a) (hp : a.g.syncPrim = none)
    (hr : a.g.received = []) (ha : a.g.answered = []) (hs : Steps T a a') : Progress T R a' := by
  have hnone : ∀ k, ¬ Live a k := fun k hk => hk.2 (hK.setUp.no_thread hp hk.1)
  have hcreate : ∀ {u left}, a.frame 0 = .user u →
      ¬ (u = .creation ∨ ∃ res, u = .creating (left + 1) res) := by
    intro u left hf hu
    obtain ⟨q, hq, -⟩ := hK.setUp.made_of_create hf hu
    cases hp.symm.trans hq.1
  have hsame : a'.g.syncPrim = a.g.syncPrim → a'.g.received = a.g.received →
      a'.g.answered = a.g.answered → Progress T R a' :=
    fun h₁ h₂ h₃ => .unmade (h₁.trans hp) (h₂.trans hr) (h₃.trans ha)
  cases hs with
  | pool _ _ _ _ _ hg => exact hsame (by rw [hg]) (by rw [hg]) (by rw [hg])
  | made _ _ _ _ _ hg => exact hsame (by rw [hg]) (by rw [hg]) (by rw [hg])
  | @held p hi hf hq hnew hframe hk hheld hcount =>
    obtain ⟨u, hu, hat⟩ := hK.setUp.main
    obtain rfl := Frame.user.inj (hu.symm.trans hf)
    obtain ⟨-, -, hmade⟩ := hat
    have hw : a.sched.waiting p = [] := by
      refine List.eq_nil_iff_forall_not_mem.mpr fun k hk' => ?_
      have hpl := place_waiting hk'
      refine hnone k ⟨?_, by simp [hpl]⟩
      rintro rfl
      cases (place_running hi).symm.trans hpl
    refine .opening (p := p) (by rw [hk.g]) (.before ?_ ?_ (by rw [hq.waiting, hw])
      ⟨hheld, fun hb => ?_⟩ (fun k hk' h0 => ?_) fun k hk' => ?_)
    · rw [hk.g]
      exact hr
    · rw [hk.g]
      exact ha
    · rw [hcount]
      exact (hmade p rfl).2 hb
    · rw [hq.running, hi] at hk'
      exact absurd (Option.some.inj hk').symm h0
    · exact absurd ((hq.live_iff k).mp hk') (hnone k)
  | create _ hf hu => exact absurd hu (hcreate hf)
  | notCreated _ hf hu => exact absurd hu (hcreate hf)
  | resume hi hf =>
    obtain ⟨u, hu, hat⟩ := hK.setUp.main
    obtain rfl := Frame.user.inj (hu.symm.trans hf)
    obtain ⟨⟨q, hq, -⟩, -⟩ := hat
    cases hp.symm.trans hq.1
  | act hi h0 => exact absurd (live_of_running hi h0) (hnone _)
  | exit hi h0 => exact absurd (live_of_running hi h0) (hnone _)
  | env he _ _ hk =>
    have hg := hk.g.trans (call_eq he).2
    exact hsame (by rw [hg]; rfl) (by rw [hg]; rfl) (by rw [hg]; rfl)

/-- **The rule.** What holds when the first thread has gone to sleep, and is kept by the steps of
the server, holds from then on. -/
theorem Tracks.order (rests : ∀ a p j c, Rests T a p j c → R a p)
    (step : ∀ a a' p, Known T a → a.g.syncPrim = some p → R a p → Steps T a a' → R a' p)
    {m : Mach (TokenPc n) (TokenShared n)} (hm : Reach T.runs m) :
    ∃ a, Tracks T m a ∧ Inv (desk a) ∧ Progress T R a := by
  obtain ⟨a, ht, -, hinv, hprog⟩ := Tracks.induction (T := T)
    (Q := fun a => Undisturbed a ∧ Inv (desk a) ∧ Progress T R a)
    (fun a ha => by
      have hg : a.g = .initialClientPool n := ha.g
      refine ⟨.initial ha, .initial ha, .unmade ?_ ?_ ?_⟩ <;> rw [hg] <;> rfl)
    (fun a a' hok hset ⟨hun, hinv, hprog⟩ hs => by
      have hK : Known T a := ⟨hset, hun, hinv⟩
      refine ⟨hs.undisturbed hun, hinv.next (hs.handles hun), ?_⟩
      cases hprog with
      | unmade hp hr ha => exact .unmade_next hK hp hr ha hs
      | opening hp h =>
        have hp' := hset.syncPrim_some hp hs
        rcases h.next hK hp hs with h' | ⟨j, c, h'⟩
        · exact .opening hp' h'
        · exact .passing hp' (rests _ _ j c h')
      | passing hp h => exact .passing (hset.syncPrim_some hp hs) (step _ _ _ hK hp h hs)) hm
  exact ⟨a, ht, hinv, hprog⟩

/-! ## What follows for a state of a run -/

/-- A thread at `seL4_Recv` is a server thread, because thread 0 does not come there. -/
theorem Tracks.at_recv {m : Mach (TokenPc n) (TokenShared n)} (h : Tracks T m a)
    (hcpu : m.cpu = .user .recv) (c : Fin n) :
    ∃ i, a.sched.running = some i ∧ i ≠ 0 ∧ a.frame i = .user .recv := by
  -- with a request at the endpoint there is something to do
  have hnext : T.next (some c) m.st.view .recv
      (m.g.setClient c { m.g.client c with phase := .asked .init }) ≠ none := by
    simp [next, TokenShared.setClient]
  exact h.running_of_loop hcpu trivial hnext

/-- Nobody waits before `sync_prim` is assigned, because there is no thread that could have a
request. -/
theorem Known.not_waits (hset : SetUp T a) (hinv : Inv (desk a)) (hp : a.g.syncPrim = none) :
    (a.g.client c).waits = false := by
  by_contra hw
  rw [Bool.not_eq_false] at hw
  obtain ⟨k, hk, -⟩ := (waits_iff_owes hinv).mp hw
  exact hk.2 (hset.no_thread hp hk.1)

/-- At the beginning at most one client waits, and if one does, the server does not receive. -/
theorem Opening.pending (h : Opening T a p) (hinv : Inv (desk a)) :
    a.g.answered = [] ∧ (∀ c, (a.g.client c).waits = true ↔ c ∈ a.g.received) ∧
      (a.g.received = [] ∨ ∃ c i, a.g.received = [c] ∧ a.sched.running = some i ∧
        a.frame i ≠ .user .recv) := by
  cases h with
  | before hr ha hw hu hidle hline =>
    refine ⟨ha, fun c => ?_, .inl hr⟩
    rw [hline.waits_iff hinv (by simp), hr]
    simp only [List.not_mem_nil, false_and, exists_false, or_false, iff_false]
    rintro ⟨i, hi, h0, ho⟩
    cases (hidle i hi h0).symm.trans ho
  | @first i d hr ha hw hu hi h0 hf hline =>
    have ho : owesAt a i = some d := by
      rcases hf with hf | hf
      · rw [owesAt, hf]
        rfl
      · rw [owesAt, hf, ofFrame_waitFrame]
        rfl
    refine ⟨ha, fun c => ?_, .inr ⟨d, i, hr, hi, ?_⟩⟩
    · rw [hline.waits_iff hinv (by simp), hr]
      simp only [hi, List.not_mem_nil, false_and, exists_false, or_false, List.mem_singleton]
      constructor
      · rintro ⟨k, hk, -, hc⟩
        obtain rfl := Option.some.inj hk
        exact Option.some.inj (hc.symm.trans ho)
      · rintro rfl
        exact ⟨i, rfl, h0, ho⟩
    · intro hrecv
      rw [owesAt, hrecv] at ho
      cases ho

/-- One thread is aside, and the running one owes nobody the token: one client waits. -/
theorem Line.waits_one (hline : Line a [j]) (hinv : Inv (desk a)) (hj : Live a j)
    (ho : owesAt a j = some c) (hidle : Idle a) (d : Fin n) :
    (a.g.client d).waits = true ↔ d ∈ [c] := by
  rw [hline.waits_iff hinv (by simpa using hj)]
  simp only [List.mem_singleton, exists_eq_left, ho, Option.some.injEq]
  constructor
  · rintro (⟨i, hi, h0, hd⟩ | rfl)
    · cases (hidle i hi h0).symm.trans hd
    · rfl
  · rintro rfl
    exact .inr rfl

/-- One thread is aside, and the running one owes somebody the token: two clients wait. -/
theorem Line.waits_two {d : Fin n} (hline : Line a [j]) (hinv : Inv (desk a)) (hj : Live a j)
    (ho : owesAt a j = some c) (hi : a.sched.running = some i) (h0 : i ≠ 0)
    (hd : owesAt a i = some d) (e : Fin n) : (a.g.client e).waits = true ↔ e ∈ [c, d] := by
  rw [hline.waits_iff hinv (by simpa using hj)]
  simp only [exists_eq_left, ho, Option.some.injEq, List.mem_cons, List.not_mem_nil, or_false, hi]
  constructor
  · rintro (⟨k, rfl, -, he⟩ | rfl)
    · exact .inr (Option.some.inj (he.symm.trans hd))
    · exact .inl rfl
  · rintro (rfl | rfl)
    · exact .inr rfl
    · exact .inl ⟨i, rfl, h0, hd⟩

/-- A request is not received from a client that waits, since it makes one call at a time. -/
theorem ne_of_asked {d : Fin n} {req : TokenRequest} (hinv : Inv (desk a)) (hj : Live a j)
    (ho : owesAt a j = some c) (hd : (a.g.client d).phase = .asked req) : c ≠ d := by
  rintro rfl
  obtain ⟨r, hr, -⟩ := TokenClient.served_of_waits ((waits_iff_owes hinv).mpr ⟨j, hj, ho⟩)
  cases hd.symm.trans hr

end TokenServer

end GreenLib
