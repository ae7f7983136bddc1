import GreenLib.Desk
import GreenLib.Lock
import GreenLib.TokenServer

/-!
# The steps of the token server

What a step of the abstract machine can be when the program is the token server (`Steps`), in either
build. The invariants of the server are proved along this relation. `Tracks` relates a state of a
run to an abstract machine that is set up, and `Tracks.induction` is the rule by which an invariant
of the abstract steps comes to hold in every run.
-/

namespace GreenLib

namespace TokenServer

open Sched

variable {n : ℕ} {T : TokenServer n} {a a' b : AMach (TokenPc n) (TokenShared n)} {i k : ℕ}
  {l : Label (Option (Fin n)) (Fin n × TokenRequest)}

/-! ## The waiting loops -/

/-- A thread in the waiting loop for the token, for client `c`. `slept` says that it has slept
there. -/
def waitFrame (T : TokenServer n) (slept : Bool) (p : Addr) (c : Fin n) : Frame (TokenPc n) :=
  match T.build with
  | .lock => .acquire slept p (.reply c)
  | .semaphore => .semP slept p (.reply c)

/-- The token can be taken: the lock is not held, or the semaphore counts one. -/
def Free (T : TokenServer n) (a : AMach (TokenPc n) (TokenShared n)) (p : Addr) : Prop :=
  match T.build with
  | .lock => a.held p = 0
  | .semaphore => 0 < a.count p

/-- The token cannot be taken, so a thread that waits for it sleeps or tests again. -/
def Busy (T : TokenServer n) (a : AMach (TokenPc n) (TokenShared n)) (p : Addr) : Prop :=
  match T.build with
  | .lock => a.held p ≠ 0
  | .semaphore => a.count p = 0

/-- The token is taken between `a` and `b`, by the last part of the waiting function. -/
def Takes (T : TokenServer n) (a b : AMach (TokenPc n) (TokenShared n)) (p : Addr) : Prop :=
  match T.build with
  | .lock => b.held p = 1
  | .semaphore => b.count p = wrap32 (a.count p - 1)

/-- Where a server thread can be, when `sync_prim` is `q`: in its own code, or in a call that is
about `sync_prim`. -/
inductive LoopFrame (T : TokenServer n) (q : Ptr) : Frame (TokenPc n) → Prop where
  | user {u : TokenPc n} (hu : u.InLoop) (hfit : T.Fits u) : LoopFrame T q (.user u)
  | acquire {slept : Bool} {p : Addr} {c : Fin n} (hb : T.build = .lock) (hq : q = some p) :
    LoopFrame T q (.acquire slept p (.reply c))
  | semP {slept : Bool} {p : Addr} {c : Fin n} (hb : T.build = .semaphore) (hq : q = some p) :
    LoopFrame T q (.semP slept p (.reply c))
  | relAcq {p : Addr} {c : Fin n} (hb : T.build = .lock) (hq : q = some p) :
    LoopFrame T q (.relAcq p (.reply c))

theorem LoopFrame.wait {slept : Bool} {q : Ptr} {p : Addr} {c : Fin n} (hq : q = some p) :
    LoopFrame T q (T.waitFrame slept p c) := by
  unfold waitFrame
  split
  · rename_i hb
    exact .acquire hb hq
  · rename_i hb
    exact .semP hb hq

/-! ## Actions -/

/-- Besides the data of `Keeps` the primitives have not changed either, so the token is where it
was. -/
structure KeepsAll (a b : AMach (TokenPc n) (TokenShared n)) (g : TokenShared n) : Prop extends
    Keeps a b g where
  held : b.held = a.held
  count : b.count = a.count

/-- The actions of a server thread, in either build: what it goes on with, and what it asks of the
scheduler. -/
inductive Acts (T : TokenServer n) (a : AMach (TokenPc n) (TokenShared n)) (i : ℕ)
    (b : AMach (TokenPc n) (TokenShared n)) : Frame (TokenPc n) → Req Addr → Prop where
  | user {u w : TokenPc n} {g : TokenShared n} (hf : a.frame i = .user u)
    (hd : Does (a.slot i) a.g u w g) (hk : KeepsAll a b g) : Acts T a i b (.user w) .stay
  | alloc {c : Fin n} {sl : ℕ} (hf : a.frame i = .user (.got c .init))
    (hfree : a.slotUsed sl = false) (hg : b.g = a.g.initialClient)
    (hslot : b.slot = Function.update a.slot i sl)
    (hused : b.slotUsed = Function.update a.slotUsed sl true) (hkind : b.kind = a.kind)
    (hheld : b.held = a.held) (hcount : b.count = a.count) :
    Acts T a i b (.user (.inited c a.g.clientNew)) .stay
  | enter {u : TokenPc n} {c : Fin n} {p : Addr} {g : TokenShared n} (hf : a.frame i = .user u)
    (he : Enters T (a.slot i) a.g u c g) (hp : a.g.syncPrim = some p) (hk : KeepsAll a b g) :
    Acts T a i b (T.waitFrame false p c) .stay
  /-- `thread_lock_release_acquire` -/
  | pass {c : Fin n} {p : Addr} (hb : T.build = .lock) (hf : a.frame i = .user (.got c .sendWait))
    (hp : a.g.syncPrim = some p) (hk : Keeps a b (a.g.saveCaller (a.slot i)))
    (hheld : b.held p = 0) : Acts T a i b (.relAcq p (.reply c)) (.wakeupWait p)
  /-- `thread_semaphore_V` -/
  | post {c : Fin n} {p : Addr} (hb : T.build = .semaphore)
    (hf : a.frame i = .user (.got c .sendWait)) (hp : a.g.syncPrim = some p)
    (hk : Keeps a b (a.g.saveCaller (a.slot i)))
    (hcount : b.count p = wrap32 (a.count p + 1)) : Acts T a i b (.user (.posted c)) (.wakeup p)
  /-- nobody else is ready: test again -/
  | spin {slept : Bool} {c : Fin n} {p : Addr} (hf : a.frame i = T.waitFrame slept p c)
    (hr : a.sched.ready = []) (hbusy : T.Busy a p) (hk : KeepsAll a b a.g) :
    Acts T a i b (T.waitFrame slept p c) .stay
  | sleep {slept : Bool} {c : Fin n} {p : Addr} (hf : a.frame i = T.waitFrame slept p c)
    (hr : a.sched.ready ≠ []) (hbusy : T.Busy a p) (hk : KeepsAll a b a.g) :
    Acts T a i b (T.waitFrame true p c) (.sleep p)
  | take {slept : Bool} {c : Fin n} {p : Addr} (hf : a.frame i = T.waitFrame slept p c)
    (hfree : T.Free a p) (hk : Keeps a b a.g) (ht : T.Takes a b p) :
    Acts T a i b (.user (.reply c)) .stay
  /-- `thread_lock_release_acquire` returns -/
  | passed {c : Fin n} {p : Addr} (hb : T.build = .lock) (hf : a.frame i = .relAcq p (.reply c))
    (hk : KeepsAll a b a.g) : Acts T a i b (.user (.reply c)) .stay

theorem waitFrame_lock (hb : T.build = .lock) {slept : Bool} {p : Addr} {c : Fin n} :
    T.waitFrame slept p c = .acquire slept p (.reply c) := by
  rw [waitFrame, hb]

theorem waitFrame_semaphore (hb : T.build = .semaphore) {slept : Bool} {p : Addr} {c : Fin n} :
    T.waitFrame slept p c = .semP slept p (.reply c) := by
  rw [waitFrame, hb]

/-- A call of a server thread is one of `Calls`, since it is in its own code when it makes one. -/
theorem LoopFrame.calls {q : Ptr} {e : Option (Fin n)} {v : View} {u : TokenPc n}
    {cl : Call (TokenPc n)} {ret : Option ℕ → TokenPc n} {g g' : TokenShared n}
    (hf : LoopFrame T q (.user u)) (hn : T.program.next e v u g = some (cl, ret, g')) :
    ∃ w, ret = (fun _ => w) ∧ Calls T v.slot g u cl w g' := by
  cases hf with
  | user hu hfit => exact next_calls hu hfit hn

/-- **What a server thread does in its own code**, by the call that it makes there. -/
theorem call_acts {fr : Frame (TokenPc n)} {r : Req Addr} {e : Option (Fin n)} {al : Alloc}
    (hf : LoopFrame T a.g.syncPrim (a.frame i)) (h : Act T.program a i (.call e al) b fr r) :
    Acts T a i b fr r := by
  cases h with
  | plain hu hn hr =>
    obtain ⟨w, rfl, hc⟩ := (hu ▸ hf).calls hn
    cases hc <;> simp only [Call.req, Option.some.injEq, reduceCtorEq] at hr
    case pause hd =>
      subst hr
      exact .user hu hd ⟨⟨rfl, rfl, rfl, rfl⟩, rfl, rfl⟩
  | primFail hu hn hc =>
    obtain ⟨w, rfl, hcalls⟩ := (hu ▸ hf).calls hn
    cases hcalls <;> cases hc
  | acquire hu hn =>
    obtain ⟨w, rfl, hc⟩ := (hu ▸ hf).calls hn
    cases hc with
    | acquire hb he hp =>
      rw [← waitFrame_lock hb]
      exact .enter hu he hp ⟨⟨rfl, rfl, rfl, rfl⟩, rfl, rfl⟩
  | releaseAcquire hu hn =>
    obtain ⟨w, rfl, hc⟩ := (hu ▸ hf).calls hn
    cases hc with
    | releaseAcquire hb hp =>
      exact .pass hb hu hp ⟨rfl, rfl, rfl, rfl⟩ (Function.update_self ..)
  | semP hu hn =>
    obtain ⟨w, rfl, hc⟩ := (hu ▸ hf).calls hn
    cases hc with
    | semP hb he hp =>
      rw [← waitFrame_semaphore hb]
      exact .enter hu he hp ⟨⟨rfl, rfl, rfl, rfl⟩, rfl, rfl⟩
  | semV hu hn =>
    obtain ⟨w, rfl, hc⟩ := (hu ▸ hf).calls hn
    cases hc with
    | semV hb hp => exact .post hb hu hp ⟨rfl, rfl, rfl, rfl⟩ (Function.update_self ..)
  | cspaceAlloc hu hn hsl =>
    obtain ⟨w, rfl, hc⟩ := (hu ▸ hf).calls hn
    cases hc with
    | init => exact .alloc hu hsl rfl rfl rfl rfl rfl rfl
  | release hu hn | cvWait hu hn | join hu hn =>
    obtain ⟨w, -, hc⟩ := (hu ▸ hf).calls hn
    cases hc

/-- **What a server thread does in a waiting loop.** The loops of the lock and of the semaphore are
the same to the server. -/
theorem turn_acts {fr : Frame (TokenPc n)} {r : Req Addr}
    (hf : LoopFrame T a.g.syncPrim (a.frame i)) (h : Act T.program a i .turn b fr r) :
    Acts T a i b fr r := by
  cases h with
  | acquireSpin hu hk hh hr =>
    rw [hu] at hf
    cases hf with
    | acquire hb =>
      rw [← waitFrame_lock hb] at hu ⊢
      exact .spin hu hr (by rwa [Busy, hb]) ⟨⟨rfl, rfl, rfl, rfl⟩, rfl, rfl⟩
  | acquireSleep hu hk hh hr =>
    rw [hu] at hf
    cases hf with
    | acquire hb =>
      rw [← waitFrame_lock hb] at hu ⊢
      exact .sleep hu hr (by rwa [Busy, hb]) ⟨⟨rfl, rfl, rfl, rfl⟩, rfl, rfl⟩
  | acquireDone hu hk hh =>
    rw [hu] at hf
    cases hf with
    | acquire hb =>
      rw [← waitFrame_lock hb] at hu
      refine .take hu (by rwa [Free, hb]) ⟨rfl, rfl, rfl, rfl⟩ ?_
      rw [Takes, hb]
      exact Function.update_self ..
  | relAcq hu =>
    rw [hu] at hf
    cases hf with
    | relAcq hb => exact .passed hb hu ⟨⟨rfl, rfl, rfl, rfl⟩, rfl, rfl⟩
  | semPSpin hu hk hc hr =>
    rw [hu] at hf
    cases hf with
    | semP hb =>
      rw [← waitFrame_semaphore hb] at hu ⊢
      exact .spin hu hr (by rwa [Busy, hb]) ⟨⟨rfl, rfl, rfl, rfl⟩, rfl, rfl⟩
  | semPSleep hu hk hc hr =>
    rw [hu] at hf
    cases hf with
    | semP hb =>
      rw [← waitFrame_semaphore hb] at hu ⊢
      exact .sleep hu hr (by rwa [Busy, hb]) ⟨⟨rfl, rfl, rfl, rfl⟩, rfl, rfl⟩
  | semPDone hu hk hc =>
    rw [hu] at hf
    cases hf with
    | semP hb =>
      rw [← waitFrame_semaphore hb] at hu
      refine .take hu (by rwa [Free, hb]) ⟨rfl, rfl, rfl, rfl⟩ ?_
      rw [Takes, hb]
      exact Function.update_self ..
  | cvSleep hu | cvAcquire hu | joinDone hu =>
    rw [hu] at hf
    cases hf
  | joinAgain _ hu =>
    rw [hu] at hf
    cases hf

theorem act_acts {fr : Frame (TokenPc n)} {r : Req Addr}
    (hf : LoopFrame T a.g.syncPrim (a.frame i)) (h : Act T.program a i l b fr r) :
    Acts T a i b fr r := by
  cases l with
  | call e al => exact call_acts hf h
  | turn => exact turn_acts hf h
  | env | scribble => cases h

theorem Does.inLoop (T : TokenServer n) {sl : ℕ} {g g' : TokenShared n} {u w : TokenPc n}
    (h : Does sl g u w g') : w.InLoop ∧ T.Fits w := by
  cases h <;> exact ⟨trivial, trivial⟩

/-- A server thread stays in its loop, and inside a call that is about `sync_prim`. -/
theorem Acts.loopFrame {fr : Frame (TokenPc n)} {r : Req Addr}
    (hf : LoopFrame T a.g.syncPrim (a.frame i)) (h : Acts T a i b fr r) :
    LoopFrame T a.g.syncPrim fr := by
  have hwait : ∀ {slept slept' p c}, a.frame i = T.waitFrame slept p c →
      LoopFrame T a.g.syncPrim (T.waitFrame slept' p c) := by
    intro slept slept' p c hu
    rw [hu] at hf
    refine .wait ?_
    unfold waitFrame at hf
    split at hf
    · cases hf with
      | acquire _ hq => exact hq
    · cases hf with
      | semP _ hq => exact hq
  cases h with
  | user _ hd => exact .user (hd.inLoop T).1 (hd.inLoop T).2
  | alloc => exact .user trivial trivial
  | enter _ _ hp => exact .wait hp
  | pass hb _ hp => exact .relAcq hb hp
  | post hb => exact .user trivial hb
  | spin hu => exact hwait hu
  | sleep hu => exact hwait hu
  | take => exact .user trivial trivial
  | passed => exact .user trivial trivial

theorem Acts.keep {fr : Frame (TokenPc n)} {r : Req Addr} {sched : Sched Addr}
    {frame : ℕ → Frame (TokenPc n)} (h : Acts T a i b fr r) :
    Acts T a i { b with sched := sched, frame := frame } fr r := by
  have hdata : ∀ {g}, Keeps a b g →
      Keeps a { b with sched := sched, frame := frame } g :=
    fun hk => ⟨hk.g, hk.slot, hk.slotUsed, hk.kind⟩
  have hkeep : ∀ {g}, KeepsAll a b g → KeepsAll a { b with sched := sched, frame := frame } g :=
    fun hk => ⟨hdata hk.toKeeps, hk.held, hk.count⟩
  cases h with
  | user hf hd hk => exact .user hf hd (hkeep hk)
  | alloc hf hfree hg hslot hused hkind hheld hcount =>
    exact .alloc hf hfree hg hslot hused hkind hheld hcount
  | enter hf he hp hk => exact .enter hf he hp (hkeep hk)
  | pass hb hf hp hk hheld => exact .pass hb hf hp (hdata hk) hheld
  | post hb hf hp hk hcount => exact .post hb hf hp (hdata hk) hcount
  | spin hf hr hbusy hk => exact .spin hf hr hbusy (hkeep hk)
  | sleep hf hr hbusy hk => exact .sleep hf hr hbusy (hkeep hk)
  | take hf hfree hk ht => exact .take hf hfree (hdata hk) ht
  | passed hb hf hk => exact .passed hb hf (hkeep hk)

/-! ## Steps -/

/-- **The steps of the server**, with what each of them changes. A step of thread 0 that writes
`held` also goes on to the next point. -/
inductive Steps (T : TokenServer n) (a a' : AMach (TokenPc n) (TokenShared n)) : Prop where
  /-- thread 0 creates `lock_universe` -/
  | pool {r : Ptr} (hi : a.sched.running = some 0) (hf : a.frame 0 = .user .start)
    (hq : SameQueues a.sched a'.sched) (hnew : a'.sched.newId = a.sched.newId)
    (hframe : a'.frame = Function.update a.frame 0 (.user (.pooled r)))
    (hg : a'.g = a.g) (hslot : a'.slot = a.slot) (hused : a'.slotUsed = a.slotUsed)
  /-- thread 0 creates `sync_prim` -/
  | made {q : Addr} {r : Ptr} (hi : a.sched.running = some 0)
    (hf : a.frame 0 = .user (.pooled (some q)))
    (hq : SameQueues a.sched a'.sched) (hnew : a'.sched.newId = a.sched.newId)
    (hframe : a'.frame = Function.update a.frame 0 (.user (.made r)))
    (hg : a'.g = { a.g with lockUniverse := some q }) (hslot : a'.slot = a.slot)
    (hused : a'.slotUsed = a.slotUsed)
    (hr : ∀ p, r = some p → a'.kind p = some T.build.kind ∧
      (T.build = .semaphore → a'.count p = 0))
  /-- thread 0 writes `held` -/
  | held {p : Addr} (hi : a.sched.running = some 0) (hf : a.frame 0 = .user (.made (some p)))
    (hq : SameQueues a.sched a'.sched) (hnew : a'.sched.newId = a.sched.newId)
    (hframe : a'.frame = Function.update a.frame 0 (.user .creation))
    (hk : Keeps a a' { a.g with syncPrim := some p })
    (hheld : T.build = .lock → a'.held p = 1) (hcount : a'.count = a.count)
  /-- thread 0 creates a server thread -/
  | create {u : TokenPc n} {left id sl : ℕ} (hi : a.sched.running = some 0)
    (hf : a.frame 0 = .user u) (hu : u = .creation ∨ ∃ res, u = .creating (left + 1) res)
    (hid : id = a.sched.newId) (h0 : id ≠ 0) (hrun : a'.sched.running = a.sched.running)
    (hready : a'.sched.ready = a.sched.ready ++ [id]) (hwait : a'.sched.waiting = a.sched.waiting)
    (hplace : a'.sched.place = Function.update a.sched.place id .ready)
    (hfree : a.slotUsed sl = false)
    (hframe : a'.frame = Function.update (Function.update a.frame 0 (.user (.creating left id))) id
      (.user .recv))
    (hg : a'.g = a.g) (hslot : a'.slot = Function.update a.slot id sl)
    (hused : a'.slotUsed = Function.update a.slotUsed sl true) (hkind : a'.kind = a.kind)
    (hheld : a'.held = a.held) (hcount : a'.count = a.count)
  /-- it tries to, and fails -/
  | notCreated {u : TokenPc n} {left : ℕ} (hi : a.sched.running = some 0)
    (hf : a.frame 0 = .user u) (hu : u = .creation ∨ ∃ res, u = .creating (left + 1) res)
    (hq : SameQueues a.sched a'.sched)
    (hframe : a'.frame = Function.update a.frame 0 (.user (.creating left 0)))
    (hg : a'.g = a.g) (hslot : a'.slot = a.slot)
    (hused : ∀ sl, a.slotUsed sl = true → a'.slotUsed sl = true) (hkind : a'.kind = a.kind)
    (hheld : a'.held = a.held) (hcount : a'.count = a.count)
  /-- thread 0 resumes a server thread -/
  | resume {res : ℕ} (hi : a.sched.running = some 0) (hf : a.frame 0 = .user (.creating 0 res))
    (hs : Step a.sched 0 (.resume res) a'.sched)
    (hframe : a'.frame = Function.update a.frame 0 (.user .done)) (hk : KeepsAll a a' a.g)
  /-- a server thread goes on -/
  | act {i : ℕ} {fr : Frame (TokenPc n)} {r : Req Addr} (hi : a.sched.running = some i)
    (h0 : i ≠ 0) (hact : Acts T a i a' fr r) (hs : Step a.sched i r a'.sched)
    (hframe : a'.frame = Function.update a.frame i fr)
  | exit {i : ℕ} {c : Fin n} (hi : a.sched.running = some i) (h0 : i ≠ 0)
    (hf : a.frame i = .user (.got c .tmnt)) (hs : Step a.sched i .exit a'.sched)
    (hframe : a'.frame = a.frame) (hk : KeepsAll a a' (a.g.terminate c))
  /-- a client makes a call -/
  | env {e : Fin n × TokenRequest} {g : TokenShared n} (he : call e a.g = some g)
    (hs : a'.sched = a.sched) (hframe : a'.frame = a.frame) (hk : KeepsAll a a' g)

/-- Thread 0 is in `main_continued` or done with it, the other threads are in their loops. -/
structure Shape (T : TokenServer n) (a : AMach (TokenPc n) (TokenShared n)) : Prop where
  zero : a.Zero TokenPc.InMain (· = .done)
  loop : ∀ i, i ≠ 0 → a.sched.place i ≠ .nowhere → LoopFrame T a.g.syncPrim (a.frame i)

/-- The machine from which a step with the label `l` is made: the write of `held` has been made, if
it is due. -/
def before (T : TokenServer n) (a : AMach (TokenPc n) (TokenShared n)) :
    Label (Option (Fin n)) (Fin n × TokenRequest) → AMach (TokenPc n) (TokenShared n)
  | .call _ _ => T.writes a
  | _ => a

/-- At most `held` is different, so that all else can be read before the write. -/
theorem before_eq (T : TokenServer n) (a : AMach (TokenPc n) (TokenShared n))
    (l : Label (Option (Fin n)) (Fin n × TokenRequest)) :
    ∃ f, T.before a l = { a with held := f } := by
  cases l with
  | call e al =>
    change ∃ f, T.writes a = { a with held := f }
    unfold writes
    split
    · exact ⟨_, rfl⟩
    · exact ⟨a.held, rfl⟩
  | _ => exact ⟨a.held, rfl⟩

/-- Nothing is different if the running thread is not at the assignment. -/
theorem before_of_ne {fr : Frame (TokenPc n)} (hi : a.sched.running = some i) (hf : a.frame i = fr)
    (hfr : ∀ p, fr ≠ .user (.made (some p))) : T.before a l = a := by
  cases l with
  | call e al =>
    change T.writes a = a
    unfold writes
    split
    · rename_i p hb hmade
      rw [hi, Option.map_some, hf] at hmade
      exact absurd (Option.some.inj hmade) (hfr p)
    · rfl
  | _ => rfl

/-- **The assignment** of `sync_prim`, with the write of `held` in the build with the lock. -/
theorem made_steps {p : Addr} (hi : a.sched.running = some 0)
    (hf : a.frame 0 = .user (.made (some p))) (hs : AStep T.program (T.before a l) l a') :
    Steps T a a' := by
  obtain ⟨f, hbefore⟩ := T.before_eq a l
  have hheld : ∀ {e al}, l = .call e al → T.build = .lock → f p = 1 := by
    rintro e al rfl hb
    have hw : T.writes a = a.setHeld p 1 := by
      unfold writes
      rw [hi, Option.map_some, hf, hb]
    have hfield : (a.setHeld p 1).held = f := congrArg AMach.held (hw.symm.trans hbefore)
    rw [← hfield]
    exact Function.update_self ..
  rw [hbefore] at hs
  have hno : ∀ {e cl ret g}, T.program.next e (a.view 0) (.made (some p)) a.g = some (cl, ret, g) →
      cl = .pause ∧ ret = (fun _ => .creation) ∧ g = { a.g with syncPrim := some p } := by
    intro e cl ret g hn
    cases hn
    exact ⟨rfl, rfl, rfl⟩
  have hzero : ∀ {i}, a.sched.running = some i → i = 0 :=
    fun hi' => (Option.some.inj (hi.symm.trans hi')).symm
  have huser : ∀ {u}, a.frame 0 = .user u → u = .made (some p) :=
    fun hu => Frame.user.inj (hu.symm.trans hf)
  cases hs with
  | act hi' hact hstep =>
    obtain rfl := hzero hi'
    cases hact with
    | plain hu hn hr =>
      obtain rfl := huser hu
      obtain ⟨rfl, rfl, rfl⟩ := hno hn
      cases hr
      cases hstep
      exact .held hi hf ⟨rfl, rfl, rfl, rfl⟩ rfl rfl ⟨rfl, rfl, rfl, rfl⟩ (hheld rfl) rfl
    | primFail hu hn hc =>
      obtain rfl := huser hu
      obtain ⟨rfl, -, -⟩ := hno hn
      cases hc
    | acquire hu hn | release hu hn | releaseAcquire hu hn | semP hu hn | semV hu hn
    | cvWait hu hn | join hu hn | cspaceAlloc hu hn =>
      obtain rfl := huser hu
      obtain ⟨hcl, -, -⟩ := hno hn
      cases hcl
    | acquireSpin hu | acquireSleep hu | acquireDone hu | relAcq hu | semPSpin hu | semPSleep hu
    | semPDone hu | cvSleep hu | cvAcquire hu | joinDone hu => cases hf.symm.trans hu
    | joinAgain _ hu => cases hf.symm.trans hu
  | exit hi' hu hn | create hi' hu hn | notCreated hi' hu hn =>
    obtain rfl := hzero hi'
    obtain rfl := huser hu
    obtain ⟨hcl, -, -⟩ := hno hn
    cases hcl
  | primMade hi' hu hn hc =>
    obtain rfl := hzero hi'
    obtain rfl := huser hu
    obtain ⟨rfl, -, -⟩ := hno hn
    cases hc
  | primGone hi' hu hn hc =>
    obtain rfl := hzero hi'
    obtain rfl := huser hu
    obtain ⟨rfl, -, -⟩ := hno hn
    rcases hc with ⟨hc, -⟩ | ⟨hc, -⟩ <;> cases hc
  | env he =>
    have hf : f = a.held := (congrArg AMach.held hbefore).symm
    subst hf
    exact .env he rfl rfl ⟨⟨rfl, rfl, rfl, rfl⟩, rfl, rfl⟩

/-- What thread 0 does elsewhere in `main_continued`, where nothing is written past the library. -/
theorem zero_steps {u : TokenPc n} (hi : a.sched.running = some 0) (hf : a.frame 0 = .user u)
    (hu : u.InMain) (hs : AStep T.program a l a') (hmade : ∀ p, u ≠ .made (some p)) :
    Steps T a a' := by
  have hzero : ∀ {i}, a.sched.running = some i → i = 0 :=
    fun hi' => (Option.some.inj (hi.symm.trans hi')).symm
  have hsets : ∀ {e : Option (Fin n)} {u' : TokenPc n} {cl : Call (TokenPc n)}
      {ret : Option ℕ → TokenPc n} {g : TokenShared n}, a.frame 0 = .user u' →
      T.program.next e (a.view 0) u' a.g = some (cl, ret, g) →
      Sets T a.g u' cl ret g ∧ ∀ p, u' ≠ .made (some p) := by
    intro e u' cl ret g hf' hn
    obtain rfl := Frame.user.inj (hf.symm.trans hf')
    exact ⟨next_sets hu hn, hmade⟩
  cases hs with
  | act hi' hact hstep =>
    obtain rfl := hzero hi'
    cases hact with
    | plain hf' hn hr =>
      obtain ⟨hd, hno⟩ := hsets hf' hn
      cases hd <;> cases hr
      · exact absurd rfl (hno _)
      · exact .resume hi hf' hstep rfl ⟨⟨rfl, rfl, rfl, rfl⟩, rfl, rfl⟩
    | primFail hf' hn hc =>
      cases hstep
      obtain ⟨hd, -⟩ := hsets hf' hn
      cases hd <;> cases hc
      · exact .pool hi hf' ⟨rfl, rfl, rfl, rfl⟩ rfl rfl rfl rfl rfl
      · exact .made hi hf' ⟨rfl, rfl, rfl, rfl⟩ rfl rfl rfl rfl rfl (by simp)
      · exact .made hi hf' ⟨rfl, rfl, rfl, rfl⟩ rfl rfl rfl rfl rfl (by simp)
    | acquire hf' hn | release hf' hn | releaseAcquire hf' hn | semP hf' hn | semV hf' hn
    | cvWait hf' hn | join hf' hn | cspaceAlloc hf' hn => cases (hsets hf' hn).1
    | acquireSpin hf' | acquireSleep hf' | acquireDone hf' | relAcq hf' | semPSpin hf'
    | semPSleep hf' | semPDone hf' | cvSleep hf' | cvAcquire hf' | joinDone hf' =>
      cases hf.symm.trans hf'
    | joinAgain _ hf' => cases hf.symm.trans hf'
  | exit hi' hf' hn =>
    obtain rfl := hzero hi'
    cases (hsets hf' hn).1
  | create hi' hf' hn hid h0 hnew hprims hrun hready hwait hplace hsl =>
    obtain rfl := hzero hi'
    cases (hsets hf' hn).1 with
    | first h =>
      exact .create hi hf' (.inl rfl) hid h0 hrun hready hwait hplace hsl rfl rfl rfl rfl rfl rfl
        rfl
    | create =>
      exact .create hi hf' (.inr ⟨_, rfl⟩) hid h0 hrun hready hwait hplace hsl rfl rfl rfl rfl rfl
        rfl rfl
  | notCreated hi' hf' hn hsched hused =>
    obtain rfl := hzero hi'
    have hq : ∀ {x}, x = a.sched ∨ x = a.sched.fresh → SameQueues a.sched x := by
      rintro x (rfl | rfl) <;> exact ⟨rfl, rfl, rfl, rfl⟩
    cases (hsets hf' hn).1 with
    | first h => exact .notCreated hi hf' (.inl rfl) (hq hsched) rfl rfl rfl hused rfl rfl rfl
    | create => exact .notCreated hi hf' (.inr ⟨_, rfl⟩) (hq hsched) rfl rfl rfl hused rfl rfl rfl
  | primMade hi' hf' hn hc hal hp =>
    obtain rfl := hzero hi'
    obtain ⟨hd, -⟩ := hsets hf' hn
    cases hd <;> cases hc
    · exact .pool hi hf' ⟨rfl, rfl, rfl, rfl⟩ rfl rfl rfl rfl rfl
    · rename_i hb
      refine .made hi hf' ⟨rfl, rfl, rfl, rfl⟩ rfl rfl rfl rfl rfl fun q hq => ?_
      obtain rfl := Option.some.inj hq
      exact ⟨by simp [hb, TokenBuild.kind], fun hb' => by rw [hb] at hb'; cases hb'⟩
    · rename_i hb
      refine .made hi hf' ⟨rfl, rfl, rfl, rfl⟩ rfl rfl rfl rfl rfl fun q hq => ?_
      obtain rfl := Option.some.inj hq
      exact ⟨by simp [hb, TokenBuild.kind], fun _ => by simp⟩
  | primGone hi' hf' hn hc =>
    obtain rfl := hzero hi'
    cases (hsets hf' hn).1 <;> rcases hc with ⟨hc, -⟩ | ⟨hc, -⟩ <;> cases hc
  | env he => exact .env he rfl rfl ⟨⟨rfl, rfl, rfl, rfl⟩, rfl, rfl⟩

/-- **Inversion.** A step of the abstract machine, behind the write, is one of `Steps`. -/
theorem Shape.steps (h : Shape T a) (hs : AStep T.program (T.before a l) l a') : Steps T a a' := by
  rcases h.zero with ⟨u, hi, hf, hu⟩ | ⟨hpark, -⟩
  · by_cases hmade : ∃ p, u = .made (some p)
    · obtain ⟨p, rfl⟩ := hmade
      exact made_steps hi hf hs
    · have hne : ∀ p, u ≠ .made (some p) := fun p he => hmade ⟨p, he⟩
      rw [before_of_ne hi hf fun p he => hne p (Frame.user.inj he)] at hs
      exact zero_steps hi hf hu hs hne
  have hloop : ∀ {i}, a.sched.running = some i → i ≠ 0 ∧ LoopFrame T a.g.syncPrim (a.frame i) := by
    intro i hi
    have h0 : i ≠ 0 := by
      rintro rfl
      cases (place_running hi).symm.trans hpark
    exact ⟨h0, h.loop i h0 (by simp [place_running hi])⟩
  have hcalls : ∀ {i : ℕ} {e : Option (Fin n)} {u : TokenPc n} {cl : Call (TokenPc n)}
      {ret : Option ℕ → TokenPc n} {g : TokenShared n}, a.sched.running = some i →
      a.frame i = .user u → T.program.next e (a.view i) u a.g = some (cl, ret, g) →
      ∃ w, Calls T (a.slot i) a.g u cl w g := by
    intro i e u cl ret g hi hf hn
    have hfr := (hloop hi).2
    rw [hf] at hfr
    cases hfr with
    | user hu hfit =>
      obtain ⟨w, -, hc⟩ := next_calls hu hfit hn
      exact ⟨w, hc⟩
  have hbefore : T.before a l = a := by
    rcases hr : a.sched.running with _ | i
    · cases l with
      | call e al =>
        change T.writes a = a
        unfold writes
        rw [hr]
        split
        · rename_i hfr
          cases hfr
        · rfl
      | _ => rfl
    · refine before_of_ne hr rfl fun p he => ?_
      have hfr := (hloop hr).2
      rw [he] at hfr
      cases hfr with
      | user hu => exact hu
  rw [hbefore] at hs
  cases hs with
  | act hi hact hstep =>
    exact .act hi (hloop hi).1 (act_acts (hloop hi).2 hact).keep hstep rfl
  | exit hi hf hn hstep =>
    obtain ⟨w, hc⟩ := hcalls hi hf hn
    cases hc with
    | tmnt => exact .exit hi (hloop hi).1 hf hstep rfl ⟨⟨rfl, rfl, rfl, rfl⟩, rfl, rfl⟩
  | create hi hf hn =>
    obtain ⟨w, hc⟩ := hcalls hi hf hn
    cases hc
  | notCreated hi hf hn =>
    obtain ⟨w, hc⟩ := hcalls hi hf hn
    cases hc
  | primMade hi hf hn hc =>
    obtain ⟨w, hcl⟩ := hcalls hi hf hn
    cases hcl <;> cases hc
  | primGone hi hf hn hc =>
    obtain ⟨w, hcl⟩ := hcalls hi hf hn
    cases hcl <;> rcases hc with ⟨hc, -⟩ | ⟨hc, -⟩ <;> cases hc
  | env he => exact .env he rfl rfl ⟨⟨rfl, rfl, rfl, rfl⟩, rfl, rfl⟩

/-! ## Set up -/

/-- `sync_prim` exists, and is of the kind of the build. -/
def Made (T : TokenServer n) (a : AMach (TokenPc n) (TokenShared n)) (p : Addr) : Prop :=
  a.g.syncPrim = some p ∧ a.kind p = some T.build.kind

/-- Nobody has used it yet, and the token is taken: `held` has been written, or the count is still
zero. -/
def Unused (T : TokenServer n) (a : AMach (TokenPc n) (TokenShared n)) (p : Addr) : Prop :=
  (T.build = .lock → a.held p = 1) ∧ (T.build = .semaphore → a.count p = 0)

/-- What the place of thread 0 says about `sync_prim`, and about the thread that it is going to
resume. -/
def MainAt (T : TokenServer n) (a : AMach (TokenPc n) (TokenShared n)) : TokenPc n → Prop
  | .start | .pooled _ => a.sched.newId = 1 ∧ a.g.syncPrim = none
  | .made r => a.sched.newId = 1 ∧ a.g.syncPrim = none ∧
    ∀ p, r = some p → a.kind p = some T.build.kind ∧ (T.build = .semaphore → a.count p = 0)
  | .creation => ∃ p, Made T a p ∧ Unused T a p
  | .creating _ res => (∃ p, Made T a p ∧ Unused T a p) ∧ (res = 0 ∨ a.sched.place res = .ready)
  | .done => ∃ p, Made T a p
  | _ => False

/-- **Set up.** Where the threads can be, and what thread 0 has made by then. -/
structure SetUp (T : TokenServer n) (a : AMach (TokenPc n) (TokenShared n)) : Prop where
  shape : Shape T a
  main : ∃ u, a.frame 0 = .user u ∧ MainAt T a u

/-- **What the steps do to the threads.** A new thread is at `seL4_Recv`. -/
theorem Steps.threads (hs : Steps T a a') :
    ThreadStep .recv (fun i fr r => Acts T a i a' fr r) a a' := by
  cases hs with
  | pool hi _ hq _ hframe | made hi _ hq _ hframe | held hi _ hq _ hframe =>
    exact .main hi hq hframe
  | create hi _ _ hid h0 _ _ _ hplace _ hframe => exact .create hi hid h0 hplace hframe
  | notCreated hi _ _ hq hframe => exact .main hi hq hframe
  | resume hi _ hs hframe => exact .resume hi hs hframe
  | act hi h0 hact hs hframe => exact .act hi h0 hact hs hframe
  | exit hi h0 _ hs hframe => exact .exit hi h0 hs hframe
  | env _ hs hframe => exact .env hs hframe

theorem call_eq {e : Fin n × TokenRequest} {g g' : TokenShared n} (h : call e g = some g') :
    (g.client e.1).may e.2 = true ∧ g' = g.setClient e.1 ((g.client e.1).ask e.2) := by
  unfold call at h
  split at h
  · rename_i hmay
    exact ⟨hmay, (Option.some.inj h).symm⟩
  · cases h

end TokenServer

namespace TokenShared

variable {n : ℕ}

@[simp] theorem multicast_syncPrim (g : TokenShared n) :
    g.processMessageMulticast.syncPrim = g.syncPrim :=
  multicast_induction (P := fun g' : TokenShared n => g'.syncPrim = g.syncPrim) rfl fun _ _ h => h

@[simp] theorem registerClient_syncPrim (g : TokenShared n) (id sl : ℕ) :
    (g.registerClient id sl).syncPrim = g.syncPrim := by
  rw [registerClient]
  split <;> rfl

end TokenShared

namespace TokenServer

open Sched

variable {n : ℕ} {T : TokenServer n} {a a' b : AMach (TokenPc n) (TokenShared n)} {i k : ℕ}
  {l : Label (Option (Fin n)) (Fin n × TokenRequest)}

/-- The server threads leave `sync_prim` alone, and create no primitives. -/
theorem Acts.syncPrim {fr : Frame (TokenPc n)} {r : Req Addr} (h : Acts T a i b fr r) :
    b.g.syncPrim = a.g.syncPrim ∧ b.kind = a.kind := by
  cases h with
  | user hf hd hk =>
    refine ⟨?_, hk.kind⟩
    rw [hk.g]
    cases hd with
    | register => exact TokenShared.registerClient_syncPrim ..
    | _ => rfl
  | alloc hf hfree hg hslot hused hkind =>
    rw [hg]
    exact ⟨rfl, hkind⟩
  | enter hf he hp hk =>
    refine ⟨?_, hk.kind⟩
    rw [hk.g]
    cases he with
    | wait => exact TokenShared.multicast_syncPrim _
    | posted => rfl
  | pass hb hf hp hk =>
    rw [hk.g]
    exact ⟨rfl, hk.kind⟩
  | post hb hf hp hk =>
    rw [hk.g]
    exact ⟨rfl, hk.kind⟩
  | take hf hfree hk => exact ⟨by rw [hk.g], hk.kind⟩
  | spin hf hr hbusy hk | sleep hf hr hbusy hk | passed hb hf hk => exact ⟨by rw [hk.g], hk.kind⟩

/-- `sync_prim` does not change once thread 0 has handed over, nor does any other primitive come or
go. -/
theorem Steps.syncPrim (hs : Steps T a a') (hrun : a.sched.running ≠ some 0) :
    a'.g.syncPrim = a.g.syncPrim ∧ a'.kind = a.kind := by
  cases hs with
  | act hi _ hact => exact hact.syncPrim
  | exit hi _ hf hs hframe hk =>
    rw [hk.g]
    exact ⟨rfl, hk.kind⟩
  | env he hs hframe hk =>
    rw [hk.g, (call_eq he).2]
    exact ⟨rfl, hk.kind⟩
  | pool hi | made hi | held hi | create hi | notCreated hi | resume hi => exact absurd hi hrun

namespace SetUp

/-- When thread 0 does not run, it is done, and `sync_prim` exists. -/
theorem made (h : SetUp T a) (hrun : a.sched.running ≠ some 0) :
    a.frame 0 = .user .done ∧ ∃ p, Made T a p := by
  obtain ⟨u, hu, hat⟩ := h.main
  rcases h.shape.zero with ⟨_, hi, _⟩ | ⟨-, w, hw, rfl⟩
  · exact absurd hi hrun
  · obtain rfl := Frame.user.inj (hu.symm.trans hw)
    exact ⟨hu, hat⟩

/-- Before `sync_prim` is assigned there is no server thread. -/
theorem no_thread (h : SetUp T a) (hsync : a.g.syncPrim = none) (h0 : k ≠ 0) :
    a.sched.place k = .nowhere := by
  obtain ⟨u, hu, hat⟩ := h.main
  have hone : a.sched.newId = 1 := by
    cases u with
    | start | pooled | made => exact hat.1
    | creation =>
      obtain ⟨p, hp, -⟩ := hat
      cases hsync.symm.trans hp.1
    | creating =>
      obtain ⟨⟨p, hp, -⟩, -⟩ := hat
      cases hsync.symm.trans hp.1
    | done =>
      obtain ⟨p, hp⟩ := hat
      cases hsync.symm.trans hp.1
    | _ => exact hat.elim
  by_contra hk
  have hlt := a.sched.place_lt hk
  omega

/-- What thread 0 has made when it creates threads: a token that nobody has used. -/
theorem made_of_create (h : SetUp T a) {u : TokenPc n} {left : ℕ} (hf : a.frame 0 = .user u)
    (hu : u = .creation ∨ ∃ res, u = .creating (left + 1) res) :
    ∃ p, Made T a p ∧ Unused T a p := by
  obtain ⟨w, hw, hat⟩ := h.main
  obtain rfl := Frame.user.inj (hw.symm.trans hf)
  rcases hu with rfl | ⟨res, rfl⟩
  · exact hat
  · exact hat.1

/-- `sync_prim` is assigned once, before there is a thread. -/
theorem syncPrim_kept (h : SetUp T a) (hs : Steps T a a') (h0 : k ≠ 0)
    (hk : a.sched.place k ≠ .nowhere) : a'.g.syncPrim = a.g.syncPrim := by
  by_cases hrun : a.sched.running = some 0
  · cases hs with
    | pool _ _ _ _ _ hg => rw [hg]
    | made _ _ _ _ _ hg => rw [hg]
    | held hi hf =>
      obtain ⟨u, hu, hat⟩ := h.main
      obtain rfl := Frame.user.inj (hu.symm.trans hf)
      exact absurd (h.no_thread hat.2.1 h0) hk
    | create _ _ _ _ _ _ _ _ _ _ _ hg => rw [hg]
    | notCreated _ _ _ _ _ hg => rw [hg]
    | resume _ _ _ _ hk => rw [hk.g]
    | act hi _ hact => exact hact.syncPrim.1
    | exit _ _ _ _ _ hk =>
      rw [hk.g]
      rfl
    | env he _ _ hk =>
      rw [hk.g, (call_eq he).2]
      rfl
  · exact (hs.syncPrim hrun).1

/-- The next step of thread 0 leads to a place that says what is the case there. -/
theorem main_zero (h : SetUp T a) (hs : Steps T a a') (hrun : a.sched.running = some 0) :
    ∃ u, a'.frame 0 = .user u ∧ MainAt T a' u := by
  obtain ⟨u, hu, hat⟩ := h.main
  have hzero : ∀ {i}, a.sched.running = some i → i = 0 :=
    fun hi => (Option.some.inj (hrun.symm.trans hi)).symm
  have hsame : ∀ {p}, a'.g.syncPrim = a.g.syncPrim → a'.kind = a.kind → a'.held = a.held →
      a'.count = a.count → Made T a p ∧ Unused T a p → Made T a' p ∧ Unused T a' p := by
    intro p hg hkind hheld hcount hp
    simpa only [Made, Unused, hg, hkind, hheld, hcount] using hp
  cases hs with
  | @pool r hi hf hq hnew hframe hg =>
    obtain rfl := Frame.user.inj (hu.symm.trans hf)
    refine ⟨.pooled r, by rw [hframe, Function.update_self], hnew.trans hat.1, ?_⟩
    rw [hg]
    exact hat.2
  | @made q r hi hf hq hnew hframe hg hslot hused hr =>
    obtain rfl := Frame.user.inj (hu.symm.trans hf)
    refine ⟨.made r, by rw [hframe, Function.update_self], hnew.trans hat.1, ?_, hr⟩
    rw [hg]
    exact hat.2
  | @held p hi hf hq hnew hframe hk hheld hcount =>
    obtain rfl := Frame.user.inj (hu.symm.trans hf)
    obtain ⟨hkind, hzero⟩ := hat.2.2 p rfl
    refine ⟨.creation, by rw [hframe, Function.update_self], p, ⟨?_, ?_⟩, hheld, ?_⟩
    · rw [hk.g]
    · rw [hk.kind, hkind]
    · rwa [hcount]
  | @create u' left id sl hi hf hu' hid h0 _ _ _ hplace _ hframe hg hslot hused hkind hheld
      hcount =>
    obtain ⟨p, hp⟩ := h.made_of_create hf hu'
    refine ⟨.creating left id, ?_, ⟨p, hsame (by rw [hg]) hkind hheld hcount hp⟩, .inr ?_⟩
    · rw [hframe, Function.update_of_ne h0.symm, Function.update_self]
    · rw [hplace, Function.update_self]
  | @notCreated u' left hi hf hu' hq hframe hg hslot hused hkind hheld hcount =>
    obtain ⟨p, hp⟩ := h.made_of_create hf hu'
    exact ⟨.creating left 0, by rw [hframe, Function.update_self],
      ⟨p, hsame (by rw [hg]) hkind hheld hcount hp⟩, .inl rfl⟩
  | resume hi hf hs hframe hk =>
    obtain rfl := Frame.user.inj (hu.symm.trans hf)
    obtain ⟨⟨p, hp⟩, -⟩ := hat
    exact ⟨.done, by rw [hframe, Function.update_self], p,
      (hsame (by rw [hk.g]) hk.kind hk.held hk.count hp).1⟩
  | act hi h0 => exact absurd (hzero hi) h0
  | exit hi h0 => exact absurd (hzero hi) h0
  | env he hs hframe hk =>
    have hg : a'.g.syncPrim = a.g.syncPrim := by
      rw [hk.g, (call_eq he).2]
      rfl
    refine ⟨u, hframe ▸ hu, ?_⟩
    cases u <;> simp only [MainAt, Made, Unused, hs, hg, hk.kind, hk.held, hk.count] at hat ⊢ <;>
      exact hat

/-- **Every step keeps the server set up**, those of thread 0 and of the server threads. -/
theorem next (h : SetUp T a) (hs : Steps T a a') (hz : a'.Zero TokenPc.InMain (· = .done)) :
    SetUp T a' := by
  refine ⟨⟨hz, fun k h0 hk => ?_⟩, ?_⟩
  · -- the threads that were there keep their `sync_prim`, and a new one has not looked at it
    by_cases hold : a.sched.place k = .nowhere
    · rcases hs.threads.frame_of_ne h0 hk fun hrun => by simp [place_running hrun] at hold with
        ⟨hp, -⟩ | ⟨-, he⟩
      · exact absurd hold hp
      · rw [he]
        exact .user trivial trivial
    · rw [h.syncPrim_kept hs h0 hold]
      exact hs.threads.frames (Q := LoopFrame T a.g.syncPrim) (.user trivial trivial)
        (fun _ _ _ hact hloop => hact.loopFrame hloop) (fun i hi => h.shape.loop i hi.1 hi.2) k
        ⟨h0, hk⟩
  · by_cases hrun : a.sched.running = some 0
    · exact h.main_zero hs hrun
    · obtain ⟨hdone, p, hmade⟩ := h.made hrun
      obtain ⟨hsync, hkind⟩ := hs.syncPrim hrun
      refine ⟨.done, ?_, p, hsync.trans hmade.1, by rw [hkind, hmade.2]⟩
      cases hs with
      | act hi h0 _ _ hframe => rw [hframe, Function.update_of_ne h0.symm, hdone]
      | exit hi h0 _ _ hframe => rw [hframe, hdone]
      | env _ _ hframe => rw [hframe, hdone]
      | pool hi | made hi | held hi | create hi | notCreated hi | resume hi =>
        exact absurd hi hrun

theorem initial (h : a.Init T.program) : SetUp T a := by
  have hg : a.g = .initialClientPool n := h.g
  refine ⟨⟨.inl ⟨_, h.running, h.frame, trivial⟩, ?_⟩, _, h.frame, h.newId, ?_⟩
  · exact fun i h0 hi => absurd (h.place i h0) hi
  · rw [hg]
    rfl

end SetUp

/-! ## All runs -/

/-- The one thread that is resumed is ready: it is the last one that has been created, and nobody
else has run. -/
theorem resumesReady {m : Mach (TokenPc n) (TokenShared n)} (ha : SetUp T a)
    (h : Sim T.program False m (T.before a l)) : ResumesReady T.program m l := by
  obtain ⟨f, hbefore⟩ := T.before_eq a l
  rw [hbefore] at h
  -- a thread that makes a call runs, and is thread 0 or in its loop
  have hcall : ∀ {cl}, m.Calls T.program l cl → (∃ ret g u, Sets T a.g u cl ret g ∧
      a.frame 0 = .user u) ∨ ∃ i u w g, Calls T (a.slot i) a.g u cl w g := by
    intro cl hc
    obtain ⟨i, hr⟩ := h.running_of_calls hc
    obtain ⟨e, al, u, ret, g, -, hcpu, hn⟩ := hc
    have hf : a.frame i = .user u := (h.cpu i hr).symm.trans hcpu
    rw [h.view hr, h.g] at hn
    rcases eq_or_ne i 0 with rfl | h0
    · rcases ha.shape.zero with ⟨u', -, hu', hmain⟩ | ⟨hpark, -⟩
      · obtain rfl := Frame.user.inj (hf.symm.trans hu')
        exact .inl ⟨ret, g, u, next_sets hmain hn, hf⟩
      · cases (place_running hr).symm.trans hpark
    · have hloop := ha.shape.loop i h0 (by rw [place_running hr]; simp)
      rw [hf] at hloop
      cases hloop with
      | user hu hfit =>
        obtain ⟨w, -, hc⟩ := next_calls hu hfit hn
        exact .inr ⟨i, u, w, g, hc⟩
  intro id hid h0
  rcases Mach.target_cases hid with hc | hc | ⟨cur, new, j, u, hcpu⟩
  · rcases hcall hc with ⟨ret, g, u, hd, hf⟩ | ⟨i, u, w, g, hd⟩
    · cases hd with
      | resume =>
        obtain ⟨w, hw, hat⟩ := ha.main
        obtain rfl := Frame.user.inj (hw.symm.trans hf)
        rw [h.repr.readyIds]
        exact a.sched.ready_iff.mpr (hat.2.resolve_left h0)
    · cases hd
  · rcases hcall hc with ⟨ret, g, u, hd, -⟩ | ⟨i, u, w, g, hd⟩ <;> cases hd
  · obtain ⟨i, hr⟩ := h.running_of_cpu (by simp [hcpu])
    have hf : a.frame i = .join cur new j u := (h.cpu i hr).symm.trans hcpu
    rcases eq_or_ne i 0 with rfl | hi0
    · obtain ⟨w, hw, -⟩ := ha.main
      cases hw.symm.trans hf
    · have hloop := ha.shape.loop i hi0 (by rw [place_running hr]; simp)
      rw [hf] at hloop
      cases hloop

/-- The state `m` of a run is represented by `a`, in which the server is set up. -/
structure Tracks (T : TokenServer n) (m : Mach (TokenPc n) (TokenShared n))
    (a : AMach (TokenPc n) (TokenShared n)) : Prop where
  sim : Sim T.program False m a
  ok : a.Ok
  setUp : SetUp T a

/-- **One more step of a run** is a step of the server, or none. -/
theorem Tracks.step {m m' : Mach (TokenPc n) (TokenShared n)} (h : Tracks T m a)
    (he : T.step m l = .ok m') : ∃ a', Tracks T m' a' ∧ (a' = a ∨ Steps T a a') := by
  obtain ⟨f, hbefore⟩ := T.before_eq a l
  -- the machine behind the write, and the step from there
  obtain ⟨m₁, hsim, he⟩ : ∃ m₁, Sim T.program False m₁ (T.before a l) ∧
      m₁.step T.program l = .ok m' := by
    cases l with
    | call e al => exact ⟨T.takeLock m, takeLock_sim h.sim, he⟩
    | _ => exact ⟨m, h.sim, he⟩
  have hzero : (T.before a l).Zero TokenPc.InMain (· = .done) := by
    rw [hbefore]
    exact h.setUp.shape.zero
  have hok : (T.before a l).Ok := by
    rw [hbefore]
    exact ⟨h.ok.placed, h.ok.created, h.ok.exited, h.ok.parked, h.ok.prims⟩
  have hcalm := T.handover.calm hzero hsim (resumesReady h.setUp hsim) he
  by_cases hl : ∃ t junk, l = .scribble t junk
  · obtain ⟨t, junk, rfl⟩ := hl
    obtain ⟨a', hsim', rfl | hs⟩ := hsim.step hcalm he
    · exact ⟨_, ⟨hsim', h.ok, h.setUp⟩, .inl rfl⟩
    · have hsteps := h.setUp.shape.steps hs
      exact ⟨a', ⟨hsim', hs.ok hok, h.setUp.next hsteps (T.handover.zero_step hzero hs)⟩,
        .inr hsteps⟩
  · obtain ⟨a', hsim', hs⟩ := hsim.step_of_ne hcalm he fun t junk hl' => hl ⟨t, junk, hl'⟩
    have hsteps := h.setUp.shape.steps hs
    exact ⟨a', ⟨hsim', hs.ok hok, h.setUp.next hsteps (T.handover.zero_step hzero hs)⟩,
      .inr hsteps⟩

/-- **Induction along runs.** What holds at the beginning and is kept by the steps of the server
holds in every state of every run. -/
theorem Tracks.induction {Q : AMach (TokenPc n) (TokenShared n) → Prop}
    (init : ∀ a, a.Init T.program → Q a)
    (step : ∀ a a', a.Ok → SetUp T a → Q a → Steps T a a' → Q a')
    {m : Mach (TokenPc n) (TokenShared n)} (hm : Reach T.runs m) : ∃ a, Tracks T m a ∧ Q a := by
  induction hm with
  | init h₀ =>
    obtain ⟨mem, t, link, g, hb, hg, rfl⟩ := h₀
    obtain ⟨a, ha, hsim⟩ : ∃ a, a.Init T.program ∧
        Sim T.program False (Mach.boot T.program mem t link g) a := Sim.boot hb hg False.elim
    exact ⟨a, ⟨hsim, ha.ok, .initial ha⟩, init a ha⟩
  | step _ hs ih =>
    obtain ⟨a, h, hq⟩ := ih
    obtain ⟨a', h', rfl | hsteps⟩ := h.step hs
    · exact ⟨_, h', hq⟩
    · exact ⟨a', h', step a a' h.ok h.setUp hq hsteps⟩

/-- Where the processor is in `server_loop`, a server thread runs: thread 0, when it is done, has
nothing to do, and at such a point there is something to do for some input. -/
theorem Tracks.running_of_loop {m : Mach (TokenPc n) (TokenShared n)} {u : TokenPc n}
    (h : Tracks T m a) (hcpu : m.cpu = .user u) (hu : u.InLoop) {e : Option (Fin n)} {v : View}
    {g : TokenShared n} (hnext : T.next e v u g ≠ none) :
    ∃ i, a.sched.running = some i ∧ i ≠ 0 ∧ a.frame i = .user u := by
  rcases hr : a.sched.running with _ | i
  · obtain ⟨-, -, w, hw, hidle⟩ := h.sim.idle hr
    obtain rfl := Frame.user.inj (hw.symm.trans hcpu)
    exact absurd (hidle e v g) hnext
  · have hf : a.frame i = .user u := (h.sim.cpu i hr).symm.trans hcpu
    refine ⟨i, rfl, ?_, hf⟩
    rintro rfl
    obtain ⟨w, hw, hat⟩ := h.setUp.main
    obtain rfl := Frame.user.inj (hw.symm.trans hf)
    cases w <;> first | exact hat | exact hu

end TokenServer

end GreenLib
