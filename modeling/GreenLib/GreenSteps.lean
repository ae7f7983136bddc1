import GreenLib.Desk
import GreenLib.GreenServer
import GreenLib.Lock

/-!
# The steps of the green server

What a step of the abstract machine can be when the program is the green server (`Steps`). Thread 0
only sets up and hands over, the other threads are in `server_loop` or wait for `lock_global`. All
later invariants of the server are proved along this relation, and every run of the machine is
covered by it (`reach`): the server resumes a thread only once, and that thread is ready.
-/

namespace GreenLib

/-- The frame a call that returns to `u` leaves the thread at. Only `thread_lock_acquire` has a loop
among the calls of the server. -/
def Call.leavesAt {U : Type} (u : U) : Call U → Frame U
  | .acquire l => .acquire false l u
  | _ => .user u

/-- What the calls of the server ask of the scheduler. All others let the caller go on. -/
def Call.asks {U : Type} : Call U → Req Addr
  | .sleep p => .sleep p
  | .wakeup p => .wakeup p
  | .release l => .wakeup l
  | .exit => .exit
  | _ => .stay

namespace GreenServer

open Sched

variable {n : ℕ} {S : GreenServer n} {a a' b : AMach (GreenPc n) (Shared n)} {i k : ℕ}
  {l : Label (Option (Fin n)) (Fin n × Request)}

/-- Where a server thread can be: in `server_loop`, or in `thread_lock_acquire` on the way to the
test. -/
inductive LoopFrame : Frame (GreenPc n) → Prop where
  | user {u : GreenPc n} (hu : u.InLoop) : LoopFrame (.user u)
  | acquire {slept : Bool} {lock : Addr} {role : Role} {c : Fin n} {sl : ℕ} :
    LoopFrame (.acquire slept lock (.serve .test role c sl))

/-- One turn of the waiting loop of `thread_lock_acquire`: the lock is held and nobody else is
ready, or it is held and the thread sleeps, or it is taken. -/
inductive Turns (slept : Bool) (lock : Addr) (u : GreenPc n) :
    Frame (GreenPc n) → Req Addr → Prop where
  | spin : Turns slept lock u (.acquire slept lock u) .stay
  | sleep : Turns slept lock u (.acquire true lock u) (.sleep lock)
  | done : Turns slept lock u (.user u) .stay

/-- The actions of a server thread, with what they leave of the data in `b`. The queues are the
matter of the scheduler. -/
inductive Acts (S : GreenServer n) (a : AMach (GreenPc n) (Shared n)) (i : ℕ)
    (b : AMach (GreenPc n) (Shared n)) : Frame (GreenPc n) → Req Addr → Prop where
  | call {u w : GreenPc n} {cl : Call (GreenPc n)} {g : Shared n} (hf : a.frame i = .user u)
    (hd : Does S (a.view i) a.g u cl w g) (hc : cl ≠ .cspaceAlloc) (hx : cl ≠ .exit)
    (hk : Keeps a b g) : Acts S a i b (cl.leavesAt w) cl.asks
  | alloc {c : Fin n} {sl : ℕ} (hf : a.frame i = .user (.got c .init))
    (hfree : a.slotUsed sl = false) (hg : b.g = a.g.initialClient c)
    (hslot : b.slot = Function.update a.slot i sl)
    (hused : b.slotUsed = Function.update a.slotUsed sl true) (hkind : b.kind = a.kind) :
    Acts S a i b (.user (.inited c a.g.clientNew)) .stay
  | turn {slept : Bool} {lock : Addr} {role : Role} {c : Fin n} {sl : ℕ} {fr : Frame (GreenPc n)}
    {r : Req Addr} (hf : a.frame i = .acquire slept lock (.serve .test role c sl))
    (ht : Turns slept lock (.serve .test role c sl) fr r) (hk : Keeps a b a.g) : Acts S a i b fr r

theorem act_acts {fr : Frame (GreenPc n)} {r : Req Addr} (hf : LoopFrame (a.frame i))
    (h : Act S.program a i l b fr r) : Acts S a i b fr r := by
  -- a call of user code is one of `Does`
  have hcall : ∀ {e : Option (Fin n)} {u : GreenPc n} {cl : Call (GreenPc n)}
      {ret : Option ℕ → GreenPc n} {g : Shared n}, a.frame i = .user u →
      S.program.next e (a.view i) u a.g = some (cl, ret, g) →
      ∃ w, ret = (fun _ => w) ∧ Does S (a.view i) a.g u cl w g := by
    intro e u cl ret g hu hn
    rw [hu] at hf
    cases hf with
    | user hu => exact next_does hu hn
  cases h with
  | plain hu hn hr =>
    rename_i u e al cl ret g
    obtain ⟨w, rfl, hd⟩ := hcall hu hn
    cases hd <;> simp only [Call.req, Option.some.injEq, reduceCtorEq] at hr <;> subst hr
    case recv h => exact .call hu (.recv h) (by simp) (by simp) ⟨rfl, rfl, rfl, rfl⟩
    case immd => exact .call hu .immd (by simp) (by simp) ⟨rfl, rfl, rfl, rfl⟩
    case register h => exact .call hu (.register h) (by simp) (by simp) ⟨rfl, rfl, rfl, rfl⟩
    case change hb ha hp h =>
      exact .call hu (.change h hb ha hp) (by simp) (by simp) ⟨rfl, rfl, rfl, rfl⟩
    case sleepReleased hp =>
      exact .call hu (.sleepReleased hp) (by simp) (by simp) ⟨rfl, rfl, rfl, rfl⟩
    case sleep hl hb hp h =>
      exact .call hu (.sleep hl h hb hp) (by simp) (by simp) ⟨rfl, rfl, rfl, rfl⟩
    case reply => exact .call hu .reply (by simp) (by simp) ⟨rfl, rfl, rfl, rfl⟩
  | primFail hu hn hc =>
    obtain ⟨w, rfl, hd⟩ := hcall hu hn
    cases hd <;> cases hc
  | acquire hu hn =>
    obtain ⟨w, rfl, hd⟩ := hcall hu hn
    exact .call hu hd (by simp) (by simp) ⟨rfl, rfl, rfl, rfl⟩
  | release hu hn =>
    obtain ⟨w, rfl, hd⟩ := hcall hu hn
    exact .call hu hd (by simp) (by simp) ⟨rfl, rfl, rfl, rfl⟩
  | cspaceAlloc hu hn hsl =>
    obtain ⟨w, rfl, hd⟩ := hcall hu hn
    cases hd with
    | init => exact .alloc hu hsl rfl rfl rfl rfl
  | releaseAcquire hu hn =>
    obtain ⟨w, -, hd⟩ := hcall hu hn
    cases hd
  | semP hu hn =>
    obtain ⟨w, -, hd⟩ := hcall hu hn
    cases hd
  | semV hu hn =>
    obtain ⟨w, -, hd⟩ := hcall hu hn
    cases hd
  | cvWait hu hn =>
    obtain ⟨w, -, hd⟩ := hcall hu hn
    cases hd
  | join hu hn =>
    obtain ⟨w, -, hd⟩ := hcall hu hn
    cases hd
  | acquireSpin hu =>
    rw [hu] at hf
    cases hf
    exact .turn hu .spin ⟨rfl, rfl, rfl, rfl⟩
  | acquireSleep hu =>
    rw [hu] at hf
    cases hf
    exact .turn hu .sleep ⟨rfl, rfl, rfl, rfl⟩
  | acquireDone hu =>
    rw [hu] at hf
    cases hf
    exact .turn hu .done ⟨rfl, rfl, rfl, rfl⟩
  | relAcq hu | semPSpin hu | semPSleep hu | semPDone hu | cvSleep hu | cvAcquire hu
  | joinDone hu =>
    rw [hu] at hf
    cases hf
  | joinAgain _ hu =>
    rw [hu] at hf
    cases hf

/-- A server thread stays in its loop, whichever action it takes. -/
theorem Acts.loopFrame {fr : Frame (GreenPc n)} {r : Req Addr} (h : Acts S a i b fr r) :
    LoopFrame fr := by
  cases h with
  | call hf hd hc hx hk =>
    have hw := hd.inLoop.2.resolve_left hx
    cases hd with
    | acquire => exact .acquire
    | _ => exact .user hw
  | alloc => exact .user trivial
  | turn hf ht hk =>
    cases ht with
    | spin => exact .acquire
    | sleep => exact .acquire
    | done => exact .user trivial

/-! ## Steps -/

/-- **The steps of the server.** Each constructor says what becomes of the threads, of the shared
data and of the slots. -/
inductive Steps (S : GreenServer n) (a a' : AMach (GreenPc n) (Shared n)) : Prop where
  /-- thread 0 calls `thread_lock_create` -/
  | lock {got : Option (Global × Ptr)} {x : Global} {xs : List Global} {r : Ptr}
    (hi : a.sched.running = some 0) (hf : a.frame 0 = .user (.pool got (x :: xs)))
    (hgot : ∀ y, got ≠ some (y, none)) (hs : SameQueues a.sched a'.sched)
    (hframe : a'.frame = Function.update a.frame 0 (.user (.pool (some (x, r)) xs)))
    (hg : a'.g = a.g.assign got) (hslot : a'.slot = a.slot) (hused : a'.slotUsed = a.slotUsed)
    (hkind : r = none ∧ a'.kind = a.kind ∨ ∃ p, r = some p ∧ p ∉ a.sched.prims ∧
      a'.kind = Function.update a.kind p (some .lock))
    (hnew : a'.sched.newId = a.sched.newId)
  /-- thread 0 creates a server thread -/
  | create {u : GreenPc n} {left id sl : ℕ} {g : Shared n} (hi : a.sched.running = some 0)
    (hf : a.frame 0 = .user u)
    (hd : Sets S a.g u (.create .recv) (fun r => .creating left (r.getD 0)) g)
    (hid : id = a.sched.newId) (h0 : id ≠ 0) (hrun : a'.sched.running = a.sched.running)
    (hready : a'.sched.ready = a.sched.ready ++ [id]) (hwait : a'.sched.waiting = a.sched.waiting)
    (hplace : a'.sched.place = Function.update a.sched.place id .ready)
    (hfree : a.slotUsed sl = false)
    (hframe : a'.frame = Function.update (Function.update a.frame 0 (.user (.creating left id))) id
      (.user .recv))
    (hg : a'.g = g) (hslot : a'.slot = Function.update a.slot id sl)
    (hused : a'.slotUsed = Function.update a.slotUsed sl true) (hkind : a'.kind = a.kind)
  /-- it tries to, and fails -/
  | notCreated {u : GreenPc n} {left : ℕ} {g : Shared n} (hi : a.sched.running = some 0)
    (hf : a.frame 0 = .user u)
    (hd : Sets S a.g u (.create .recv) (fun r => .creating left (r.getD 0)) g)
    (hs : SameQueues a.sched a'.sched)
    (hframe : a'.frame = Function.update a.frame 0 (.user (.creating left 0)))
    (hg : a'.g = g) (hslot : a'.slot = a.slot)
    (hused : ∀ sl, a.slotUsed sl = true → a'.slotUsed sl = true) (hkind : a'.kind = a.kind)
  /-- thread 0 resumes a server thread -/
  | resume {res : ℕ} (hi : a.sched.running = some 0) (hf : a.frame 0 = .user (.creating 0 res))
    (hs : Step a.sched 0 (.resume res) a'.sched)
    (hframe : a'.frame = Function.update a.frame 0 (.user .done)) (hk : Keeps a a' a.g)
  /-- a server thread goes on -/
  | act {i : ℕ} {fr : Frame (GreenPc n)} {r : Req Addr} (hi : a.sched.running = some i)
    (h0 : i ≠ 0) (hact : Acts S a i a' fr r) (hs : Step a.sched i r a'.sched)
    (hframe : a'.frame = Function.update a.frame i fr)
  | exit {i : ℕ} {c : Fin n} (hi : a.sched.running = some i) (h0 : i ≠ 0)
    (hf : a.frame i = .user (.got c .tmnt)) (hs : Step a.sched i .exit a'.sched)
    (hframe : a'.frame = a.frame) (hk : Keeps a a' (a.g.terminate c))
  /-- a client makes a call -/
  | env {e : Fin n × Request} {g : Shared n} (he : S.call e a.g = some g)
    (hs : a'.sched = a.sched) (hframe : a'.frame = a.frame) (hk : Keeps a a' g)

/-- **Who writes the shared data**: thread 0 writes the variables of the pool, a server thread what
`Does` says, and a client its own part. -/
theorem Steps.shared (hs : Steps S a a') : (∃ q, a'.g = { a.g with prim := q }) ∨
    (∃ i u cl w, a.sched.running = some i ∧ a.frame i = .user u ∧
      Does S (a.view i) a.g u cl w a'.g) ∨ ∃ e, S.call e a.g = some a'.g := by
  cases hs with
  | @lock got x xs r hi hf hgot _ _ hg =>
    have hd : Sets S a.g (.pool got (x :: xs)) .lockCreate (fun r => .pool (some (x, r)) xs)
      (a.g.assign got) := .lock hgot
    exact .inl (hg ▸ hd.shared)
  | create hi hf hd _ _ _ _ _ _ _ _ hg => exact .inl (hg ▸ hd.shared)
  | notCreated hi hf hd _ _ hg => exact .inl (hg ▸ hd.shared)
  | resume _ _ _ _ hk => exact .inl ⟨a.g.prim, hk.g⟩
  | act hi h0 hact =>
    cases hact with
    | call hf hd _ _ hk => exact .inr (.inl ⟨_, _, _, _, hi, hf, hk.g ▸ hd⟩)
    | alloc hf _ hg =>
      rw [hg]
      exact .inr (.inl ⟨_, _, _, _, hi, hf, .init⟩)
    | turn _ _ hk => exact .inl ⟨a.g.prim, hk.g⟩
  | exit hi h0 hf _ _ hk =>
    rw [hk.g]
    exact .inr (.inl ⟨_, _, _, _, hi, hf, .tmnt⟩)
  | env he _ _ hk => exact .inr (.inr ⟨_, hk.g ▸ he⟩)

/-- Thread 0 is in `main_continued`, the other threads are in their loops. -/
structure Shape (a : AMach (GreenPc n) (Shared n)) : Prop where
  zero : a.Zero GreenPc.InMain (· = .done)
  loop : ∀ i, i ≠ 0 → a.sched.place i ≠ .nowhere → LoopFrame (a.frame i)

theorem Acts.keep {fr : Frame (GreenPc n)} {r : Req Addr} {sched : Sched Addr}
    {frame : ℕ → Frame (GreenPc n)} (h : Acts S a i b fr r) :
    Acts S a i { b with sched := sched, frame := frame } fr r := by
  cases h with
  | call hf hd hc hx hk => exact .call hf hd hc hx ⟨hk.g, hk.slot, hk.slotUsed, hk.kind⟩
  | alloc hf hfree hg hslot hused hkind => exact .alloc hf hfree hg hslot hused hkind
  | turn hf ht hk => exact .turn hf ht ⟨hk.g, hk.slot, hk.slotUsed, hk.kind⟩

/-- What thread 0 does, as a step of the server. -/
theorem zero_steps {u : GreenPc n} (hi : a.sched.running = some 0) (hf : a.frame 0 = .user u)
    (hu : u.InMain) (hs : AStep S.program a l a') : Steps S a a' := by
  have hzero : ∀ {i}, a.sched.running = some i → i = 0 :=
    fun hi' => (Option.some.inj (hi.symm.trans hi')).symm
  have hsets : ∀ {e : Option (Fin n)} {u' : GreenPc n} {cl : Call (GreenPc n)}
      {ret : Option ℕ → GreenPc n} {g : Shared n}, a.frame 0 = .user u' →
      S.program.next e (a.view 0) u' a.g = some (cl, ret, g) → Sets S a.g u' cl ret g := by
    intro e u' cl ret g hf' hn
    obtain rfl := Frame.user.inj (hf.symm.trans hf')
    exact next_sets hu hn
  cases hs with
  | act hi' hact hstep =>
    obtain rfl := hzero hi'
    cases hact with
    | plain hf' hn hr =>
      cases hsets hf' hn <;> cases hr
      exact .resume hi hf' hstep rfl ⟨rfl, rfl, rfl, rfl⟩
    | primFail hf' hn hc =>
      cases hstep
      cases hsets hf' hn <;> cases hc
      rename_i hgot
      exact .lock hi hf' hgot ⟨rfl, rfl, rfl, rfl⟩ rfl rfl rfl rfl (.inl ⟨rfl, rfl⟩) rfl
    | acquire hf' hn | release hf' hn | releaseAcquire hf' hn | semP hf' hn | semV hf' hn
    | cvWait hf' hn | join hf' hn | cspaceAlloc hf' hn => cases hsets hf' hn
    | acquireSpin hf' | acquireSleep hf' | acquireDone hf' | relAcq hf' | semPSpin hf'
    | semPSleep hf' | semPDone hf' | cvSleep hf' | cvAcquire hf' | joinDone hf' =>
      cases hf.symm.trans hf'
    | joinAgain _ hf' => cases hf.symm.trans hf'
  | exit hi' hf' hn =>
    obtain rfl := hzero hi'
    cases hsets hf' hn
  | create hi' hf' hn hid h0 hnew hprims hrun hready hwait hplace hsl =>
    obtain rfl := hzero hi'
    have hd := hsets hf' hn
    cases hd with
    | start hgot hk =>
      exact .create hi hf' (.start hgot hk) hid h0 hrun hready hwait hplace hsl rfl rfl rfl rfl rfl
    | create =>
      exact .create hi hf' .create hid h0 hrun hready hwait hplace hsl rfl rfl rfl rfl rfl
  | notCreated hi' hf' hn hsched hused =>
    obtain rfl := hzero hi'
    have hq : ∀ {x}, x = a.sched ∨ x = a.sched.fresh → SameQueues a.sched x := by
      rintro x (rfl | rfl) <;> exact ⟨rfl, rfl, rfl, rfl⟩
    cases hsets hf' hn with
    | start hgot hk => exact .notCreated hi hf' (.start hgot hk) (hq hsched) rfl rfl rfl hused rfl
    | create => exact .notCreated hi hf' .create (hq hsched) rfl rfl rfl hused rfl
  | primMade hi' hf' hn hc hal hp =>
    obtain rfl := hzero hi'
    cases hsets hf' hn <;> cases hc
    rename_i hgot
    exact .lock hi hf' hgot ⟨rfl, rfl, rfl, rfl⟩ rfl rfl rfl rfl (.inr ⟨_, rfl, hp, rfl⟩) rfl
  | primGone hi' hf' hn hc =>
    obtain rfl := hzero hi'
    cases hsets hf' hn <;> rcases hc with ⟨hc, -⟩ | ⟨hc, -⟩ <;> cases hc
  | env he => exact .env he rfl rfl ⟨rfl, rfl, rfl, rfl⟩

/-- **Inversion.** A step of the abstract machine is one of these, as long as the threads are where
they should be. -/
theorem Shape.steps (h : Shape a) (hs : AStep S.program a l a') : Steps S a a' := by
  rcases h.zero with ⟨u, hi, hf, hu⟩ | ⟨hpark, -⟩
  · exact zero_steps hi hf hu hs
  have hloop : ∀ {i}, a.sched.running = some i → i ≠ 0 ∧ LoopFrame (a.frame i) := by
    intro i hi
    have h0 : i ≠ 0 := by
      rintro rfl
      cases (place_running hi).symm.trans hpark
    exact ⟨h0, h.loop i h0 (by rw [place_running hi]; nofun)⟩
  have hdoes : ∀ {i : ℕ} {e : Option (Fin n)} {u : GreenPc n} {cl : Call (GreenPc n)}
      {ret : Option ℕ → GreenPc n} {g : Shared n}, a.sched.running = some i → a.frame i = .user u →
      S.program.next e (a.view i) u a.g = some (cl, ret, g) →
      ∃ w, Does S (a.view i) a.g u cl w g := by
    intro i e u cl ret g hi hf hn
    have hfr := (hloop hi).2
    rw [hf] at hfr
    cases hfr with
    | user hu =>
      obtain ⟨w, -, hd⟩ := next_does hu hn
      exact ⟨w, hd⟩
  cases hs with
  | act hi hact hstep =>
    exact .act hi (hloop hi).1 (act_acts (hloop hi).2 hact).keep hstep rfl
  | exit hi hf hn hstep =>
    obtain ⟨w, hd⟩ := hdoes hi hf hn
    cases hd with
    | tmnt => exact .exit hi (hloop hi).1 hf hstep rfl ⟨rfl, rfl, rfl, rfl⟩
  | create hi hf hn =>
    obtain ⟨w, hd⟩ := hdoes hi hf hn
    cases hd
  | notCreated hi hf hn =>
    obtain ⟨w, hd⟩ := hdoes hi hf hn
    cases hd
  | primMade hi hf hn hc =>
    obtain ⟨w, hd⟩ := hdoes hi hf hn
    cases hd <;> cases hc
  | primGone hi hf hn hc =>
    obtain ⟨w, hd⟩ := hdoes hi hf hn
    cases hd <;> rcases hc with ⟨hc, -⟩ | ⟨hc, -⟩ <;> cases hc
  | env he => exact .env he rfl rfl ⟨rfl, rfl, rfl, rfl⟩

/-! ## The pool -/

/-- The locks of the pool that are not in `todo` have been created, and are different. -/
structure Assigned (kind : Addr → Option PrimKind) (prim : Global → Ptr) (todo : List Global) :
    Prop where
  made : ∀ x, x ∉ todo → ∃ p, prim x = some p
  kind : ∀ x p, prim x = some p → kind p = some .lock
  inj : ∀ x y p, prim x = some p → prim y = some p → x = y

/-- `thread_lock_create` has returned `p` for the next variable, which was no lock before. -/
theorem Assigned.create {kind : Addr → Option PrimKind} {prim : Global → Ptr} {x : Global}
    {xs : List Global} (h : Assigned kind prim (x :: xs)) {p : Addr} (hp : kind p = none) :
    Assigned (Function.update kind p (some .lock)) (Function.update prim x (some p)) xs := by
  have hold : ∀ y q, prim y = some q → q ≠ p := by
    rintro y q hq rfl
    cases hp.symm.trans (h.kind y q hq)
  refine ⟨fun y hy => ?_, fun y q hq => ?_, fun y z q hy hz => ?_⟩
  · rcases eq_or_ne y x with rfl | hne
    · exact ⟨p, Function.update_self ..⟩
    · rw [Function.update_of_ne hne]
      exact h.made y (by simp [hne, hy])
  · rcases eq_or_ne y x with rfl | hne
    · rw [Function.update_self] at hq
      rw [← Option.some.inj hq, Function.update_self]
    · rw [Function.update_of_ne hne] at hq
      rw [Function.update_of_ne (hold y q hq)]
      exact h.kind y q hq
  · rcases eq_or_ne y x with rfl | hny <;> rcases eq_or_ne z y with rfl | hnz
    · rfl
    · rw [Function.update_self] at hy
      rw [Function.update_of_ne hnz] at hz
      exact absurd (Option.some.inj hy).symm (hold z q hz)
    · rfl
    · rw [Function.update_of_ne hny] at hy
      rcases eq_or_ne z x with rfl | hzx
      · rw [Function.update_self] at hz
        exact absurd (Option.some.inj hz).symm (hold y q hy)
      · rw [Function.update_of_ne hzx] at hz
        exact h.inj y z q hy hz

/-- The lists of the two roles are different, since they have been created one after the other, -/
theorem Assigned.list_inj {kind : Addr → Option PrimKind} {g : Shared n} {todo : List Global}
    (h : Assigned kind g.prim todo) {role role' : Role} {p : Addr} (hp : g.list role = some p)
    (hp' : g.list role' = some p) : role = role' := by
  cases role <;> cases role' <;> first | rfl | cases h.inj _ _ p hp hp'

/-- and neither is `lock_global`, so nobody is woken from a list by a release. -/
theorem Assigned.list_ne {kind : Addr → Option PrimKind} {g : Shared n} {todo : List Global}
    (h : Assigned kind g.prim todo) {role : Role} {p : Addr} (hp : g.list role = some p) :
    g.prim .lockGlobal ≠ some p := by
  intro hl
  cases role <;> cases h.inj _ _ p hp hl

/-- What the place of thread 0 says about the pool: which locks it has created, and whether the
thread it is going to resume is ready. -/
def PoolAt (a : AMach (GreenPc n) (Shared n)) : GreenPc n → Prop
  | .pool got todo => a.sched.newId = 1 ∧
    ((∃ y, got = some (y, none)) ∨ Assigned a.kind (a.g.assign got).prim todo)
  | .creating _ res => Assigned a.kind a.g.prim [] ∧ (res = 0 ∨ a.sched.place res = .ready)
  | .done => Assigned a.kind a.g.prim []
  | _ => False

/-- **Set up.** The locks of the pool are as the place of thread 0 says, and server threads acquire
`lock_global` only. -/
structure SetUp (a : AMach (GreenPc n) (Shared n)) : Prop where
  shape : Shape a
  main : ∃ u, a.frame 0 = .user u ∧ PoolAt a u
  lock : ∀ i slept lk u, i ≠ 0 → a.sched.place i ≠ .nowhere → a.frame i = .acquire slept lk u →
    a.g.prim .lockGlobal = some lk

/-- **What the steps do to the threads.** A new thread is at `seL4_Recv`. -/
theorem Steps.threads (hs : Steps S a a') :
    ThreadStep .recv (fun i fr r => Acts S a i a' fr r) a a' := by
  cases hs with
  | lock hi _ _ hq hframe => exact .main hi hq hframe
  | create hi _ _ hid h0 _ _ _ hplace _ hframe => exact .create hi hid h0 hplace hframe
  | notCreated hi _ _ hq hframe => exact .main hi hq hframe
  | resume hi _ hs hframe => exact .resume hi hs hframe
  | act hi h0 hact hs hframe => exact .act hi h0 hact hs hframe
  | exit hi h0 _ hs hframe => exact .exit hi h0 hs hframe
  | env _ hs hframe => exact .env hs hframe

theorem Shape.next (h : Shape a) (hs : Steps S a a')
    (hz : a'.Zero GreenPc.InMain (· = .done)) : Shape a' := by
  refine ⟨hz, fun k h0 hk => ?_⟩
  exact hs.threads.frames (Q := LoopFrame) (.user trivial) (fun _ _ _ hact _ => hact.loopFrame)
    (fun i hi => h.loop i hi.1 hi.2) k ⟨h0, hk⟩

theorem call_prim {e : Fin n × Request} {g g' : Shared n} (h : S.call e g = some g') :
    g'.prim = g.prim := by
  rw [(call_eq h).2]
  rfl

/-- The primitives do not change once thread 0 has handed over, neither the variables nor what they
point to. -/
theorem Steps.prim (hs : Steps S a a') (hrun : a.sched.running ≠ some 0) :
    a'.g.prim = a.g.prim ∧ a'.kind = a.kind := by
  cases hs with
  | act hi _ hact =>
    cases hact with
    | call hf hd hc hx hk => exact ⟨by rw [hk.g, hd.prim], hk.kind⟩
    | alloc hf hfree hg hslot hused hkind =>
      rw [hg]
      exact ⟨rfl, hkind⟩
    | turn hf ht hk => exact ⟨by rw [hk.g], hk.kind⟩
  | exit hi _ hf hs hframe hk =>
    rw [hk.g]
    exact ⟨rfl, hk.kind⟩
  | env he hs hframe hk =>
    rw [hk.g]
    exact ⟨call_prim he, hk.kind⟩
  | lock hi | create hi | notCreated hi | resume hi => exact absurd hi hrun

/-- No primitive is destroyed, by whichever step. -/
theorem Steps.kind_kept (hs : Steps S a a') (hok : a.Ok) {p : Addr} {q : PrimKind}
    (hp : a.kind p = some q) : a'.kind p = some q := by
  cases hs with
  | lock _ _ _ _ _ _ _ _ hkind =>
    rcases hkind with ⟨-, hk⟩ | ⟨p', -, hnew, hk⟩
    · rwa [hk]
    · have hne : p ≠ p' := by
        rintro rfl
        exact hnew ((hok.prims p).mpr (by simp [hp]))
      rwa [hk, Function.update_of_ne hne]
  | create _ _ _ _ _ _ _ _ _ _ _ _ _ _ hk => rwa [hk]
  | notCreated _ _ _ _ _ _ _ _ hk => rwa [hk]
  | resume _ _ _ _ hk => rwa [hk.kind]
  | act _ _ hact =>
    cases hact with
    | call _ _ _ _ hk => rwa [hk.kind]
    | alloc _ _ _ _ _ hk => rwa [hk]
    | turn _ _ hk => rwa [hk.kind]
  | exit _ _ _ _ _ hk => rwa [hk.kind]
  | env _ _ _ hk => rwa [hk.kind]

namespace SetUp

/-- While the pool is set up, there is no server thread, because no id has been given out. -/
theorem no_thread (h : SetUp a) {got : Option (Global × Ptr)} {todo : List Global}
    (hf : a.frame 0 = .user (.pool got todo)) (h0 : k ≠ 0) : a.sched.place k = .nowhere := by
  obtain ⟨u, hu, hat⟩ := h.main
  obtain rfl := Frame.user.inj (hu.symm.trans hf)
  by_contra hk
  have hlt := a.sched.place_lt hk
  rw [hat.1] at hlt
  omega

/-- When a server thread runs, the pool is complete and thread 0 has finished. -/
theorem assigned (h : SetUp a) (hrun : a.sched.running ≠ some 0) :
    a.frame 0 = .user .done ∧ Assigned a.kind a.g.prim [] := by
  obtain ⟨u, hu, hat⟩ := h.main
  rcases h.shape.zero with ⟨_, hi, _⟩ | ⟨-, w, hw, rfl⟩
  · exact absurd hi hrun
  · obtain rfl := Frame.user.inj (hu.symm.trans hw)
    exact ⟨hu, hat⟩

/-- What thread 0 has assigned when it creates threads: all four locks. -/
theorem assigned_of_create (h : SetUp a) {u : GreenPc n} (hf : a.frame 0 = .user u)
    {ret : Option ℕ → GreenPc n} {g : Shared n} (hd : Sets S a.g u (.create .recv) ret g) :
    Assigned a.kind g.prim [] := by
  obtain ⟨w, hw, hat⟩ := h.main
  obtain rfl := Frame.user.inj (hw.symm.trans hf)
  cases hd with
  | start hgot => exact hat.2.resolve_left fun ⟨y, hy⟩ => hgot y hy
  | create => exact hat.1

/-- The next step of thread 0 leads to a place that says the right thing about the pool. -/
theorem main_zero (h : SetUp a) (hok : a.Ok) (hs : Steps S a a') (hrun : a.sched.running = some 0) :
    ∃ u, a'.frame 0 = .user u ∧ PoolAt a' u := by
  obtain ⟨u, hu, hat⟩ := h.main
  have hzero : ∀ {i}, a.sched.running = some i → i = 0 :=
    fun hi => (Option.some.inj (hrun.symm.trans hi)).symm
  cases hs with
  | @lock got x xs r hi hf hgot hq hframe hg hslot hused hkind hnew =>
    obtain rfl := Frame.user.inj (hu.symm.trans hf)
    refine ⟨.pool (some (x, r)) xs, by rw [hframe, Function.update_self], hnew.trans hat.1, ?_⟩
    rcases hkind with ⟨rfl, -⟩ | ⟨p, rfl, hp, hkind⟩
    · exact .inl ⟨x, rfl⟩
    · have hassigned := hat.2.resolve_left fun ⟨y, hy⟩ => hgot y hy
      have hfresh : a.kind p = none := by
        by_contra hne
        exact hp ((hok.prims p).mpr hne)
      rw [hkind, Shared.assign, hg]
      exact .inr (hassigned.create hfresh)
  | @create _ left id sl g hi hf hd hid h0 _ _ _ hplace _ hframe hg hslot hused hkind =>
    refine ⟨.creating left id, ?_, ?_, .inr ?_⟩
    · rw [hframe, Function.update_of_ne h0.symm, Function.update_self]
    · rw [hkind, hg]
      exact h.assigned_of_create hf hd
    · rw [hplace, Function.update_self]
  | @notCreated _ left g hi hf hd hq hframe hg hslot hused hkind =>
    refine ⟨.creating left 0, by rw [hframe, Function.update_self], ?_, .inl rfl⟩
    rw [hkind, hg]
    exact h.assigned_of_create hf hd
  | resume hi hf hs hframe hk =>
    obtain rfl := Frame.user.inj (hu.symm.trans hf)
    refine ⟨.done, by rw [hframe, Function.update_self], ?_⟩
    rw [PoolAt, hk.g, hk.kind]
    exact hat.1
  | act hi h0 => exact absurd (hzero hi) h0
  | exit hi h0 => exact absurd (hzero hi) h0
  | env he hs hframe hk =>
    refine ⟨u, hframe ▸ hu, ?_⟩
    have hprim : a'.g.prim = a.g.prim := by
      rw [hk.g]
      exact call_prim he
    cases u with
    | pool got todo =>
      refine ⟨hs ▸ hat.1, hat.2.imp_right fun hassigned => ?_⟩
      rw [hk.kind]
      rcases got with _ | ⟨x, p⟩ <;> simp only [Shared.assign, hprim] at hassigned ⊢ <;>
        exact hassigned
    | creating left res =>
      rw [PoolAt, hk.kind, hprim, hs]
      exact hat
    | done =>
      rw [PoolAt, hk.kind, hprim]
      exact hat
    | _ => exact hat.elim

/-- While thread 0 acts, the variables stay as they are if there is a server thread already. -/
theorem prim_zero (h : SetUp a) (hs : Steps S a a') (hrun : a.sched.running = some 0) (h0 : k ≠ 0)
    (hk : a.sched.place k ≠ .nowhere) : a'.g.prim = a.g.prim := by
  have hzero : ∀ {i}, a.sched.running = some i → i = 0 :=
    fun hi => (Option.some.inj (hrun.symm.trans hi)).symm
  have hcreate : ∀ {u ret g}, a.frame 0 = .user u → Sets S a.g u (.create .recv) ret g →
      g.prim = a.g.prim := by
    intro u ret g hf hd
    cases hd with
    | start => exact absurd (h.no_thread hf h0) hk
    | create => rfl
  cases hs with
  | lock hi hf => exact absurd (h.no_thread hf h0) hk
  | create hi hf hd _ _ _ _ _ _ _ _ hg => rw [hg, hcreate hf hd]
  | notCreated hi hf hd _ _ hg => rw [hg, hcreate hf hd]
  | resume hi hf hs hframe hk => rw [hk.g]
  | act hi h0 => exact absurd (hzero hi) h0
  | exit hi h0 => exact absurd (hzero hi) h0
  | env he _ _ hk => rw [hk.g, call_prim he]

/-- **Every step keeps the server set up**, with thread 0 in its place and the others in their
loops. -/
theorem next (h : SetUp a) (hok : a.Ok) (hs : Steps S a a')
    (hz : a'.Zero GreenPc.InMain (· = .done)) : SetUp a' := by
  refine ⟨h.shape.next hs hz, ?_, ?_⟩
  · by_cases hrun : a.sched.running = some 0
    · exact h.main_zero hok hs hrun
    · obtain ⟨hdone, hassigned⟩ := h.assigned hrun
      obtain ⟨hprim, hkind⟩ := hs.prim hrun
      refine ⟨.done, ?_, by rwa [PoolAt, hprim, hkind]⟩
      cases hs with
      | act hi h0 _ _ hframe => rw [hframe, Function.update_of_ne h0.symm, hdone]
      | exit hi h0 _ _ hframe => rw [hframe, hdone]
      | env _ _ hframe => rw [hframe, hdone]
      | lock hi | create hi | notCreated hi | resume hi => exact absurd hi hrun
  · intro k slept lk u h0 hk hfr
    by_cases hact : a.sched.running = some k
    · -- the thread itself has gone to its acquire, or goes on with it
      have hrun : a.sched.running ≠ some 0 := by
        rw [hact]
        exact fun he => h0 (Option.some.inj he)
      have hold := h.lock k slept lk u h0 (by rw [place_running hact]; nofun)
      rw [(hs.prim hrun).1]
      cases hs with
      | act hi _ ha _ hframe =>
        obtain rfl := Option.some.inj (hact.symm.trans hi)
        rw [hframe, Function.update_self] at hfr
        cases ha with
        | call hf hd hc hx hkeep =>
          cases hd with
          | acquire hl hE hp =>
            cases hfr
            exact hp
          | _ => cases hfr
        | alloc => cases hfr
        | turn hf ht hkeep =>
          have hlock := h.lock k _ _ _ h0 (by rw [place_running hact]; nofun) hf
          cases ht <;> cases hfr <;> exact hlock
      | exit _ _ _ _ hframe =>
        rw [hframe] at hfr
        exact hold hfr
      | env _ _ hframe =>
        rw [hframe] at hfr
        exact hold hfr
      | lock hi | create hi | notCreated hi | resume hi => exact absurd hi hrun
    · rcases hs.threads.frame_of_ne h0 hk hact with ⟨hp, he⟩ | ⟨-, he⟩
      · rw [he] at hfr
        have hold := h.lock k slept lk u h0 hp hfr
        by_cases hrun : a.sched.running = some 0
        · rwa [h.prim_zero hs hrun h0 hp]
        · rwa [(hs.prim hrun).1]
      · rw [he] at hfr
        cases hfr

theorem initial (h : a.Init S.program) : SetUp a := by
  have hg : a.g = .initialClientPool n S.limit := h.g
  have hplace : ∀ i, i ≠ 0 → a.sched.place i = .nowhere := h.place
  refine ⟨⟨.inl ⟨_, h.running, h.frame, trivial⟩, ?_⟩, ⟨_, h.frame, h.newId, .inr ?_⟩, ?_⟩
  · exact fun i h0 hi => absurd (hplace i h0) hi
  · refine ⟨fun x hx => ?_, fun x p hp => ?_, fun x y p hx => ?_⟩
    · cases x <;> simp at hx
    · rw [hg] at hp
      cases hp
    · rw [hg] at hx
      cases hx
  · exact fun i slept lk u h0 hi => absurd (hplace i h0) hi

/-- **The server is set up in every run of the abstract machine**, by induction over the steps. -/
theorem of_reach (h : Reach S.program.aruns a) : SetUp a := by
  induction h with
  | init h₀ => exact initial h₀
  | step hr hs ih =>
    exact ih.next hr.ok (ih.shape.steps hs) ((handover S).zero (.step hr hs))

/-- What a variable of the pool holds is a lock, also while the pool is set up. -/
theorem kind_of_prim (h : Reach S.program.aruns a) {x : Global} {p : Addr}
    (hp : a.g.prim x = some p) : a.kind p = some .lock := by
  induction h generalizing x p with
  | init h₀ =>
    have hg : _ = Shared.initialClientPool n S.limit := h₀.g
    rw [hg] at hp
    cases hp
  | @step a a' l hr hs ih =>
    have hset := of_reach hr
    refine (hset.shape.steps hs).kind_kept hr.ok ?_
    have hcreate : ∀ {u ret g}, a.frame 0 = .user u → Sets S a.g u (.create .recv) ret g →
        g.prim x = some p → a.kind p = some .lock := fun hf hd hp =>
      (hset.assigned_of_create hf hd).kind x p hp
    cases hset.shape.steps hs with
    | lock hi hf hgot hq hframe hg =>
      obtain ⟨u, hu, hat⟩ := hset.main
      obtain rfl := Frame.user.inj (hu.symm.trans hf)
      rw [hg] at hp
      exact (hat.2.resolve_left fun ⟨y, hy⟩ => hgot y hy).kind x p hp
    | create hi hf hd _ _ _ _ _ _ _ _ hg => exact hcreate hf hd (hg ▸ hp)
    | notCreated hi hf hd _ _ hg => exact hcreate hf hd (hg ▸ hp)
    | resume _ _ _ _ hk => exact ih (hk.g ▸ hp)
    | act hi h0 hact =>
      have hprim := ((hset.shape.steps hs).prim (by rw [hi]; simpa using h0)).1
      exact ih (hprim ▸ hp)
    | exit _ _ _ _ _ hk => exact ih (x := x) (by rw [hk.g] at hp; exact hp)
    | env he _ _ hk =>
      rw [hk.g, call_prim he] at hp
      exact ih hp

end SetUp

/-! ## All runs -/

/-- The one thread that is resumed is ready, so the machine and the abstract machine take the same
steps. -/
theorem resumesReady {m : Mach (GreenPc n) (Shared n)} (ha : SetUp a)
    (h : Sim S.program False m a) : ResumesReady S.program m l := by
  -- a thread that makes a call runs, and is thread 0 or in its loop
  have hcall : ∀ {cl}, m.Calls S.program l cl → (∃ ret g u, Sets S a.g u cl ret g ∧
      a.frame 0 = .user u) ∨ ∃ i u w g, Does S (a.view i) a.g u cl w g := by
    intro cl hc
    obtain ⟨i, hr⟩ := h.running_of_calls hc
    obtain ⟨e, al, u, ret, g, -, hcpu, hn⟩ := hc
    have hf : a.frame i = .user u := (h.cpu i hr).symm.trans hcpu
    rw [h.view hr, h.g] at hn
    rcases eq_or_ne i 0 with rfl | h0
    · rcases ha.shape.zero with ⟨u', -, hu', hmain⟩ | ⟨hpark, -⟩
      · obtain rfl := Frame.user.inj (hf.symm.trans hu')
        exact .inl ⟨ret, g, u, next_sets hmain hn, hf⟩
      · cases (place_running hr).symm.trans hpark
    · have hloop := ha.shape.loop i h0 (by rw [place_running hr]; nofun)
      rw [hf] at hloop
      cases hloop with
      | user hu =>
        obtain ⟨w, -, hd⟩ := next_does hu hn
        exact .inr ⟨i, u, w, g, hd⟩
  intro id hid h0
  rcases Mach.target_cases hid with hc | hc | ⟨cur, new, j, u, hcpu⟩
  · rcases hcall hc with ⟨ret, g, u, hd, hf⟩ | ⟨i, u, w, g, hd⟩
    · cases hd with
      | resume =>
        obtain ⟨w, hw, hat⟩ := ha.main
        obtain rfl := Frame.user.inj (hw.symm.trans hf)
        rw [h.repr.readyIds]
        exact a.sched.ready_iff.mpr (hat.2.resolve_left h0)
    · cases hd
  · rcases hcall hc with ⟨ret, g, u, hd, -⟩ | ⟨i, u, w, g, hd⟩ <;> cases hd
  · obtain ⟨i, hr⟩ := h.running_of_cpu (by simp [hcpu])
    have hf := (h.cpu i hr).symm.trans hcpu
    rcases eq_or_ne i 0 with rfl | hi0
    · obtain ⟨w, hw, -⟩ := ha.main
      cases hw.symm.trans hf
    · have hloop := ha.shape.loop i hi0 (by rw [place_running hr]; nofun)
      rw [hf] at hloop
      cases hloop

section Refinement

variable {ok : AMach (GreenPc n) (Shared n) → Label (Option (Fin n)) (Fin n × Request) → Prop}
  {good : Mach (GreenPc n) (Shared n) → Label (Option (Fin n)) (Fin n × Request) → Prop}
  {m m' : Mach (GreenPc n) (Shared n)}

/-- **Refinement.** A condition on the abstract steps can be carried over from the machine, if it
follows from one there. -/
theorem simulation
    (hok : ∀ m a l, Reach (S.program.aruns.guard ok) a → Sim S.program False m a → good m l →
      ok a l) :
    Simulation (S.program.runs.guard good) (S.program.aruns.guard ok) (Sim S.program False) := by
  apply (handover S).simulation
  · exact fun m hm => hm
  · intro m l m' a ha h hs
    exact ⟨hs.2, resumesReady (.of_reach ha.of_guard) h, hok m a l ha h hs.1⟩

theorem reach_guard
    (hok : ∀ m a l, Reach (S.program.aruns.guard ok) a → Sim S.program False m a → good m l →
      ok a l) (hm : Reach (S.program.runs.guard good) m) :
    ∃ a, Reach (S.program.aruns.guard ok) a ∧ Sim S.program False m a :=
  (simulation hok).reach hm

/-- Every run of the server is one of the abstract machine, without any condition. -/
theorem reach (hm : Reach S.program.runs m) :
    ∃ a, Reach S.program.aruns a ∧ Sim S.program False m a := by
  have hm' : Reach (S.program.runs.guard fun _ _ => True) m := hm.guard fun _ _ _ _ _ => trivial
  obtain ⟨a, ha, h⟩ : ∃ a, Reach (S.program.aruns.guard fun _ _ => True) a ∧
      Sim S.program False m a := reach_guard (fun _ _ _ _ _ _ => trivial) hm'
  exact ⟨a, ha.of_guard, h⟩

/-- One more step of the machine is one of the abstract machine, or a change of a freed record,
which it does not see. -/
theorem sim_step (ha : Reach S.program.aruns a) (h : Sim S.program False m a)
    (hs : m.step S.program l = .ok m') :
    ∃ a', Sim S.program False m' a' ∧ (a' = a ∨ ∃ k, AStep S.program a k a') := by
  have hsim : Simulation (S.program.runs.guard fun _ _ => True)
      (S.program.aruns.guard fun _ _ => True) (Sim S.program False) :=
    simulation fun _ _ _ _ _ _ => trivial
  have ha' : Reach (S.program.aruns.guard fun _ _ => True) a := ha.guard fun _ _ _ _ _ => trivial
  obtain ⟨a', h', he | ⟨k, hk⟩⟩ := hsim.step m l m' a ha' h ⟨trivial, hs⟩
  · exact ⟨a', h', .inl he⟩
  · exact ⟨a', h', .inr ⟨k, hk.2⟩⟩

end Refinement

end GreenServer

end GreenLib
