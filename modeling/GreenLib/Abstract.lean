import GreenLib.Machine
import GreenLib.Moves

/-!
# The abstract machine

The machine of `GreenLib.Machine` without memory: threads are ids, the scheduler is a
`Sched`, and `frame i` is where thread `i` continues, running or not. A step of the
running thread is an *action* on its own frame and on the data of primitives
(`Act`), followed by what it asks of the scheduler (`Step`). Switching between
threads changes no frame, so an invariant about frames has to look at the frame of
the acting thread only.
-/

namespace GreenLib

/-- **The abstract machine.** The heap is gone: threads are ids, the queues are lists inside a
`Sched` that cannot be ill-formed, and the data of the primitives is what it was. -/
structure AMach (U G : Type) : Type where
  sched : Sched Addr
  frame : ℕ → Frame U
  kind : Addr → Option PrimKind
  helder : Addr → ℤ
  held : Addr → ℤ
  count : Addr → ℤ
  slot : ℕ → ℕ
  slotUsed : ℕ → Bool
  g : G
  created : ℕ → Bool
  exited : ℕ → Bool
  vs : Addr → ℕ
  ps : Addr → ℕ
  blocked : Addr → List ℕ
  served : Addr → List ℕ

namespace AMach

variable {U G : Type}

/-- What thread `i` reads from the library. On the machine this goes through `t_running`; here it is
given by the id. -/
def view (a : AMach U G) (i : ℕ) : View := ⟨i, a.slot i, a.kind⟩

/-- `lock->helder = h; lock->held = v;` -/
def setLock (a : AMach U G) (l : Addr) (h v : ℤ) : AMach U G :=
  { a with helder := Function.update a.helder l h, held := Function.update a.held l v }

/-- `semaphore->count = v;` -/
def setCount (a : AMach U G) (sem : Addr) (v : ℤ) : AMach U G :=
  { a with count := Function.update a.count sem v }

/-- Thread `i` goes to sleep in the waiting loop of `p`; only the history changes. -/
def block (a : AMach U G) (p : Addr) (i : ℕ) : AMach U G :=
  { a with blocked := Function.update a.blocked p (a.blocked p ++ [i]) }

/-- Thread `i` leaves the waiting loop of `p`. It is entered into the history only if it has slept
there. -/
def serve (a : AMach U G) (p : Addr) (slept : Bool) (i : ℕ) : AMach U G :=
  { a with
    served := if slept then Function.update a.served p (a.served p ++ [i]) else a.served }

end AMach

/-- What a call that works on no data asks of the scheduler. The other calls have constructors of
their own in `Act`. -/
def Call.req {U : Type} (c : Call U) (a : Sched Addr) : Option (Req Addr) :=
  match c with
  | .pause => some .stay
  | .yield => some (.resume (a.ready.headD 0))
  | .resume id => some (.resume id)
  | .sleep p => some (.sleep p)
  | .wakeup p => some (.wakeup p)
  | .wakeupWait p => some (.wakeupWait p)
  | .cvSignal cv => some (.wakeup cv)
  | _ => none

theorem Call.req_ne_exit {U : Type} {c : Call U} {a : Sched Addr} : c.req a ≠ some .exit := by
  cases c <;> simp [Call.req]

/-- The kind of primitive a call creates. -/
def Call.makes {U : Type} : Call U → Option PrimKind
  | .primInit => some .plain
  | .lockCreate => some .lock
  | .semCreate => some .semaphore
  | _ => none

section Steps

variable {U G A E : Type}

/-- **Actions.** `Act P a i l b fr r`: thread `i` acts in `a`, as the label `l` says. The data
becomes that of `b`, the thread will continue at `fr`, and it asks the scheduler for `r`. -/
inductive Act (P : Program U G A E) (a : AMach U G) (i : ℕ) :
    Label A E → AMach U G → Frame U → Req Addr → Prop where
  | plain {u : U} {act : A} {al : Alloc} {c : Call U} {ret : Option ℕ → U} {g : G} {r : Req Addr}
      (hf : a.frame i = .user u) (hn : P.next act (a.view i) u a.g = some (c, ret, g))
      (hr : c.req a.sched = some r) :
      Act P a i (.call act al) { a with g := g } (.user (ret none)) r
  /-- a `malloc` of a primitive failed -/
  | primFail {u : U} {act : A} {al : Alloc} {c : Call U} {ret : Option ℕ → U} {g : G}
      {k : PrimKind} (hf : a.frame i = .user u)
      (hn : P.next act (a.view i) u a.g = some (c, ret, g)) (hc : c.makes = some k)
      (hal : al.prim = none) :
      Act P a i (.call act al) { a with g := g } (.user (ret none)) .stay
  | acquire {u : U} {act : A} {al : Alloc} {l : Addr} {ret : Option ℕ → U} {g : G}
      (hf : a.frame i = .user u) (hn : P.next act (a.view i) u a.g = some (.acquire l, ret, g))
      (hk : a.kind l = some .lock) (hh : a.helder l ≠ i) :
      Act P a i (.call act al) { a with g := g } (.acquire false l (ret none)) .stay
  | release {u : U} {act : A} {al : Alloc} {l : Addr} {ret : Option ℕ → U} {g : G}
      (hf : a.frame i = .user u) (hn : P.next act (a.view i) u a.g = some (.release l, ret, g))
      (hk : a.kind l = some .lock) :
      Act P a i (.call act al) ({ a with g := g }.setLock l (-1) 0) (.user (ret none)) (.wakeup l)
  | releaseAcquire {u : U} {act : A} {al : Alloc} {l : Addr} {ret : Option ℕ → U} {g : G}
      (hf : a.frame i = .user u)
      (hn : P.next act (a.view i) u a.g = some (.releaseAcquire l, ret, g))
      (hk : a.kind l = some .lock) :
      Act P a i (.call act al) ({ a with g := g }.setLock l (-1) 0) (.relAcq l (ret none))
        (.wakeupWait l)
  | semP {u : U} {act : A} {al : Alloc} {sem : Addr} {ret : Option ℕ → U} {g : G}
      (hf : a.frame i = .user u) (hn : P.next act (a.view i) u a.g = some (.semP sem, ret, g)) :
      Act P a i (.call act al) { a with g := g } (.semP false sem (ret none)) .stay
  | semV {u : U} {act : A} {al : Alloc} {sem : Addr} {ret : Option ℕ → U} {g : G}
      (hf : a.frame i = .user u) (hn : P.next act (a.view i) u a.g = some (.semV sem, ret, g))
      (hk : a.kind sem = some .semaphore) (hpos : 0 < wrap32 (a.count sem + 1)) :
      Act P a i (.call act al)
        ({ a with g := g, vs := Function.update a.vs sem (a.vs sem + 1) }.setCount sem
          (wrap32 (a.count sem + 1)))
        (.user (ret none)) (.wakeup sem)
  | cvWait {u : U} {act : A} {al : Alloc} {cv l : Addr} {ret : Option ℕ → U} {g : G}
      (hf : a.frame i = .user u) (hn : P.next act (a.view i) u a.g = some (.cvWait cv l, ret, g))
      (hk : a.kind l = some .lock) :
      Act P a i (.call act al) ({ a with g := g }.setLock l (-1) 0) (.cvSleep cv l (ret none))
        (.wakeup l)
  | join {u : U} {act : A} {al : Alloc} {id : ℕ} {ret : Option ℕ → U} {g : G} {fr : Frame U}
      (hf : a.frame i = .user u) (hn : P.next act (a.view i) u a.g = some (.join id, ret, g))
      (hfr : fr = .user (ret none) ∨ ∃ cur new, fr = .join cur new id (ret none)) :
      Act P a i (.call act al) { a with g := g } fr .stay
  | cspaceAlloc {sl : ℕ} {u : U} {act : A} {al : Alloc} {ret : Option ℕ → U} {g : G}
      (hf : a.frame i = .user u) (hn : P.next act (a.view i) u a.g = some (.cspaceAlloc, ret, g))
      (hsl : a.slotUsed sl = false) :
      Act P a i (.call act al)
        { a with
          g := g
          slot := Function.update a.slot i sl
          slotUsed := Function.update a.slotUsed sl true }
        (.user (ret (some sl))) .stay
  /-- the lock is taken and nobody else is ready: test again -/
  | acquireSpin {b : Bool} {l : Addr} {u : U} (hf : a.frame i = .acquire b l u)
      (hk : a.kind l = some .lock) (hh : a.held l ≠ 0) (hr : a.sched.ready = []) :
      Act P a i .turn a (.acquire b l u) .stay
  | acquireSleep {b : Bool} {l : Addr} {u : U} (hf : a.frame i = .acquire b l u)
      (hk : a.kind l = some .lock) (hh : a.held l ≠ 0) (hr : a.sched.ready ≠ []) :
      Act P a i .turn (a.block l i) (.acquire true l u) (.sleep l)
  | acquireDone {b : Bool} {l : Addr} {u : U} (hf : a.frame i = .acquire b l u)
      (hk : a.kind l = some .lock) (hh : a.held l = 0) :
      Act P a i .turn ((a.serve l b i).setLock l i 1) (.user u) .stay
  | relAcq {l : Addr} {u : U} (hf : a.frame i = .relAcq l u) : Act P a i .turn a (.user u) .stay
  | semPSpin {b : Bool} {sem : Addr} {u : U} (hf : a.frame i = .semP b sem u)
      (hk : a.kind sem = some .semaphore) (hc : a.count sem = 0) (hr : a.sched.ready = []) :
      Act P a i .turn a (.semP b sem u) .stay
  | semPSleep {b : Bool} {sem : Addr} {u : U} (hf : a.frame i = .semP b sem u)
      (hk : a.kind sem = some .semaphore) (hc : a.count sem = 0) (hr : a.sched.ready ≠ []) :
      Act P a i .turn (a.block sem i) (.semP true sem u) (.sleep sem)
  | semPDone {b : Bool} {sem : Addr} {u : U} (hf : a.frame i = .semP b sem u)
      (hk : a.kind sem = some .semaphore) (hc : 0 < a.count sem) :
      Act P a i .turn
        ({ a with ps := Function.update a.ps sem (a.ps sem + 1) }.serve sem b i |>.setCount sem
          (wrap32 (a.count sem - 1)))
        (.user u) .stay
  | cvSleep {cv l : Addr} {u : U} (hf : a.frame i = .cvSleep cv l u) :
      Act P a i .turn a (.cvAcquire cv l u) (.sleep cv)
  | cvAcquire {cv l : Addr} {u : U} (hf : a.frame i = .cvAcquire cv l u)
      (hk : a.kind l = some .lock) (hh : a.helder l ≠ i) :
      Act P a i .turn a (.acquire false l u) .stay
  /-- `thread_join` waits; the abstract machine does not say for how long -/
  | joinAgain {cur new : Addr} {id : ℕ} {u : U} (j : ℕ) (hf : a.frame i = .join cur new id u) :
      Act P a i .turn a (.join cur new id u) (.resume j)
  | joinDone {cur new : Addr} {id : ℕ} {u : U} (hf : a.frame i = .join cur new id u) :
      Act P a i .turn a (.user u) .stay

/-- **The steps of the abstract machine**, with the labels of the machine: an action followed by a
scheduler step, or one of the few calls that create or remove something. -/
inductive AStep (P : Program U G A E) (a : AMach U G) : Label A E → AMach U G → Prop where
  | act {i : ℕ} {l : Label A E} {b : AMach U G} {fr : Frame U} {r : Req Addr} {sched : Sched Addr}
      (hi : a.sched.running = some i) (h : Act P a i l b fr r) (hs : Step a.sched i r sched) :
      AStep P a l { b with sched := sched, frame := Function.update a.frame i fr }
  | exit {i : ℕ} {u : U} {act : A} {al : Alloc} {ret : Option ℕ → U} {g : G} {sched : Sched Addr}
      (hi : a.sched.running = some i) (hf : a.frame i = .user u)
      (hn : P.next act (a.view i) u a.g = some (.exit, ret, g))
      (hs : Step a.sched i .exit sched) :
      AStep P a (.call act al)
        { a with sched := sched, g := g, exited := Function.update a.exited i true }
  | create {sl i : ℕ} {u v : U} {act : A} {al : Alloc} {ret : Option ℕ → U} {g : G} {id : ℕ}
      {sched : Sched Addr} (hi : a.sched.running = some i) (hf : a.frame i = .user u)
      (hn : P.next act (a.view i) u a.g = some (.create v, ret, g))
      (hid : id = a.sched.newId) (h0 : id ≠ 0) (hnew : sched.newId = a.sched.newId + 1)
      (hprims : sched.prims = a.sched.prims) (hrun : sched.running = a.sched.running)
      (hready : sched.ready = a.sched.ready ++ [id]) (hwait : sched.waiting = a.sched.waiting)
      (hplace : sched.place = Function.update a.sched.place id .ready)
      (hsl : a.slotUsed sl = false) :
      AStep P a (.call act al)
        { a with
          sched := sched
          g := g
          frame := Function.update (Function.update a.frame i (.user (ret (some id)))) id (.user v)
          slot := Function.update a.slot id sl
          slotUsed := Function.update a.slotUsed sl true
          created := Function.update a.created id true }
  | notCreated {i : ℕ} {u v : U} {act : A} {al : Alloc} {ret : Option ℕ → U} {g : G}
      {sched : Sched Addr} {used : ℕ → Bool} (hi : a.sched.running = some i)
      (hf : a.frame i = .user u)
      (hn : P.next act (a.view i) u a.g = some (.create v, ret, g))
      (hs : sched = a.sched ∨ sched = a.sched.fresh)
      (hused : ∀ sl, a.slotUsed sl = true → used sl = true) :
      AStep P a (.call act al)
        { a with
          sched := sched
          g := g
          frame := Function.update a.frame i (.user (ret (some 0)))
          slotUsed := used }
  | primMade {i : ℕ} {u : U} {act : A} {al : Alloc} {c : Call U} {ret : Option ℕ → U}
      {g : G} {k : PrimKind} {p : Addr} (hi : a.sched.running = some i) (hf : a.frame i = .user u)
      (hn : P.next act (a.view i) u a.g = some (c, ret, g)) (hc : c.makes = some k)
      (hal : al.prim = some p) (hp : p ∉ a.sched.prims) :
      AStep P a (.call act al)
        { a with
          sched := a.sched.addPrim p
          g := g
          frame := Function.update a.frame i (.user (ret (some p)))
          kind := Function.update a.kind p (some k)
          helder := if k = .lock then Function.update a.helder p (-1) else a.helder
          held := if k = .lock then Function.update a.held p 0 else a.held
          count := if k = .semaphore then Function.update a.count p 0 else a.count
          vs := Function.update a.vs p 0
          ps := Function.update a.ps p 0
          blocked := Function.update a.blocked p []
          served := Function.update a.served p [] }
  | primGone {i : ℕ} {u : U} {act : A} {al : Alloc} {c : Call U} {ret : Option ℕ → U}
      {g : G} {p : Addr} (hi : a.sched.running = some i) (hf : a.frame i = .user u)
      (hn : P.next act (a.view i) u a.g = some (c, ret, g))
      (hc : c = .lockDestory p ∧ a.kind p = some .lock ∨
        c = .semDestory p ∧ a.kind p = some .semaphore)
      (hw : a.sched.waiting p = []) :
      AStep P a (.call act al)
        { a with
          sched := a.sched.dropPrim p hw
          g := g
          frame := Function.update a.frame i (.user (ret none))
          kind := Function.update a.kind p none }
  | env {e : E} {g : G} (he : P.env e a.g = some g) : AStep P a (.env e) { a with g := g }

/-- The abstract machine after `thread_initial`: thread 0 runs, and there is nothing else. -/
structure AMach.Init (P : Program U G A E) (a : AMach U G) : Prop where
  newId : a.sched.newId = 1
  running : a.sched.running = some 0
  ready : a.sched.ready = []
  prims : a.sched.prims = ∅
  place : ∀ i, i ≠ 0 → a.sched.place i = .nowhere
  frame : a.frame 0 = .user P.main
  kind : ∀ p, a.kind p = none
  g : P.init a.g
  created : ∀ i, a.created i = (i == 0)
  exited : ∀ i, a.exited i = false
  vs : ∀ p, a.vs p = 0
  ps : ∀ p, a.ps p = 0
  blocked : ∀ p, a.blocked p = []
  served : ∀ p, a.served p = []

/-- The runs of a program on the abstract machine. The invariants of the development are proved
about these, and carried over to the machine by the simulation. -/
def Program.aruns (P : Program U G A E) : Lts (AMach U G) (Label A E) where
  init a := a.Init P
  step := AStep P

/-- The step is a call `c` of the running thread, the counterpart of `Mach.Calls`. -/
def AMach.Calls (P : Program U G A E) (a : AMach U G) (l : Label A E) (c : Call U) : Prop :=
  ∃ i act al u ret g, l = .call act al ∧ a.sched.running = some i ∧ a.frame i = .user u ∧
    P.next act (a.view i) u a.g = some (c, ret, g)

end Steps

/-! ## What every step keeps -/

section Facts

variable {U G A E : Type} {P : Program U G A E} {a a' : AMach U G} {l : Label A E} {i k : ℕ}

/-- The data edits of an action move no thread, make no primitive, and no action exits. What moves
is left to the scheduler. -/
theorem Act.data {b : AMach U G} {fr : Frame U} {r : Req Addr} (h : Act P a i l b fr r) :
    b.sched = a.sched ∧ b.frame = a.frame ∧ b.kind = a.kind ∧ b.created = a.created ∧
      b.exited = a.exited ∧ r ≠ .exit := by
  cases h with
  | plain _ _ hr => exact ⟨rfl, rfl, rfl, rfl, rfl, fun he => Call.req_ne_exit (he ▸ hr)⟩
  | _ => exact ⟨rfl, rfl, rfl, rfl, rfl, nofun⟩

/-- While user code runs, a step is a call of that code, or comes from the environment. -/
theorem AStep.call_or_env {u : U} (h : AStep P a l a') (hi : a.sched.running = some i)
    (hf : a.frame i = .user u) : (∃ act al, l = .call act al) ∨
      ∃ e, l = .env e ∧ P.env e a.g = some a'.g ∧ a'.sched = a.sched ∧ a'.frame = a.frame := by
  cases h with
  | act hi' hact =>
    obtain rfl := Option.some.inj (hi.symm.trans hi')
    cases hact with
    | acquireSpin hf' | acquireSleep hf' | acquireDone hf' | relAcq hf' | semPSpin hf'
    | semPSleep hf' | semPDone hf' | cvSleep hf' | cvAcquire hf' | joinDone hf' =>
      cases hf.symm.trans hf'
    | joinAgain _ hf' => cases hf.symm.trans hf'
    | _ => exact .inl ⟨_, _, rfl⟩
  | env he => exact .inr ⟨_, rfl, he, rfl, rfl⟩
  | _ => exact .inl ⟨_, _, rfl⟩

/-- **Frame rule.** A thread that does not run keeps its continuation: contexts are private. -/
theorem AStep.frame_of_ne (h : AStep P a l a') (hk : a.sched.place k ≠ .nowhere)
    (hrun : a.sched.running ≠ some k) : a'.frame k = a.frame k := by
  have hne : ∀ {i}, a.sched.running = some i → k ≠ i := fun hi he => hrun (he ▸ hi)
  cases h with
  | act hi hact hs => exact Function.update_of_ne (hne hi) ..
  | exit => rfl
  | create hi hf hn hid =>
    refine (Function.update_of_ne ?_ ..).trans (Function.update_of_ne (hne hi) ..)
    rintro rfl
    exact hk (hid ▸ Sched.place_newId)
  | notCreated hi => exact Function.update_of_ne (hne hi) ..
  | primMade hi => exact Function.update_of_ne (hne hi) ..
  | primGone hi => exact Function.update_of_ne (hne hi) ..
  | env => rfl

/-- **Who moves.** A thread that neither runs nor is new stays where it is, or it was in a queue
and runs now. -/
theorem AStep.moves (h : AStep P a l a') (hk : a.sched.place k ≠ .nowhere)
    (hrun : a.sched.running ≠ some k) :
    a'.sched.running ≠ some k ∧ a'.sched.place k = a.sched.place k ∨
      a'.sched.running = some k ∧
        (a.sched.place k = .ready ∨ ∃ p, a.sched.place k = .waiting p) := by
  have hne : ∀ {i}, a.sched.running = some i → k ≠ i := fun hi he => hrun (he ▸ hi)
  cases h with
  | act hi hact hs => exact hs.moves hi (hne hi)
  | exit hi _ _ hs => exact hs.moves hi (hne hi)
  | create hi _ _ hid _ _ _ hr _ _ hplace =>
    refine .inl ⟨hr ▸ hrun, ?_⟩
    rw [hplace, Function.update_of_ne]
    rintro rfl
    exact hk (hid ▸ Sched.place_newId)
  | notCreated _ _ _ hs => rcases hs with rfl | rfl <;> exact .inl ⟨hrun, rfl⟩
  | primMade => exact .inl ⟨hrun, rfl⟩
  | primGone => exact .inl ⟨hrun, rfl⟩
  | env => exact .inl ⟨hrun, rfl⟩

/-- A thread that does not act stays a thread and keeps its continuation. -/
theorem AStep.others (h : AStep P a l a') (hk : a.sched.place k ≠ .nowhere)
    (hrun : a.sched.running ≠ some k) :
    a'.frame k = a.frame k ∧ a'.sched.place k ≠ .nowhere := by
  refine ⟨h.frame_of_ne hk hrun, ?_⟩
  rcases h.moves hk hrun with ⟨_, he⟩ | ⟨hr, _⟩
  · exact he ▸ hk
  · simp [Sched.place_running hr]

/-- A new thread comes from a call of `thread_create` and begins in user code. -/
theorem AStep.new_thread (h : AStep P a l a') (hk : a.sched.place k = .nowhere)
    (hk' : a'.sched.place k ≠ .nowhere) :
    ∃ v, a.Calls P l (.create v) ∧ a'.frame k = .user v := by
  cases h with
  | act hi hact hs => exact absurd hk (hs.placed hi hk')
  | exit hi _ _ hs => exact absurd hk (hs.placed hi hk')
  | create hi hf hn hid h0 hnew hprims hrun hready hwait hplace hsl =>
    rename_i i u v act al ret g id sched
    have hki : k = id := by
      by_contra hne
      rw [hplace, Function.update_of_ne hne] at hk'
      exact hk' hk
    exact ⟨v, ⟨i, act, al, u, ret, g, rfl, hi, hf, hn⟩, by simp [hki]⟩
  | notCreated hi hf hn hs => rcases hs with rfl | rfl <;> exact absurd hk hk'
  | primMade => exact absurd hk hk'
  | primGone => exact absurd hk hk'
  | env => exact absurd hk hk'

/-- **Who writes the shared data.** The environment, or the running thread with a call. -/
theorem AStep.shared (h : AStep P a l a') : a'.g = a.g ∨ (∃ e, P.env e a.g = some a'.g) ∨
    ∃ i act u c ret, a.sched.running = some i ∧ a.frame i = .user u ∧
      P.next act (a.view i) u a.g = some (c, ret, a'.g) := by
  have hcall : ∀ {i act u c ret g}, a.sched.running = some i → a.frame i = .user u →
      P.next act (a.view i) u a.g = some (c, ret, g) → a'.g = g →
      ∃ i act u c ret, a.sched.running = some i ∧ a.frame i = .user u ∧
        P.next act (a.view i) u a.g = some (c, ret, a'.g) := by
    rintro i act u c ret g hi hf hn rfl
    exact ⟨i, act, u, c, ret, hi, hf, hn⟩
  cases h with
  | act hi hact hs =>
    cases hact
    case plain hf hn _ => exact .inr (.inr (hcall hi hf hn rfl))
    case primFail hf hn _ _ => exact .inr (.inr (hcall hi hf hn rfl))
    case acquire hf hn _ _ => exact .inr (.inr (hcall hi hf hn rfl))
    case release hf hn _ => exact .inr (.inr (hcall hi hf hn rfl))
    case releaseAcquire hf hn _ => exact .inr (.inr (hcall hi hf hn rfl))
    case semP hf hn => exact .inr (.inr (hcall hi hf hn rfl))
    case semV hf hn _ _ => exact .inr (.inr (hcall hi hf hn rfl))
    case cvWait hf hn _ => exact .inr (.inr (hcall hi hf hn rfl))
    case join hf hn _ => exact .inr (.inr (hcall hi hf hn rfl))
    case cspaceAlloc hf hn _ => exact .inr (.inr (hcall hi hf hn rfl))
    case acquireDone b _ _ _ _ _ => cases b <;> exact .inl rfl
    case semPDone b _ _ _ _ _ => cases b <;> exact .inl rfl
    all_goals exact .inl rfl
  | exit hi hf hn => exact .inr (.inr (hcall hi hf hn rfl))
  | create hi hf hn => exact .inr (.inr (hcall hi hf hn rfl))
  | notCreated hi hf hn => exact .inr (.inr (hcall hi hf hn rfl))
  | primMade hi hf hn => exact .inr (.inr (hcall hi hf hn rfl))
  | primGone hi hf hn => exact .inr (.inr (hcall hi hf hn rfl))
  | env he => exact .inr (.inl ⟨_, he⟩)

/-- A thread that waited on `p` and runs now has been woken from there by an action of the thread
that ran. -/
theorem AStep.woken (h : AStep P a l a') {p : Addr} (hp : a.sched.place k = .waiting p)
    (hk : a'.sched.running = some k) :
    ∃ i b fr r, a.sched.running = some i ∧ Act P a i l b fr r ∧
      (r = .wakeup p ∨ r = .wakeupWait p) ∧ Step a.sched i r a'.sched ∧
      a' = { b with sched := a'.sched, frame := Function.update a.frame i fr } := by
  have hrun : a.sched.running ≠ some k := by
    intro he
    cases (Sched.place_running he).symm.trans hp
  cases h with
  | act hi hact hs => exact ⟨_, _, _, _, hi, hact, hs.woken hp hk, hs, rfl⟩
  | exit hi _ _ hs => rcases hs.woken hp hk with he | he <;> cases he
  | create _ _ _ _ _ _ _ hr => exact absurd (hr ▸ hk) hrun
  | notCreated _ _ _ hs => rcases hs with rfl | rfl <;> exact absurd hk hrun
  | primMade => exact absurd hk hrun
  | primGone => exact absurd hk hrun
  | env => exact absurd hk hrun

/-- What holds along every run of the abstract machine: how the ids, the places, the primitives and
the history hang together. -/
structure AMach.Ok (a : AMach U G) : Prop where
  /-- a thread has a place from its creation to its exit -/
  placed : ∀ i, a.sched.place i ≠ .nowhere ↔ a.created i = true ∧ a.exited i = false
  created : ∀ i, a.created i = true → i < a.sched.newId
  exited : ∀ i, a.exited i = true → a.created i = true
  parked : ∀ i, a.sched.place i = .parked → i = 0
  prims : ∀ p, p ∈ a.sched.prims ↔ a.kind p ≠ none

theorem AMach.Init.ok (h : a.Init P) : a.Ok := by
  have hzero : ∀ i, a.created i = true ↔ i = 0 := fun i => by rw [h.created i, beq_iff_eq]
  have hplace : ∀ i, a.sched.place i ≠ .nowhere ↔ i = 0 := by
    intro i
    by_cases hi : i = 0
    · simp [hi, Sched.place_running h.running]
    · simp [hi, h.place i hi]
  refine ⟨?_, ?_, ?_, ?_, ?_⟩
  · intro i
    simp [hplace i, hzero i, h.exited i]
  · intro i hi
    rw [(hzero i).mp hi, h.newId]
    exact Nat.one_pos
  · intro i hi
    rw [h.exited i] at hi
    cases hi
  · intro i hi
    exact (hplace i).mp (by simp [hi])
  · intro p
    simp [h.prims, h.kind p]

/-- A scheduler step keeps `Ok`, with the acting thread added to `exited` if it exits. -/
theorem AMach.Ok.step (h : a.Ok) {r : Req Addr} {sched : Sched Addr} {x : ℕ → Bool}
    (hi : a.sched.running = some i) (hs : Step a.sched i r sched)
    (hx : ∀ k, k ≠ i → x k = a.exited k) (hxi : x i = true ↔ r = .exit) :
    { a with sched := sched, exited := x }.Ok := by
  obtain ⟨hid, hprims⟩ := hs.registry
  have hpi : a.sched.place i ≠ .nowhere := by simp [Sched.place_running hi]
  refine ⟨?_, ?_, ?_, ?_, ?_⟩
  · intro k
    change sched.place k ≠ .nowhere ↔ a.created k = true ∧ x k = false
    by_cases hki : k = i
    · subst hki
      rw [and_iff_right ((h.placed k).mp hpi).1, Ne, (hs.self hi).1, ← hxi, Bool.not_eq_true]
    · rw [hx k hki, ← h.placed k]
      rcases hs.moves hi hki with ⟨_, he⟩ | ⟨hrun, hq⟩
      · rw [he]
      · have hpk : a.sched.place k ≠ .nowhere := by
          rcases hq with hq | ⟨p, hq⟩ <;> simp [hq]
        simp [Sched.place_running hrun, hpk]
  · intro k hk
    change k < sched.newId
    exact hid ▸ h.created k hk
  · intro k hk
    by_cases hki : k = i
    · exact hki ▸ ((h.placed i).mp hpi).1
    · exact h.exited k (hx k hki ▸ hk)
  · intro k hk
    change sched.place k = .parked at hk
    by_cases hki : k = i
    · subst hki
      exact (hs.self hi).2 hk
    · rcases hs.moves hi hki with ⟨_, he⟩ | ⟨hrun, _⟩
      · exact h.parked k (he ▸ hk)
      · rw [Sched.place_running hrun] at hk
        cases hk
  · intro p
    change p ∈ sched.prims ↔ _
    rw [hprims]
    exact h.prims p

theorem AStep.ok (h : AStep P a l a') (hok : a.Ok) : a'.Ok := by
  cases h with
  | act hi hact hs =>
    obtain ⟨_, _, hkind, hcr, hex, hr⟩ := hact.data
    have hpi := (hok.placed _).mp (by rw [Sched.place_running hi]; simp)
    have h' := hok.step hi hs (fun _ _ => rfl) (iff_of_false (by simp [hpi.2]) hr)
    exact ⟨hcr ▸ hex ▸ h'.placed, hcr ▸ h'.created, hcr ▸ hex ▸ h'.exited, h'.parked,
      hkind ▸ h'.prims⟩
  | exit hi hf hn hs =>
    rename_i i _ _ _ _ _ _
    have h' := hok.step (x := Function.update a.exited i true) hi hs
      (fun k hk => Function.update_of_ne hk ..) (iff_of_true (Function.update_self ..) rfl)
    exact ⟨h'.placed, h'.created, h'.exited, h'.parked, h'.prims⟩
  | create hi hf hn hid h0 hnew hprims hrun hready hwait hplace hsl =>
    rename_i id sched
    -- the next id is not yet that of a thread, so it has not exited either
    have hx : a.exited id = false := by
      by_contra hne
      have hlt := hok.created id (hok.exited id (by simpa using hne))
      omega
    refine ⟨?_, ?_, ?_, ?_, ?_⟩
    · intro k
      change sched.place k ≠ .nowhere ↔ Function.update a.created id true k = true ∧ _
      rw [hplace]
      by_cases hk : k = id
      · simp [hk, hx]
      · rw [Function.update_of_ne hk, Function.update_of_ne hk]
        exact hok.placed k
    · intro k hk
      change k < sched.newId
      by_cases hki : k = id
      · omega
      · have hlt := hok.created k ((Function.update_of_ne hki true a.created).symm.trans hk)
        omega
    · intro k hk
      have hki : k ≠ id := by
        rintro rfl
        cases hx.symm.trans hk
      exact (Function.update_of_ne hki ..).trans (hok.exited k hk)
    · intro k hk
      rw [hplace] at hk
      by_cases hki : k = id
      · rw [hki, Function.update_self] at hk
        cases hk
      · rw [Function.update_of_ne hki] at hk
        exact hok.parked k hk
    · intro p
      rw [hprims]
      exact hok.prims p
  | notCreated hi hf hn hs hused =>
    rcases hs with rfl | rfl
    · exact ⟨hok.placed, hok.created, hok.exited, hok.parked, hok.prims⟩
    · exact ⟨hok.placed, fun k hk => Nat.lt_succ_of_lt (hok.created k hk), hok.exited,
        hok.parked, hok.prims⟩
  | primMade hi hf hn hc hal hp =>
    rename_i k p
    refine ⟨hok.placed, hok.created, hok.exited, hok.parked, fun q => ?_⟩
    change q ∈ insert p a.sched.prims ↔ Function.update a.kind p (some k) q ≠ none
    by_cases hqp : q = p
    · simp [hqp]
    · rw [Finset.mem_insert, or_iff_right hqp, Function.update_of_ne hqp]
      exact hok.prims q
  | primGone hi hf hn hc hw =>
    rename_i p
    refine ⟨hok.placed, hok.created, hok.exited, hok.parked, fun q => ?_⟩
    change q ∈ a.sched.prims.erase p ↔ Function.update a.kind p none q ≠ none
    by_cases hqp : q = p
    · simp [hqp]
    · rw [Finset.mem_erase, and_iff_right hqp, Function.update_of_ne hqp]
      exact hok.prims q
  | env => exact ⟨hok.placed, hok.created, hok.exited, hok.parked, hok.prims⟩

/-- A primitive keeps its kind until it is destroyed, and only the two destroy calls do that. -/
theorem AStep.kind_kept (h : AStep P a l a') (hok : a.Ok) {p : Addr} {q : PrimKind}
    (hp : a.kind p = some q) :
    a'.kind p = some q ∨ q = .lock ∧ a.Calls P l (.lockDestory p) ∨
      q = .semaphore ∧ a.Calls P l (.semDestory p) := by
  cases h with
  | act hi hact hs => exact .inl (hact.data.2.2.1 ▸ hp)
  | primMade hi hf hn hc hal hnew =>
    refine .inl ((Function.update_of_ne ?_ ..).trans hp)
    rintro rfl
    exact hnew ((hok.prims p).mpr (by simp [hp]))
  | primGone hi hf hn hc hw =>
    rename_i d
    by_cases hd : p = d
    · subst hd
      rcases hc with ⟨rfl, hk⟩ | ⟨rfl, hk⟩ <;> obtain rfl := Option.some.inj (hk.symm.trans hp)
      · exact .inr (.inl ⟨rfl, _, _, _, _, _, _, rfl, hi, hf, hn⟩)
      · exact .inr (.inr ⟨rfl, _, _, _, _, _, _, rfl, hi, hf, hn⟩)
    · exact .inl ((Function.update_of_ne hd ..).trans hp)
  | _ => exact .inl hp

/-- Every reachable abstract machine is `Ok`. -/
theorem Reach.ok (h : Reach P.aruns a) : a.Ok :=
  Reach.invariant (T := P.aruns) (P := AMach.Ok) (fun _ h₀ => h₀.ok)
    (fun _ _ _ _ hok hs => hs.ok hok) h

/-! ## Creation and exit -/

theorem AStep.created_kept (h : AStep P a l a') {j : ℕ} (hj : a.created j = true) :
    a'.created j = true := by
  cases h with
  | act _ hact => cases hact <;> exact hj
  | @create _ _ _ _ _ _ _ _ id =>
    change Function.update a.created id true j = true
    rcases eq_or_ne j id with rfl | hne
    · rw [Function.update_self]
    · rwa [Function.update_of_ne hne]
  | _ => exact hj

/-- A thread that has just been created has a place: it is ready, although it has never run. -/
theorem AStep.created_cases (h : AStep P a l a') {j : ℕ} (hj : a'.created j = true) :
    a.created j = true ∨ a'.sched.place j ≠ .nowhere := by
  cases h with
  | act _ hact => cases hact <;> exact .inl hj
  | @create _ _ _ _ _ _ _ _ id _ _ _ _ _ _ _ _ _ _ _ hplace =>
    change Function.update a.created id true j = true at hj
    rcases eq_or_ne j id with rfl | hne
    · right
      rw [hplace, Function.update_self]
      nofun
    · rw [Function.update_of_ne hne] at hj
      exact .inl hj
  | _ => exact .inl hj

theorem AStep.exited_kept (h : AStep P a l a') {j : ℕ} (hj : a.exited j = true) :
    a'.exited j = true := by
  cases h with
  | act _ hact =>
    obtain ⟨-, -, -, -, hexited, -⟩ := hact.data
    exact (congrFun hexited j).trans hj
  | @exit i =>
    change Function.update a.exited i true j = true
    rcases eq_or_ne j i with rfl | hne
    · rw [Function.update_self]
    · rwa [Function.update_of_ne hne]
  | _ => exact hj

/-- A thread that keeps a place does not exit, so its entry in the history stays what it is. -/
theorem AStep.exited_iff (h : AStep P a l a') (hok : a.Ok) {j : ℕ}
    (hj : a.sched.place j ≠ .nowhere → a'.sched.place j ≠ .nowhere) :
    a'.exited j = true ↔ a.exited j = true := by
  refine ⟨fun hex => ?_, h.exited_kept⟩
  have hok' := h.ok hok
  have hgone : a'.sched.place j = .nowhere := by
    by_contra hp
    cases hex.symm.trans ((hok'.placed j).mp hp).2
  have hcreated := (h.created_cases (hok'.exited j hex)).resolve_right (absurd hgone)
  by_contra hnot
  exact hj ((hok.placed j).mpr ⟨hcreated, by simpa using hnot⟩) hgone

/-- A step uses at most one new id, also when `thread_create` fails. -/
theorem AStep.newId_le (h : AStep P a l a') : a'.sched.newId ≤ a.sched.newId + 1 := by
  cases h with
  | act _ _ hs => exact hs.registry.1.le.trans (Nat.le_succ _)
  | exit _ _ _ hs => exact hs.registry.1.le.trans (Nat.le_succ _)
  | create _ _ _ _ _ hnew => exact hnew.le
  | notCreated _ _ _ hs =>
    rcases hs with rfl | rfl
    · exact Nat.le_succ _
    · exact le_rfl
  | _ => exact Nat.le_succ _

end Facts

end GreenLib
