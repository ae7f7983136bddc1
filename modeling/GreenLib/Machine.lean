import GreenLib.Run
import GreenLib.SyncPrim

/-!
# The machine: programs on top of the library

A program gives each thread a user state and says which library call a thread in
that state makes next. Between two calls a thread runs alone, so its user code is
one step together with the call it leads to. What a thread does inside the library
is a `Frame`: most calls return to the user at once, or as soon as the thread is
switched to again; the waiting loops and the three-part `thread_cv_wait` need frames
of their own.

A context saved by `swap_context` is such a frame, stored under the `thread_t` that
owns the context. `Mach.step` is executable: a label fixes what the program and the
allocators choose, and the result is the next machine or a `Fault`.

`created`, `exited`, `vs`, `ps`, `blocked` and `served` are history variables. No code
reads them; they record which threads have been created and which have called
`thread_exit`, how often a semaphore was incremented and decremented, and in which
order the waiting loops of locks and semaphores went to sleep and were left again.
-/

namespace GreenLib

/-- Where a thread continues when it gets the processor: in user code, or at one of the points
inside the library where a call can be interrupted by a switch. This is what a saved context
means. -/
inductive Frame (U : Type) : Type where
  /-- in user code -/
  | user (u : U)
  /-- at the head of the loop of `thread_lock_acquire_intern`; `slept` says if this
  call has slept already -/
  | acquire (slept : Bool) (lock : Addr) (u : U)
  /-- behind `thread_wakeup_wait` in `thread_lock_release_acquire` -/
  | relAcq (lock : Addr) (u : U)
  /-- at the head of the loop of `thread_semaphore_P` -/
  | semP (slept : Bool) (sem : Addr) (u : U)
  /-- in `thread_cv_wait`, before `thread_sleep` -/
  | cvSleep (cv lock : Addr) (u : U)
  /-- in `thread_cv_wait`, before `thread_lock_acquire_intern` -/
  | cvAcquire (cv lock : Addr) (u : U)
  /-- at the head of the loop of `thread_join`, with its locals -/
  | join (cur new : Addr) (id : ℕ) (u : U)
  deriving DecidableEq

/-- A library call. `create u` starts a thread in the user state `u`; the address of its function
and its arguments are part of that state. -/
inductive Call (U : Type) : Type where
  /-- no call: the user code only works on its own data -/
  | pause
  | create (u : U)
  | yield
  | resume (id : ℕ)
  | exit
  | sleep (prim : Addr)
  | wakeup (prim : Addr)
  | wakeupWait (prim : Addr)
  | primInit
  | lockCreate
  | lockDestory (lock : Addr)
  | acquire (lock : Addr)
  | release (lock : Addr)
  | releaseAcquire (lock : Addr)
  | semCreate
  | semDestory (sem : Addr)
  | semP (sem : Addr)
  | semV (sem : Addr)
  | cvWait (cv lock : Addr)
  | cvSignal (cv : Addr)
  | join (id : ℕ)
  /-- `allocman_cspace_alloc(&pool->t_running->t->slot)` -/
  | cspaceAlloc

/-- What user code reads from the library: its own id and slot, through
`pool->t_running->t`, and what a primitive is. -/
structure View : Type where
  tid : ℕ
  slot : ℕ
  kind : Addr → Option PrimKind

/-- A program over user states `U`, shared data `G`, with choices `A` of its threads
and actions `E` of its environment. -/
structure Program (U G A E : Type) : Type where
  /-- the user state thread 0 begins in -/
  main : U
  /-- the shared data at the beginning -/
  init : G → Prop
  /-- the next call of a thread, where it continues with the result of the call (an id, an
  address, or nothing), and the shared data -/
  next : A → View → U → G → Option (Call U × (Option ℕ → U) × G)
  /-- an action of the environment -/
  env : E → G → Option G

/-- The machine: the library's memory, the running continuation and the saved ones. The fields
behind `g` are history that no function of the library reads; the theorems speak about it. -/
structure Mach (U G : Type) : Type where
  st : State
  cpu : Frame U
  /-- `thread_t`: `context` -/
  ctx : Addr → Frame U
  /-- the program's shared data -/
  g : G
  /-- thread 0, and the threads whose ids `thread_create` has returned -/
  created : ℕ → Bool
  /-- the threads that have called `thread_exit` -/
  exited : ℕ → Bool
  /-- how often `thread_semaphore_V` incremented a semaphore -/
  vs : Addr → ℕ
  /-- how often `thread_semaphore_P` decremented a semaphore -/
  ps : Addr → ℕ
  /-- the threads whose acquire or P went to sleep, in this order -/
  blocked : Addr → List ℕ
  /-- the threads whose acquire or P was left after it had slept, in this order -/
  served : Addr → List ℕ

/-- What one step of the machine is. Steps are cut where the library can switch, so a step never
spans two threads. -/
inductive Label (A E : Type) : Type where
  /-- the running thread goes on in user code and makes its next call -/
  | call (act : A) (al : Alloc)
  /-- the running thread goes on inside the library -/
  | turn
  /-- the environment acts -/
  | env (e : E)
  /-- a freed record changes its contents -/
  | scribble (t : Addr) (junk : State)

/-- What user code sees. With no running thread the fields are 0; user code does not run then. -/
def State.view (s : State) : View :=
  match s.tRunning with
  | none => ⟨0, 0, s.kind⟩
  | some run => ⟨s.tId (s.thread run), s.slot (s.thread run), s.kind⟩

/-- `allocman_cspace_alloc` into the slot of the running thread, and `assert(error == 0)`. The old
slot of the thread is not freed, its number is only overwritten. -/
def State.cspaceAlloc (s : State) (al : Alloc) : Except Fault State := do
  let run ← deref .null s.tRunning
  let slot ← deref .assert al.slot
  if s.slotUsed slot then .error .disabled
  else .ok { s with
    slot := Function.update s.slot (s.thread run) slot
    slotUsed := Function.update s.slotUsed slot true }

/-- The contents of a freed `thread_t` are arbitrary: the fields of the one record take the values
that they have in `junk`. -/
def State.scribble (s : State) (t : Addr) (junk : State) : State :=
  { s with
    tId := Function.update s.tId t (junk.tId t)
    status := Function.update s.status t (junk.status t)
    join := Function.update s.join t (junk.join t)
    joined := Function.update s.joined t (junk.joined t)
    slot := Function.update s.slot t (junk.slot t) }

namespace Mach

variable {U G A E : Type}

/-- Save the frame `fr` as the transfer says and load the next one. For a swap the caller's context
is saved first, so a swap to oneself would come back. -/
def transfer (m : Mach U G) (fr : Frame U) : Transfer → Mach U G
  | .stay => { m with cpu := fr }
  | .swap cur new =>
    { m with
      ctx := Function.update m.ctx cur fr
      cpu := Function.update m.ctx cur fr new }
  | .switch new => { m with cpu := m.ctx new }

/-- The result of a call that leaves the thread at `fr`, whenever it gets the processor back. -/
def finish (m : Mach U G) (fr : Frame U) (r : Except Fault (State × Transfer)) :
    Except Fault (Mach U G) := do
  let (s, tr) ← r
  .ok ({ m with st := s }.transfer fr tr)

/-- The result of one turn of the waiting loop of a lock or a semaphore `p`; `fr` is
the frame of the loop and `u` the user state behind it. -/
def loop (m : Mach U G) (p : Addr) (fr : Bool → Frame U) (slept : Bool) (u : U) :
    State × Turn → Mach U G
  | (s, .again .stay) => { m with st := s, cpu := fr slept }
  | (s, .again tr) =>
    { m with
      st := s
      blocked := Function.update m.blocked p (m.blocked p ++ [m.st.coCurrentId])
      }.transfer (fr true) tr
  | (s, .done) =>
    { m with
      st := s
      cpu := .user u
      served := if slept then Function.update m.served p (m.served p ++ [m.st.coCurrentId])
        else m.served }

/-- The history of a primitive begins when it is created: an address may have been used before. -/
def forget (m : Mach U G) : Ptr → Mach U G
  | none => m
  | some p =>
    { m with
      vs := Function.update m.vs p 0
      ps := Function.update m.ps p 0
      blocked := Function.update m.blocked p []
      served := Function.update m.served p [] }

/-- The library calls. Those with a waiting loop only come to its head here; the loop itself is
taken turn by turn. -/
def call (m : Mach U G) (al : Alloc) (ret : Option ℕ → U) : Call U → Except Fault (Mach U G)
  | .pause => .ok { m with cpu := .user (ret none) }
  | .create u => do
    let (s, id) ← m.st.threadCreate al
    .ok { m with
      st := s
      cpu := .user (ret (some id))
      ctx := match al.thread with
        | none => m.ctx
        | some t => if id = 0 then m.ctx else Function.update m.ctx t (.user u)
      created := if id = 0 then m.created else Function.update m.created id true }
  | .yield => m.finish (.user (ret none)) m.st.threadYield
  | .resume id => m.finish (.user (ret none)) (m.st.threadResume id)
  | .exit =>
    { m with exited := Function.update m.exited m.st.coCurrentId true }.finish
      (.user (ret none)) m.st.threadExit
  | .sleep prim => m.finish (.user (ret none)) (m.st.threadSleep prim)
  | .wakeup prim => m.finish (.user (ret none)) (m.st.threadWakeup prim)
  | .wakeupWait prim => m.finish (.user (ret none)) (m.st.threadWakeupWait prim)
  | .primInit => do
    let (s, p) ← m.st.createPrim .plain al
    .ok ({ m with st := s, cpu := .user (ret p) }.forget p)
  | .lockCreate => do
    let (s, p) ← m.st.threadLockCreate al
    .ok ({ m with st := s, cpu := .user (ret p) }.forget p)
  | .lockDestory lock => do
    let s ← m.st.threadLockDestory lock
    .ok { m with st := s, cpu := .user (ret none) }
  | .acquire lock => do
    m.st.threadLockAcquireEnter lock
    .ok { m with cpu := .acquire false lock (ret none) }
  | .release lock => m.finish (.user (ret none)) (m.st.threadLockReleaseIntern lock)
  | .releaseAcquire lock =>
    m.finish (.relAcq lock (ret none)) (m.st.threadLockReleaseAcquire lock)
  | .semCreate => do
    let (s, p) ← m.st.threadSemaphoreCreate al
    .ok ({ m with st := s, cpu := .user (ret p) }.forget p)
  | .semDestory sem => do
    let s ← m.st.threadSemaphoreDestory sem
    .ok { m with st := s, cpu := .user (ret none) }
  | .semP sem => .ok { m with cpu := .semP false sem (ret none) }
  | .semV sem =>
    { m with vs := Function.update m.vs sem (m.vs sem + 1) }.finish (.user (ret none))
      (m.st.threadSemaphoreV sem)
  | .cvWait cv lock => m.finish (.cvSleep cv lock (ret none)) (m.st.threadLockReleaseIntern lock)
  | .cvSignal cv => m.finish (.user (ret none)) (m.st.threadCvSignal cv)
  | .join id => do
    match ← m.st.threadJoinEnter al id with
    | (s, none) => .ok { m with st := s, cpu := .user (ret none) }
    | (s, some (cur, new)) => .ok { m with st := s, cpu := .join cur new id (ret none) }
  | .cspaceAlloc => do
    let s ← m.st.cspaceAlloc al
    .ok { m with st := s, cpu := .user (ret al.slot) }

/-- The running thread goes on inside the library: one turn of the loop it is in, or the next of the
functions that `thread_cv_wait` consists of. -/
def turn (m : Mach U G) : Except Fault (Mach U G) :=
  match m.cpu with
  | .user _ => .error .disabled
  | .acquire slept lock u => do
    let r ← m.st.threadLockAcquireTurn lock
    .ok (m.loop lock (.acquire · lock u) slept u r)
  | .relAcq _ u => .ok { m with cpu := .user u }
  | .semP slept sem u => do
    let r ← m.st.threadSemaphorePTurn sem
    let m := m.loop sem (.semP · sem u) slept u r
    .ok (match r with
      | (_, .again _) => m
      | (_, .done) => { m with ps := Function.update m.ps sem (m.ps sem + 1) })
  | .cvSleep cv lock u => m.finish (.cvAcquire cv lock u) (m.st.threadSleep cv)
  | .cvAcquire _ lock u => do
    m.st.threadLockAcquireEnter lock
    .ok { m with cpu := .acquire false lock u }
  | .join cur new id u => do
    match ← m.st.threadJoinTurn cur new id with
    | (s, .again tr) => .ok ({ m with st := s }.transfer (.join cur new id u) tr)
    | (s, .done) => .ok { m with st := s, cpu := .user u }

/-- One step of the machine. A label that does not fit the state, such as a turn of a thread in user
code, is `disabled` and gives no step. -/
def step (P : Program U G A E) (m : Mach U G) : Label A E → Except Fault (Mach U G)
  | .call act al =>
    match m.cpu with
    | .user u =>
      match P.next act m.st.view u m.g with
      | none => .error .disabled
      | some (c, ret, g) => { m with g := g }.call al ret c
    | _ => .error .disabled
  | .turn => m.turn
  | .env e =>
    match P.env e m.g with
    | none => .error .disabled
    | some g => .ok { m with g := g }
  | .scribble t junk =>
    if m.st.threadLive t then .error .disabled else .ok { m with st := m.st.scribble t junk }

/-- Inversion for `finish`: the call went through, and its transfer was carried out. -/
theorem finish_eq_ok {m m' : Mach U G} {fr : Frame U} {r : Except Fault (State × Transfer)}
    (he : m.finish fr r = .ok m') :
    ∃ s tr, r = .ok (s, tr) ∧ m' = { m with st := s }.transfer fr tr := by
  obtain ⟨⟨s, tr⟩, hr, he⟩ := bind_eq_ok he
  exact ⟨s, tr, hr, (Except.ok.inj he).symm⟩

@[simp] theorem transfer_st (m : Mach U G) (fr : Frame U) (tr : Transfer) :
    (m.transfer fr tr).st = m.st := by
  cases tr <;> rfl

@[simp] theorem forget_st (m : Mach U G) (p : Ptr) : (m.forget p).st = m.st := by
  cases p <;> rfl

@[simp] theorem loop_st (m : Mach U G) (p : Addr) (fr : Bool → Frame U) (slept : Bool) (u : U)
    (r : State × Turn) : (m.loop p fr slept u r).st = r.1 := by
  obtain ⟨s, (_ | ⟨cur, new⟩ | new) | _⟩ := r <;> rfl

theorem step_call {P : Program U G A E} {m : Mach U G} {act : A} {al : Alloc} {u : U}
    {c : Call U} {ret : Option ℕ → U} {g : G} (hcpu : m.cpu = .user u)
    (hn : P.next act m.st.view u m.g = some (c, ret, g)) :
    m.step P (.call act al) = { m with g := g }.call al ret c := by
  simp only [step, hcpu, hn]

/-- The step is a call `c` of user code. This is how the theorems name the call that a label
makes. -/
def Calls (P : Program U G A E) (m : Mach U G) (l : Label A E) (c : Call U) : Prop :=
  ∃ act al u ret g, l = .call act al ∧ m.cpu = .user u ∧
    P.next act m.st.view u m.g = some (c, ret, g)

/-- How the step fails, if it does; the theorems about assertions are about this. -/
def fault (P : Program U G A E) (m : Mach U G) (l : Label A E) : Option Fault :=
  match m.step P l with
  | .ok _ => none
  | .error f => some f

/-- The call that the step makes, if it makes one. -/
def callOf (P : Program U G A E) (m : Mach U G) : Label A E → Option (Call U)
  | .call act _ =>
    match m.cpu with
    | .user u => (P.next act m.st.view u m.g).map (·.1)
    | _ => none
  | _ => none

theorem calls_iff {P : Program U G A E} {m : Mach U G} {l : Label A E} {c : Call U} :
    m.Calls P l c ↔ m.callOf P l = some c := by
  constructor
  · rintro ⟨act, al, u, ret, g, rfl, hcpu, hn⟩
    simp only [callOf, hcpu, hn, Option.map_some]
  · intro h
    rcases l with ⟨act, al⟩ | _ | _ | _ <;> simp only [callOf] at h <;> try cases h
    split at h
    · rename_i u hcpu
      obtain ⟨⟨c', ret, g⟩, hn, rfl⟩ := Option.map_eq_some_iff.mp h
      exact ⟨act, al, u, ret, g, rfl, hcpu, hn⟩
    · cases h

/-- The machine after `thread_initial`: thread 0 runs the user code of the program, on the given
memory and blocks. -/
def boot (P : Program U G A E) (mem : State) (t link : Addr) (g : G) : Mach U G where
  st := mem.threadInitial t link
  cpu := .user P.main
  ctx _ := .user P.main
  g := g
  created i := i == 0
  exited _ := false
  vs _ := 0
  ps _ := 0
  blocked _ := []
  served _ := []

end Mach

/-- Memory before `thread_initial`: nothing is allocated, the contents are arbitrary. C gives no
other guarantee about what `malloc` returns. -/
structure Blank (mem : State) : Prop where
  threadLive : ∀ a, mem.threadLive a = false
  linkLive : ∀ a, mem.linkLive a = false
  blockLive : ∀ a, mem.blockLive a = false
  kind : ∀ a, mem.kind a = none

/-- **The runs of a program**, over every initial memory and every behaviour of the allocators, the
environment and the threads' choices. -/
def Program.runs {U G A E : Type} (P : Program U G A E) : Lts (Mach U G) (Label A E) where
  init m := ∃ mem t link g, Blank mem ∧ P.init g ∧ m = Mach.boot P mem t link g
  step m l m' := m.step P l = .ok m'

/-! ## Executing a run -/

section Exec

variable {U G A E : Type}

/-- Take the steps `ls` one after the other, as long as each of them meets `ok`. Concrete runs are
evaluated with it. -/
def Mach.exec (P : Program U G A E) (ok : Mach U G → Label A E → Prop)
    [∀ m l, Decidable (ok m l)] (m : Mach U G) : List (Label A E) → Except Fault (Mach U G)
  | [] => .ok m
  | l :: ls => if ok m l then do (← m.step P l).exec P ok ls else .error .disabled

/-- What can be executed is a run of every system that has these steps. -/
theorem Mach.exec_reach {P : Program U G A E} {T : Lts (Mach U G) (Label A E)}
    {ok : Mach U G → Label A E → Prop} [∀ m l, Decidable (ok m l)]
    (hT : ∀ m l m', ok m l → P.runs.step m l m' → T.step m l m') {ls : List (Label A E)}
    {m m' : Mach U G} (hm : Reach T m) (he : m.exec P ok ls = .ok m') : Reach T m' := by
  induction ls generalizing m with
  | nil => exact Except.ok.inj he ▸ hm
  | cons l ls ih =>
    simp only [Mach.exec] at he
    split at he
    · rename_i hok
      obtain ⟨m₁, hs, he⟩ := bind_eq_ok he
      exact ih (.step hm (hT _ _ _ hok hs)) he
    · cases he

/-- The run `ls` can be executed and ends in a state that satisfies `Q`, as a Boolean that can be
evaluated. -/
def Mach.reaches (P : Program U G A E) (ok : Mach U G → Label A E → Prop)
    [∀ m l, Decidable (ok m l)] (m : Mach U G) (ls : List (Label A E)) (Q : Mach U G → Prop)
    [DecidablePred Q] : Bool :=
  match m.exec P ok ls with
  | .ok m' => decide (Q m')
  | .error _ => false

theorem Mach.exists_of_reaches {P : Program U G A E} {T : Lts (Mach U G) (Label A E)}
    (ok : Mach U G → Label A E → Prop) [∀ m l, Decidable (ok m l)]
    (hT : ∀ m l m', ok m l → P.runs.step m l m' → T.step m l m') {m : Mach U G} (hm : Reach T m)
    (ls : List (Label A E)) (Q : Mach U G → Prop) [DecidablePred Q]
    (hq : m.reaches P ok ls Q = true) : ∃ m', Reach T m' ∧ Q m' := by
  unfold Mach.reaches at hq
  split at hq
  · rename_i m' he
    exact ⟨m', exec_reach hT hm he, of_decide_eq_true hq⟩
  · cases hq

end Exec

/-- Memory that is all zero, for the concrete runs. -/
def State.zero : State where
  initialised := false
  coCurrentId := 0
  num := 0
  newId := 0
  tRunning := none
  readyNum := 0
  tReady := ⟨none, none⟩
  waitingNum := 0
  syncPrim := ⟨none, none⟩
  addrs _ := none
  tId _ := 0
  status _ := .running
  join _ := none
  joined _ := ⟨none, none⟩
  slot _ := 0
  threadLive _ := false
  thread _ := 0
  next _ := none
  linkLive _ := false
  caller _ := 0
  joiner _ := 0
  joinable _ := false
  joinNext _ := none
  blockLive _ := false
  blockNum := 0
  kind _ := none
  primPre _ := none
  primNext _ := none
  waiting _ := ⟨none, none⟩
  helder _ := 0
  held _ := 0
  count _ := 0
  slotUsed _ := false

theorem State.zero_blank : Blank State.zero :=
  ⟨fun _ => rfl, fun _ => rfl, fun _ => rfl, fun _ => rfl⟩

/-- The user code of a thread that makes a fixed list of calls and ignores what they return. -/
inductive Script : Type where
  | done
  | call (c : Call Script) (rest : Script)

/-- The program whose thread 0 runs the script `main`. -/
def Script.program (main : Script) : Program Script Unit Unit Unit where
  main := main
  init _ := True
  next _ _ u g :=
    match u with
    | .done => none
    | .call c rest => some (c, fun _ => rest, g)
  env _ _ := none

/-- The machine on which a script starts. -/
def Script.boot (main : Script) : Mach Script Unit := Mach.boot main.program State.zero 0 0 ()

/-- Allocate the blocks with number `n`, and let every other allocation succeed too. -/
def Alloc.at (n : ℕ) : Alloc := ⟨some n, true, true, some n, some n, some n, some n⟩

theorem Script.boot_init (main : Script) : main.program.runs.init main.boot :=
  ⟨State.zero, 0, 0, (), State.zero_blank, trivial, rfl⟩

/-- Let the running thread make its next call, with the blocks `n`. -/
def Label.go (n : ℕ) : Label Unit Unit := .call () (.at n)

end GreenLib
