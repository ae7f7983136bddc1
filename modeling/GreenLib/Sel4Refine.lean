import GreenLib.BinSem
import GreenLib.Sel4Server

/-!
# The server with kernel threads, over the real mutex and notifications

`Sel4Server` takes the mutex `lock_global` and the notifications `producer_list` and `consumer_list`
for granted: a mutex that is locked in one step, and one bit for each notification. Here the same
`process_message` runs over what the system really has: the binary semaphore of libsel4sync, with
its value, its compare and exchange and its notification (`BinSem`), and the notification objects of
the kernel with their queues (`Ntfn`). `process_message` ignores what `sync_mutex_lock` returns, so
here a thread also goes on when it has failed.

Each run of this server is a run of the other one (`refines`): the mutex is given back when the
value is incremented, and taken when `sync_mutex_lock` returns. So whatever holds in every run of
the other one holds here, with any number of threads that an `int` can count; among this that the
buffer is safe (`fine_server_safe`).
-/

namespace GreenLib

/-- The threads `T` of the server, and what they share, with the mutex and the notifications as they
are implemented. -/
structure FineServer (T : Type) : Type where
  pc : T → Sel4Pc
  /-- `lock_global`, and where the threads are in its functions -/
  lock : BinSem T
  /-- `buffer` and `buffer_limit` -/
  buf : Buffer
  /-- `producer_list` and `consumer_list` -/
  list : Role → Ntfn T
  /-- history: the number of changes each role made to the buffer -/
  changes : Role → ℕ

namespace FineServer

inductive Label (T : Type) : Type where
  /-- `t` receives a request, `none` stands for `INIT` and `TMNT` -/
  | deliver (t : T) (m : Option Role)
  /-- `t` goes on -/
  | go (t : T)
  /-- the compare and exchange of `t` fails -/
  | spurious (t : T)

variable {T : Type} [DecidableEq T]

def goTo (s : FineServer T) (t : T) (p : Sel4Pc) : FineServer T :=
  { s with pc := Function.update s.pc t p }

/-- One step inside `sync_mutex_lock`, or the return from it to `p`, also from a call that has
failed. -/
def locking (s : FineServer T) (t : T) (p : Sel4Pc) : Except Fault (FineServer T) :=
  match s.lock.phase t with
  | .out => do
    let m ← s.lock.step (.lock t)
    .ok { s with lock := m }
  | .holding | .failed => .ok (s.goTo t p)
  | _ => do
    let m ← s.lock.step (.go t)
    .ok { s with lock := m }

/-- One step inside `sync_mutex_unlock`, which returns to `p` when the thread has left the
semaphore. -/
def unlocking (s : FineServer T) (t : T) (p : Sel4Pc) : Except Fault (FineServer T) :=
  match s.lock.phase t with
  | .holding | .failed => do
    let m ← s.lock.step (.unlock t)
    .ok { s with lock := m }
  | _ => do
    let m ← s.lock.step (.go t)
    .ok { (if m.phase t = .out then s.goTo t p else s) with lock := m }

/-- One step of the thread `t`, which is one access to what the threads share, or one call of the
kernel. -/
def go (s : FineServer T) (t : T) : Except Fault (FineServer T) :=
  match s.pc t with
  | .recv => .error .disabled
  | .other => .ok (s.goTo t .recv)
  | .lock role again => s.locking t (.test role again)
  | .test role _ => .ok (s.goTo t (if s.buf.blocked role then .unlockWait role else .check role))
  | .unlockWait role => s.unlocking t (.wait role)
  | .wait role =>
    let (n, badge) := (s.list role).receiveSignal t
    .ok { s.goTo t (if badge.isSome then .lock role true else .blocked role) with
      list := Function.update s.list role n }
  | .blocked _ => .error .disabled
  | .check role => if s.buf.allowed role then .ok (s.goTo t (.load role)) else .error .assert
  | .load role => .ok (s.goTo t (.store role s.buf.level))
  | .store role v =>
    .ok { s.goTo t (.signal role) with
      buf := { s.buf with level := v }.change role
      changes := Function.update s.changes role (s.changes role + 1) }
  | .signal role =>
    let (n, dest) := (s.list role.other).sendSignal 0
    let s := { s.goTo t (.unlock role) with list := Function.update s.list role.other n }
    match dest with
    | none => .ok s
    | some u => .ok (s.goTo u (.lock role.other true))
  | .unlock role => s.unlocking t (.reply role)
  | .reply _ => .ok (s.goTo t .recv)

/-- One step of the system. A compare and exchange may fail without a reason, which is a step of its
own. -/
def step (s : FineServer T) : Label T → Except Fault (FineServer T)
  | .deliver t m =>
    if s.pc t = .recv then
      .ok (s.goTo t (match m with
        | none => .other
        | some role => .lock role false))
    else .error .disabled
  | .go t => s.go t
  | .spurious t =>
    match s.pc t with
    | .lock _ _ => do
      let m ← s.lock.step (.spurious t)
      .ok { s with lock := m }
    | _ => .error .disabled

/-- All threads are in `seL4_Recv`, the mutex is free and the buffer is empty. -/
def initial (T : Type) (limit : ℤ) : FineServer T where
  pc _ := .recv
  lock := .initial T
  buf := ⟨0, limit⟩
  list _ := .idle
  changes _ := 0

/-- **The runs** with the threads `T` and a given `buffer_limit`, in which the threads take their
steps in any order. -/
def runs (T : Type) [DecidableEq T] (limit : ℤ) : Lts (FineServer T) (Label T) where
  init s := s = initial T limit
  step s l s' := s.step l = .ok s'

end FineServer

/-! ## Steps in the functions of the mutex -/

namespace BinSem

variable {T : Type} [DecidableEq T] {s s' : BinSem T} {t : T}

/-- A thread in `sync_mutex_lock` moves alone: it comes to an end there, or stays in the
function. -/
theorem go_of_wants (he : s.go t = .ok s') (hp : wants (s.phase t) = true) :
    ∃ ph, s'.phase = Function.update s.phase t ph ∧
      (ph = .failed ∨ ph = .holding ∨ wants ph = true) := by
  cases go_acts he with
  | full h hv => exact ⟨_, rfl, .inl rfl⟩
  | load h hv => exact ⟨_, rfl, .inr (.inr rfl)⟩
  | slow h hv => exact ⟨_, rfl, .inr (.inr rfl)⟩
  | fast h hv => exact ⟨_, rfl, .inr (.inl rfl)⟩
  | retry h => exact ⟨_, rfl, .inr (.inr rfl)⟩
  | take h ha hq hq' ha' => exact ⟨_, rfl, .inr (.inl rfl)⟩
  | block h ha hq ha' => exact ⟨_, rfl, .inr (.inr rfl)⟩
  | owe h hv hval => rw [h] at hp; cases hp
  | leave h hv hval => rw [h] at hp; cases hp
  | signal h hq hq' ha' => rw [h] at hp; cases hp
  | wake h hq ha' => rw [h] at hp; cases hp

/-- A thread in `sync_mutex_unlock` comes to its end, or goes on to the signal, which may release a
thread that waits. -/
theorem go_of_posts [Fintype T] (h : s.Inv) (he : s.go t = .ok s')
    (hp : s.phase t = .signal ∨ ∃ val, s.phase t = .check val) :
    s'.phase = Function.update s.phase t .signal ∨ s'.phase = Function.update s.phase t .out ∨
      ∃ u, s.phase u = .blocked ∧
        s'.phase = Function.update (Function.update s.phase t .out) u .holding := by
  have hno : ∀ {ph : SemPhase}, s.phase t = ph → ph = .signal ∨ ∃ val, ph = .check val :=
    fun hph => hph ▸ hp
  cases go_acts he with
  | full h hv => rcases hno h with h | ⟨_, h⟩ <;> cases h
  | load h hv => rcases hno h with h | ⟨_, h⟩ <;> cases h
  | slow h hv => rcases hno h with h | ⟨_, h⟩ <;> cases h
  | fast h hv => rcases hno h with h | ⟨_, h⟩ <;> cases h
  | retry h => rcases hno h with h | ⟨_, h⟩ <;> cases h
  | take h ha hq hq' ha' => rcases hno h with h | ⟨_, h⟩ <;> cases h
  | block h ha hq ha' => rcases hno h with h | ⟨_, h⟩ <;> cases h
  | owe h hv hval => exact .inl rfl
  | leave h hv hval => exact .inr (.inl rfl)
  | signal h hq hq' ha' => exact .inr (.inl rfl)
  | @wake _ u _ hp hq ha' =>
    refine .inr (.inr ⟨u, ?_, rfl⟩)
    rw [h.blocked_iff, hq]
    exact List.mem_cons_self

end BinSem

/-! ## The two servers -/

namespace FineServer

variable {T : Type} [DecidableEq T]

/-- How the place `p` of a thread and its place `ph` in the functions of the mutex fit together, and
the place `q` of the thread in the other server: a thread that has incremented the value has given
the mutex back there. -/
def Place (p : Sel4Pc) (ph : SemPhase) (q : Sel4Pc) : Prop :=
  match p with
  | .lock _ _ => q = p ∧ (ph = .out ∨ ph = .holding ∨ BinSem.wants ph = true)
  | .test _ _ | .check _ | .load _ | .store _ _ | .signal _ => q = p ∧ ph = .holding
  | .unlockWait role =>
    (q = p ∧ ph = .holding) ∨ (q = .wait role ∧ (ph = .signal ∨ ∃ val, ph = .check val))
  | .unlock role =>
    (q = p ∧ ph = .holding) ∨ (q = .reply role ∧ (ph = .signal ∨ ∃ val, ph = .check val))
  | .recv | .other | .wait _ | .blocked _ | .reply _ => q = p ∧ ph = .out

/-- A thread that waits for the mutex is in `sync_mutex_lock`, and has not returned from it. -/
theorem Place.of_blocked {p q : Sel4Pc} {ph : SemPhase} (h : Place p ph q) (hph : ph = .blocked) :
    ∃ role again, p = .lock role again := by
  subst hph
  cases p with
  | lock role again => exact ⟨role, again, rfl⟩
  | unlockWait role => rcases h with ⟨-, h⟩ | ⟨-, h | ⟨val, h⟩⟩ <;> cases h
  | unlock role => rcases h with ⟨-, h⟩ | ⟨-, h | ⟨val, h⟩⟩ <;> cases h
  | _ => cases h.2

/-- A thread that waits for a notification in the other server does so here, so the waiters are the
same. -/
theorem Place.eq_blocked {p q : Sel4Pc} {ph : SemPhase} {role : Role} (h : Place p ph q)
    (hq : q = .blocked role) : p = .blocked role := by
  subst hq
  cases p with
  | unlockWait role => rcases h with ⟨h, -⟩ | ⟨h, -⟩ <;> cases h
  | unlock role => rcases h with ⟨h, -⟩ | ⟨h, -⟩ <;> cases h
  | _ => exact h.1.symm

/-- At `sync_mutex_lock` or inside it. Here a thread may hold the mutex already, which it does not
in the other server. -/
def atLock : Sel4Pc → Bool
  | .lock _ _ => true
  | _ => false

/-- In `seL4_Wait`, in the queue of a notification, where the thread cannot go on by itself. -/
def atWait : Sel4Pc → Bool
  | .blocked _ => true
  | _ => false

theorem ne_blocked {p : Sel4Pc} (h : atWait p = false) (role : Role) : p ≠ .blocked role := by
  rintro rfl
  cases h

variable [Fintype T]

/-- **The refinement relation.** The mutex of the other server is held by the thread that has it
here and has returned from `sync_mutex_lock`, and its bits are the states of the notifications. -/
structure Refines (s : FineServer T) (a : Sel4Server T) : Prop where
  inv : s.lock.Inv
  place : ∀ t, Place (s.pc t) (s.lock.phase t) (a.pc t)
  mutex : ∀ t, a.mutex = some t ↔ s.lock.phase t = .holding ∧ atLock (s.pc t) = false
  queue : ∀ role, (s.list role).Holds fun u => s.pc u = .blocked role
  flag : ∀ role, a.flag role = (s.list role).isActive
  buf : a.buf = s.buf
  changes : a.changes = s.changes

namespace Refines

variable {s s' : FineServer T} {a a' : Sel4Server T} {t u : T} {p q : Sel4Pc}

omit [DecidableEq T] in
theorem at_place (h : s.Refines a) (hp : s.pc t = p) : Place p (s.lock.phase t) (a.pc t) :=
  hp ▸ h.place t

omit [DecidableEq T] in
/-- Nobody has the mutex in the other server when a thread of this one is about to return from
`sync_mutex_lock`. -/
theorem mutex_none [DecidableEq T] (h : s.Refines a) (hph : s.lock.phase t = .holding)
    (hl : atLock (s.pc t) = true) : a.mutex = none := by
  rcases hm : a.mutex with _ | u
  · rfl
  · obtain ⟨hu, hlu⟩ := (h.mutex u).mp hm
    obtain rfl := h.inv.exclusive hph hu
    cases hl.symm.trans hlu

omit [Fintype T] in
theorem place_goTo {s : FineServer T} {a : Sel4Server T}
    (hplace : ∀ u, Place (s.pc u) (s.lock.phase u) (a.pc u)) (hp : Place p (s.lock.phase t) q)
    (u : T) : Place ((s.goTo t p).pc u) (s.lock.phase u) ((a.goTo t q).pc u) := by
  rcases eq_or_ne u t with rfl | hne
  · simpa [goTo, Sel4Server.goTo] using hp
  · simpa [goTo, Sel4Server.goTo, Function.update_of_ne hne] using hplace u

omit [Fintype T] in
/-- A thread that moves between places that are not `seL4_Wait` waits as before, and so do all
others. -/
theorem blocked_goTo (hp : s.pc t = p) (hpb : atWait p = false)
    (hqb : atWait q = false) (role : Role) (v : T) :
    (s.goTo t q).pc v = .blocked role ↔ s.pc v = .blocked role := by
  rcases eq_or_ne v t with rfl | hne
  · simp [goTo, hp, ne_blocked hpb, ne_blocked hqb]
  · simp [goTo, Function.update_of_ne hne]

/-- A move of a thread that does not hold the mutex, or not into or out of `sync_mutex_lock`,
changes nothing about who holds it in the other server. -/
theorem mutex_goTo (h : s.Refines a) (hp : s.pc t = p)
    (hlock : s.lock.phase t = .holding → atLock q = atLock p) (v : T) :
    a.mutex = some v ↔ s.lock.phase v = .holding ∧ atLock ((s.goTo t q).pc v) = false := by
  rw [h.mutex]
  rcases eq_or_ne v t with rfl | hne
  · simp only [goTo, Function.update_self, hp]
    exact and_congr_right fun hh => by rw [hlock hh]
  · simp only [goTo, Function.update_of_ne hne]

/-- A thread moves outside the functions of the mutex and of the kernel, in both servers alike. -/
theorem move (h : s.Refines a) (hp : s.pc t = p) (hpb : atWait p = false)
    (hqb : atWait q = false) (hplace : Place q (s.lock.phase t) q)
    (hlock : s.lock.phase t = .holding → atLock q = atLock p) :
    Refines (s.goTo t q) (a.goTo t q) where
  inv := h.inv
  place := place_goTo h.place hplace
  mutex := h.mutex_goTo hp hlock
  queue role := (h.queue role).keep (blocked_goTo hp hpb hqb role)
  flag := h.flag
  buf := h.buf
  changes := h.changes

/-- `t` returns from `sync_mutex_lock`. This is the step in which the other server locks the
mutex. -/
theorem returns (h : s.Refines a) {role : Role} {again : Bool} (hp : s.pc t = .lock role again)
    (hph : s.lock.phase t = .holding) :
    Refines (s.goTo t (.test role again))
      { a.goTo t (.test role again) with mutex := some t } where
  inv := h.inv
  place := place_goTo h.place ⟨rfl, hph⟩
  mutex v := by
    rcases eq_or_ne v t with rfl | hne
    · simp [goTo, hph, atLock]
    · -- nobody else holds the mutex
      have hv : s.lock.phase v ≠ .holding := fun hv => hne (h.inv.exclusive hv hph)
      simp [goTo, hv, hne.symm]
  queue r := (h.queue r).keep (blocked_goTo (q := .test role again) hp rfl rfl r)
  flag := h.flag
  buf := h.buf
  changes := h.changes

omit [DecidableEq T] in
/-- The mutex moves on, and nobody with it who has returned from `sync_mutex_lock`. The other server
takes no step. -/
theorem relock (h : s.Refines a) {m : BinSem T} (hm : m.Inv)
    (hplace : ∀ u, Place (s.pc u) (m.phase u) (a.pc u))
    (hmutex : ∀ u, atLock (s.pc u) = false →
      (m.phase u = .holding ↔ s.lock.phase u = .holding)) :
    Refines { s with lock := m } a where
  inv := hm
  place := hplace
  mutex u := by
    rw [h.mutex]
    refine and_congr_left fun hu => ?_
    exact (hmutex u hu).symm
  queue := h.queue
  flag := h.flag
  buf := h.buf
  changes := h.changes

/-- A step inside `sync_mutex_lock`, also the one that gets the mutex, is none of the other
server. -/
theorem locking (h : s.Refines a) {m : BinSem T} {role : Role} {again : Bool} (ph : SemPhase)
    (hp : s.pc t = .lock role again) (hm : m.Inv)
    (hph : m.phase = Function.update s.lock.phase t ph)
    (hw : ph = .failed ∨ ph = .holding ∨ BinSem.wants ph = true) :
    Refines { s with lock := m } a := by
  have hret : ph ≠ .failed := by
    have := hm.returns t
    rwa [hph, Function.update_self] at this
  refine h.relock hm (fun u => ?_) fun u hu => ?_
  · rw [hph]
    rcases eq_or_ne u t with rfl | hne
    · have hpl := h.at_place hp
      rw [Function.update_self, hp]
      exact ⟨hpl.1, .inr (hw.resolve_left hret)⟩
    · rw [Function.update_of_ne hne]
      exact h.place u
  · have hne : u ≠ t := by
      rintro rfl
      rw [hp] at hu
      cases hu
    rw [hph, Function.update_of_ne hne]

/-- The increment in `sync_mutex_unlock`: the other server gives the mutex back here. -/
theorem unlock (h : s.Refines a) {m : BinSem T} (val : ℤ) (hl : atLock (s.pc t) = false)
    (hph : s.lock.phase t = .holding) (hm : m.Inv)
    (hphase : m.phase = Function.update s.lock.phase t (.check val))
    (hplace : Place (s.pc t) (.check val) q) :
    Refines { s with lock := m } { a.goTo t q with mutex := none } where
  inv := hm
  place u := by
    rw [hphase]
    rcases eq_or_ne u t with rfl | hne
    · simpa [Sel4Server.goTo] using hplace
    · simpa [Sel4Server.goTo, Function.update_of_ne hne] using h.place u
  mutex u := by
    -- the others did not hold the mutex before
    have hu : m.phase u ≠ .holding := by
      rw [hphase]
      rcases eq_or_ne u t with rfl | hne
      · simp
      · rw [Function.update_of_ne hne]
        exact fun hu => hne (h.inv.exclusive hu hph)
    simp [hu]
  queue := h.queue
  flag := h.flag
  buf := h.buf
  changes := h.changes

/-- `t` returns from `sync_mutex_unlock` to `q`, where it is in the other server already. -/
theorem leave (h : s.Refines a) {m : BinSem T} (hm : m.Inv) (hp : s.pc t = p) (hq : a.pc t = q)
    (hpb : atWait p = false) (hqb : atWait q = false) (hph : m.phase t = .out)
    (hnot : s.lock.phase t ≠ .holding) (hplace : Place q .out q)
    (hothers : ∀ u, u ≠ t → Place (s.pc u) (m.phase u) (a.pc u))
    (hmutex : ∀ u, u ≠ t → atLock (s.pc u) = false →
      (m.phase u = .holding ↔ s.lock.phase u = .holding)) :
    Refines { s.goTo t q with lock := m } a where
  inv := hm
  place u := by
    rcases eq_or_ne u t with rfl | hne
    · simpa [goTo, hph, hq] using hplace
    · simpa [goTo, Function.update_of_ne hne] using hothers u hne
  mutex u := by
    rw [h.mutex]
    rcases eq_or_ne u t with rfl | hne
    · simp [hnot, hph]
    · simp only [goTo, Function.update_of_ne hne]
      refine and_congr_left fun hl => ?_
      exact (hmutex u hne hl).symm
  queue role := (h.queue role).keep (blocked_goTo hp hpb hqb role)
  flag := h.flag
  buf := h.buf
  changes := h.changes

/-- The steps behind the increment change nothing in the other server. A thread that waits in
`sync_mutex_lock` may get the mutex. -/
theorem posting (h : s.Refines a) {m : BinSem T} (hm : m.Inv) (hp : s.pc t = p) (hq : a.pc t = q)
    (hpost : s.lock.phase t = .signal ∨ ∃ val, s.lock.phase t = .check val)
    (hgo : s.lock.go t = .ok m) (hpb : atWait p = false)
    (hqb : atWait q = false) (hplace : Place q .out q) (hsig : Place p .signal q) :
    Refines { (if m.phase t = .out then s.goTo t q else s) with lock := m } a := by
  have hnot : s.lock.phase t ≠ .holding := by
    intro hh
    rcases hpost with hpost | ⟨val, hpost⟩ <;> cases hh.symm.trans hpost
  rcases BinSem.go_of_posts h.inv hgo hpost with hphase | hphase | ⟨u, hu, hphase⟩
  · have hout : ¬ m.phase t = .out := by simp [hphase]
    rw [if_neg hout]
    refine h.relock hm (fun v => ?_) fun v hv => ?_
    · rcases eq_or_ne v t with rfl | hne
      · simpa [hphase, hp, hq] using hsig
      · simpa [hphase, Function.update_of_ne hne] using h.place v
    · rcases eq_or_ne v t with rfl | hne
      · simp [hphase, hnot]
      · simp [hphase, Function.update_of_ne hne]
  · have hout : m.phase t = .out := by simp [hphase]
    rw [if_pos hout]
    refine h.leave hm hp hq hpb hqb hout hnot hplace (fun v hne => ?_) fun v hne hv => ?_
    · simpa [hphase, Function.update_of_ne hne] using h.place v
    · simp [hphase, Function.update_of_ne hne]
  · have hut : u ≠ t := by
      rintro rfl
      rcases hpost with hpost | ⟨val, hpost⟩ <;> cases hu.symm.trans hpost
    have hout : m.phase t = .out := by simp [hphase, Function.update_of_ne hut.symm]
    -- the thread that gets the mutex is in `sync_mutex_lock`, and stays there
    obtain ⟨role, again, hpu⟩ := (h.place u).of_blocked hu
    rw [if_pos hout]
    refine h.leave hm hp hq hpb hqb hout hnot hplace (fun v hne => ?_) fun v hne hv => ?_
    · rcases eq_or_ne v u with rfl | hvu
      · have hpl := h.at_place hpu
        rw [hphase, Function.update_self, hpu]
        exact ⟨hpl.1, .inr (.inl rfl)⟩
      · simpa [hphase, Function.update_of_ne hvu, Function.update_of_ne hne] using h.place v
    · rcases eq_or_ne v u with rfl | hvu
      · rw [hpu] at hv
        cases hv
      · simp [hphase, Function.update_of_ne hvu, Function.update_of_ne hne]

omit [DecidableEq T] in
/-- A notification that nobody waits for becomes active, or stops being so, and the bit of the other
server with it. -/
theorem relist (h : s.Refines a) (role : Role) {n : Ntfn T} (hq : (s.list role).queue = [])
    (hq' : n.queue = []) : Refines { s with list := Function.update s.list role n }
      { a with flag := Function.update a.flag role n.isActive } where
  inv := h.inv
  place := h.place
  mutex := h.mutex
  queue r := by
    rcases eq_or_ne r role with rfl | hne
    · simpa using (h.queue r).of_nil hq hq' fun _ => Iff.rfl
    · simpa [Function.update_of_ne hne] using h.queue r
  flag r := by
    rcases eq_or_ne r role with rfl | hne
    · simp
    · simpa [Function.update_of_ne hne] using h.flag r
  buf := h.buf
  changes := h.changes

/-- A thread joins the queue of a notification or leaves it. It does not hold the mutex there. -/
theorem requeue (h : s.Refines a) {role : Role} {n : Ntfn T} (hplace : Place q (s.lock.phase t) q)
    (hph : s.lock.phase t ≠ .holding) (hact : n.isActive = (s.list role).isActive)
    (hqueue : n.Holds fun u => (s.goTo t q).pc u = .blocked role)
    (hothers : ∀ r, r ≠ role → s.pc t ≠ .blocked r ∧ q ≠ .blocked r) :
    Refines { s.goTo t q with list := Function.update s.list role n } (a.goTo t q) where
  inv := h.inv
  place := place_goTo h.place hplace
  mutex := h.mutex_goTo rfl fun hh => absurd hh hph
  queue r := by
    rcases eq_or_ne r role with rfl | hne
    · simpa using hqueue
    · obtain ⟨hp, hq⟩ := hothers r hne
      simp only [Function.update_of_ne hne]
      refine (h.queue r).keep fun v => ?_
      rcases eq_or_ne v t with rfl | hvt
      · simp [goTo, hp, hq]
      · simp [goTo, hvt]
  flag r := by
    rcases eq_or_ne r role with rfl | hne
    · simpa [Sel4Server.goTo, hact] using h.flag r
    · simpa [Sel4Server.goTo, Function.update_of_ne hne] using h.flag r
  buf := h.buf
  changes := h.changes

/-- A thread finds the notification of its role active, or waits for it. The other server takes the
bit or waits. -/
theorem waiting (h : s.Refines a) {role : Role} (hp : s.pc t = .wait role)
    (he : s.go t = .ok s') : ∃ a' k, Refines s' a' ∧ a.step k = .ok a' := by
  obtain ⟨hq, hph⟩ := h.at_place hp
  have hnot : s.lock.phase t ≠ .holding := by rw [hph]; nofun
  simp only [go, hp] at he
  obtain rfl := Except.ok.inj he
  rcases (s.list role).receiveSignal_cases t with ⟨ha, hnil, hb, hnil', ha'⟩ | ⟨ha, hb, happ, ha'⟩
  · refine ⟨{ a.goTo t (.lock role true) with flag := Function.update a.flag role false }, .go t,
      ?_, ?_⟩
    · have hmove : Refines (s.goTo t (.lock role true)) (a.goTo t (.lock role true)) :=
        h.move hp rfl rfl ⟨rfl, .inl hph⟩ fun hh => absurd hh hnot
      have hlist := hmove.relist role hnil hnil'
      rw [ha'] at hlist
      rw [if_pos hb]
      exact hlist
    · have hf : a.flag role = true := (h.flag role).trans ha
      simp only [Sel4Server.step, Sel4Server.go, hq, hf, if_true]
  · refine ⟨a.goTo t (.blocked role), .go t, ?_, ?_⟩
    · rw [hb]
      refine h.requeue (q := .blocked role) ⟨rfl, hph⟩ hnot (ha'.trans ha.symm) ?_ fun r hne => ?_
      · refine (h.queue role).append happ (by simp [hp]) fun v => ?_
        rcases eq_or_ne v t with rfl | hvt
        · simp [goTo]
        · simp [goTo, hvt]
      · exact ⟨by simp [hp], by simp [hne.symm]⟩
    · have hf : a.flag role = false := (h.flag role).trans ha
      simp [Sel4Server.step, Sel4Server.go, hq, hf]

/-- A thread signals, and releases the first one in the queue if there is one. In the other server
it may be any of those who wait. -/
theorem signalling (h : s.Refines a) {role : Role} (hp : s.pc t = .signal role)
    (he : s.go t = .ok s') : ∃ a' k, Refines s' a' ∧ a.step k = .ok a' := by
  obtain ⟨hq, hph⟩ := h.at_place hp
  have hmove : Refines (s.goTo t (.unlock role)) (a.goTo t (.unlock role)) :=
    h.move hp rfl rfl (.inl ⟨rfl, hph⟩) fun _ => rfl
  simp only [go, hp] at he
  rcases (s.list role.other).sendSignal_cases 0 with
    ⟨hnil, hd, hnil', ha'⟩ | ⟨u, rest, hcons, hd, hrest, ha'⟩
  · simp only [hd] at he
    obtain rfl := Except.ok.inj he
    refine ⟨{ a.goTo t (.unlock role) with flag := Function.update a.flag role.other true }, .go t,
      ?_, ?_⟩
    · have hlist := hmove.relist role.other hnil hnil'
      rw [ha'] at hlist
      exact hlist
    · have hno : ¬ ∃ u, a.pc u = .blocked role.other := by
        rintro ⟨u, hu⟩
        have hmem := ((h.queue role.other).mem u).mpr ((h.place u).eq_blocked hu)
        rw [hnil] at hmem
        cases hmem
      simp only [Sel4Server.step, Sel4Server.go, hq, if_neg hno]
  · simp only [hd] at he
    obtain rfl := Except.ok.inj he
    have hmem : u ∈ (s.list role.other).queue := by
      rw [hcons]
      exact List.mem_cons_self
    have hu : s.pc u = .blocked role.other := ((h.queue role.other).mem u).mp hmem
    obtain ⟨hqu, hphu⟩ := h.at_place hu
    have hut : u ≠ t := by
      rintro rfl
      cases hu.symm.trans hp
    have hu' : (s.goTo t (.unlock role)).pc u = .blocked role.other :=
      (Function.update_of_ne hut _ _).trans hu
    refine ⟨(a.goTo t (.unlock role)).goTo u (.lock role.other true), .release t u, ?_, ?_⟩
    · refine hmove.requeue (q := .lock role.other true) ⟨rfl, .inl hphu⟩ ?_
        (ha'.trans (Ntfn.not_isActive_of_mem hmem).symm) ?_ fun r hne => ?_
      · simp [show (s.goTo t (.unlock role)).lock = s.lock from rfl, hphu]
      · refine (hmove.queue role.other).tail hcons hrest fun v => ?_
        rcases eq_or_ne v u with rfl | hvu
        · simp [goTo]
        · simp [goTo, hvu]
      · exact ⟨by simp [hu', hne.symm], by simp⟩
    · simp only [Sel4Server.step, hq, hqu, if_true]

/-- A step in `sync_mutex_lock` is none of the other server but the last one, which takes the
mutex. -/
theorem locks (h : s.Refines a) (hcard : Fintype.card T ≤ 2 ^ 31) {role : Role} {again : Bool}
    (hp : s.pc t = .lock role again) (he : s.locking t (.test role again) = .ok s') :
    ∃ a', Refines s' a' ∧ (a' = a ∨ ∃ k, a.step k = .ok a') := by
  obtain ⟨hq, hph⟩ := h.at_place hp
  rcases hph with hph | hph | hph
  · simp only [FineServer.locking, hph] at he
    obtain ⟨m, hm, he⟩ := bind_eq_ok he
    obtain rfl := Except.ok.inj he
    refine ⟨a, h.locking .load hp (h.inv.acts hcard (BinSem.step_acts hm)) ?_ (.inr (.inr rfl)),
      .inl rfl⟩
    cases BinSem.step_acts hm
    rfl
  · simp only [FineServer.locking, hph] at he
    obtain rfl := Except.ok.inj he
    refine ⟨_, h.returns hp hph, .inr ⟨.go t, ?_⟩⟩
    have hnone := h.mutex_none hph (by rw [hp]; rfl)
    simp only [Sel4Server.step, Sel4Server.go, hq, hnone, if_true]
  · have hgo : ∃ m, s.lock.go t = .ok m ∧ s' = { s with lock := m } := by
      cases hph' : s.lock.phase t with
      | out => rw [hph'] at hph; cases hph
      | holding => rw [hph'] at hph; cases hph
      | failed => rw [hph'] at hph; cases hph
      | _ =>
        simp only [FineServer.locking, hph'] at he
        obtain ⟨m, hm, he⟩ := bind_eq_ok he
        exact ⟨m, hm, (Except.ok.inj he).symm⟩
    obtain ⟨m, hm, rfl⟩ := hgo
    obtain ⟨ph, hphase, hw⟩ := BinSem.go_of_wants hm hph
    exact ⟨a, h.locking ph hp (h.inv.acts hcard (BinSem.go_acts hm)) hphase hw, .inl rfl⟩

/-- The first step in `sync_mutex_unlock` gives the mutex back in the other server, the following
ones are none. -/
theorem unlocks (h : s.Refines a) (hcard : Fintype.card T ≤ 2 ^ 31) (hp : s.pc t = p)
    (hpb : atWait p = false) (hqb : atWait q = false) (hl : atLock p = false)
    (hplace : Place q .out q) (hpost : ∀ ph, ph = .signal ∨ (∃ val, ph = .check val) → Place p ph q)
    (hpl : (a.pc t = p ∧ s.lock.phase t = .holding) ∨ (a.pc t = q ∧
      (s.lock.phase t = .signal ∨ ∃ val, s.lock.phase t = .check val)))
    (hstep : a.pc t = p → a.step (.go t) = .ok { a.goTo t q with mutex := none })
    (he : s.unlocking t q = .ok s') : ∃ a', Refines s' a' ∧ (a' = a ∨ ∃ k, a.step k = .ok a') := by
  rcases hpl with ⟨hq, hph⟩ | ⟨hq, hph⟩
  · simp only [FineServer.unlocking, hph] at he
    obtain ⟨m, hm, he⟩ := bind_eq_ok he
    obtain rfl := Except.ok.inj he
    refine ⟨_, h.unlock (addFetch s.lock.value) (by rw [hp]; exact hl) hph
      (h.inv.acts hcard (BinSem.step_acts hm)) ?_ ?_, .inr ⟨.go t, hstep hq⟩⟩
    · cases BinSem.step_acts hm
      rfl
    · rw [hp]
      exact hpost _ (.inr ⟨_, rfl⟩)
  · have hgo : ∃ m, s.lock.go t = .ok m ∧
        s' = { (if m.phase t = .out then s.goTo t q else s) with lock := m } := by
      rcases hph with hph' | ⟨val, hph'⟩ <;>
      · simp only [FineServer.unlocking, hph'] at he
        obtain ⟨m, hm, he⟩ := bind_eq_ok he
        exact ⟨m, hm, (Except.ok.inj he).symm⟩
    obtain ⟨m, hm, rfl⟩ := hgo
    exact ⟨a, h.posting (h.inv.acts hcard (BinSem.go_acts hm)) hp hq hph hm hpb hqb hplace
      (hpost _ (.inl rfl)), .inl rfl⟩

/-- Each step of a thread is a step of the other server, or none, by where the thread is. -/
theorem goes (h : s.Refines a) (hcard : Fintype.card T ≤ 2 ^ 31) (he : s.go t = .ok s') :
    ∃ a', Refines s' a' ∧ (a' = a ∨ ∃ k, a.step k = .ok a') := by
  cases hp : s.pc t with
  | recv => simp only [go, hp] at he; cases he
  | blocked role => simp only [go, hp] at he; cases he
  | lock role again =>
    simp only [go, hp] at he
    exact h.locks hcard hp he
  | unlockWait role =>
    simp only [go, hp] at he
    refine h.unlocks (q := .wait role) hcard hp rfl rfl rfl ⟨rfl, rfl⟩
      (fun _ hph => .inr ⟨rfl, hph⟩) (h.at_place hp) (fun hq => ?_) he
    simp only [Sel4Server.step, Sel4Server.go, hq]
  | unlock role =>
    simp only [go, hp] at he
    refine h.unlocks (q := .reply role) hcard hp rfl rfl rfl ⟨rfl, rfl⟩
      (fun _ hph => .inr ⟨rfl, hph⟩) (h.at_place hp) (fun hq => ?_) he
    simp only [Sel4Server.step, Sel4Server.go, hq]
  | wait role =>
    obtain ⟨a', k, h', hk⟩ := h.waiting hp he
    exact ⟨a', h', .inr ⟨k, hk⟩⟩
  | signal role =>
    obtain ⟨a', k, h', hk⟩ := h.signalling hp he
    exact ⟨a', h', .inr ⟨k, hk⟩⟩
  | other =>
    obtain ⟨hq, hph⟩ := h.at_place hp
    simp only [go, hp] at he
    obtain rfl := Except.ok.inj he
    refine ⟨_, h.move hp rfl rfl ⟨rfl, hph⟩ fun _ => rfl, .inr ⟨.go t, ?_⟩⟩
    simp only [Sel4Server.step, Sel4Server.go, hq]
  | reply role =>
    obtain ⟨hq, hph⟩ := h.at_place hp
    simp only [go, hp] at he
    obtain rfl := Except.ok.inj he
    refine ⟨_, h.move hp rfl rfl ⟨rfl, hph⟩ fun _ => rfl, .inr ⟨.go t, ?_⟩⟩
    simp only [Sel4Server.step, Sel4Server.go, hq]
  | test role again =>
    obtain ⟨hq, hph⟩ := h.at_place hp
    simp only [go, hp] at he
    obtain rfl := Except.ok.inj he
    refine ⟨a.goTo t (if a.buf.blocked role then .unlockWait role else .check role), ?_,
      .inr ⟨.go t, ?_⟩⟩
    · rw [h.buf]
      cases s.buf.blocked role
      · exact h.move (q := .check role) hp rfl rfl ⟨rfl, hph⟩ fun _ => rfl
      · exact h.move (q := .unlockWait role) hp rfl rfl (.inl ⟨rfl, hph⟩) fun _ => rfl
    · simp only [Sel4Server.step, Sel4Server.go, hq]
  | check role =>
    obtain ⟨hq, hph⟩ := h.at_place hp
    simp only [go, hp] at he
    split at he
    · rename_i hall
      obtain rfl := Except.ok.inj he
      refine ⟨_, h.move (q := .load role) hp rfl rfl ⟨rfl, hph⟩ fun _ => rfl,
        .inr ⟨.go t, ?_⟩⟩
      rw [← h.buf] at hall
      simp only [Sel4Server.step, Sel4Server.go, hq, if_pos hall]
    · cases he
  | load role =>
    obtain ⟨hq, hph⟩ := h.at_place hp
    simp only [go, hp] at he
    obtain rfl := Except.ok.inj he
    refine ⟨_, h.move (q := .store role s.buf.level) hp rfl rfl ⟨rfl, hph⟩ fun _ => rfl,
      .inr ⟨.go t, ?_⟩⟩
    simp only [Sel4Server.step, Sel4Server.go, hq, h.buf]
  | store role v =>
    obtain ⟨hq, hph⟩ := h.at_place hp
    simp only [go, hp] at he
    obtain rfl := Except.ok.inj he
    have hmove := h.move (q := .signal role) hp rfl rfl ⟨rfl, hph⟩ fun _ => rfl
    refine ⟨{ a.goTo t (.signal role) with
      buf := { a.buf with level := v }.change role
      changes := Function.update a.changes role (a.changes role + 1) }, ?_, .inr ⟨.go t, ?_⟩⟩
    · rw [h.buf, h.changes]
      exact { hmove with buf := rfl, changes := rfl }
    · simp only [Sel4Server.step, Sel4Server.go, hq]

/-- **Each step is a step of the other server, or none.** None are those inside the functions of the
mutex. -/
theorem steps (h : s.Refines a) (hcard : Fintype.card T ≤ 2 ^ 31) {l : Label T}
    (he : s.step l = .ok s') : ∃ a', Refines s' a' ∧ (a' = a ∨ ∃ k, a.step k = .ok a') := by
  cases l with
  | go t => exact h.goes hcard he
  | deliver t m =>
    simp only [step] at he
    split at he
    · rename_i hp
      obtain ⟨hq, hph⟩ := h.at_place hp
      have hnot : s.lock.phase t ≠ .holding := by rw [hph]; nofun
      obtain rfl := Except.ok.inj he
      cases m with
      | none =>
        refine ⟨_, h.move (q := .other) hp rfl rfl ⟨rfl, hph⟩ fun _ => rfl,
          .inr ⟨.deliver t none, ?_⟩⟩
        simp only [Sel4Server.step, if_pos hq]
      | some role =>
        refine ⟨_, h.move (q := .lock role false) hp rfl rfl ⟨rfl, .inl hph⟩
          fun hh => absurd hh hnot, .inr ⟨.deliver t (some role), ?_⟩⟩
        simp only [Sel4Server.step, if_pos hq]
    · cases he
  | spurious t =>
    simp only [step] at he
    split at he
    · rename_i role again hp
      obtain ⟨m, hm, he⟩ := bind_eq_ok he
      obtain rfl := Except.ok.inj he
      refine ⟨a, h.locking .load hp (h.inv.acts hcard (BinSem.step_acts hm)) ?_
        (.inr (.inr rfl)), .inl rfl⟩
      cases BinSem.step_acts hm
      rfl
    · cases he

omit [DecidableEq T] in
theorem initial (limit : ℤ) : Refines (initial T limit) (Sel4Server.initial T limit) where
  inv := .initial
  place _ := ⟨rfl, rfl⟩
  mutex t := by simp [FineServer.initial, Sel4Server.initial, BinSem.initial]
  queue role := ⟨by simp [FineServer.initial, Ntfn.queue], List.nodup_nil⟩
  flag _ := rfl
  buf := rfl
  changes := rfl

end Refines

/-- **The server over the real mutex refines the other one**, for as many threads as an `int` can
count. -/
theorem refines (hcard : Fintype.card T ≤ 2 ^ 31) (limit : ℤ) :
    Simulation (runs T limit) (Sel4Server.runs T limit) Refines where
  init _ hs := ⟨_, rfl, hs ▸ .initial limit⟩
  step _ _ _ _ _ h he := h.steps hcard he

/-! ## Safety -/

/-- The thread is between `sync_mutex_lock` and `sync_mutex_unlock`. -/
def critical : Sel4Pc → Bool
  | .test _ _ | .check _ | .load _ | .store _ _ | .signal _ => true
  | _ => false

/-- **Safety of the server**: of the buffer, of the mutex, and of the assertions. -/
structure FineSafe (limit : ℤ) (s : FineServer T) : Prop where
  /-- the level is in range, and it is the number of increments minus the number of decrements -/
  buf : s.buf.Safe limit s.changes
  /-- one thread at a time works on the buffer -/
  exclusive : ∀ t u, critical (s.pc t) = true → critical (s.pc u) = true → t = u
  /-- the assertions behind the tests and the one of the mutex hold -/
  asserts : ∀ l, s.step l ≠ .error .assert

theorem Place.holding {p q : Sel4Pc} {ph : SemPhase} (h : Place p ph q) (hp : critical p = true) :
    ph = .holding := by
  cases p <;> first | exact h.2 | cases hp

namespace Refines

variable {s : FineServer T} {a : Sel4Server T}

/-- The assertions hold here, if they do in the other server: the place and the buffer are the same
there. -/
theorem step_ne_assert {limit : ℤ} (h : s.Refines a) (ha : a.Safe limit) (l : Label T) :
    s.step l ≠ .error .assert := by
  have hlock := h.inv.step_ne_assert
  have hbind : ∀ {l : BinSem.Label T} {f : BinSem T → FineServer T},
      (s.lock.step l >>= fun m => Except.ok (f m)) ≠ .error .assert := by
    intro l f he
    rcases hm : s.lock.step l with e | m <;> rw [hm] at he
    · cases he
      exact hlock l hm
    · cases he
  cases l with
  | deliver t m =>
    simp only [step]
    split <;> nofun
  | spurious t =>
    simp only [step]
    split
    · exact hbind
    · nofun
  | go t =>
    simp only [step, go]
    split
    case h_3 => simp only [FineServer.locking]; split <;> first | exact hbind | nofun
    case h_5 => simp only [FineServer.unlocking]; split <;> exact hbind
    case h_8 role hp =>
      rw [← h.buf, if_pos (ha.allowed (h.at_place hp).1)]
      nofun
    case h_11 => split <;> nofun
    case h_12 => simp only [FineServer.unlocking]; split <;> exact hbind
    all_goals nofun

end Refines

/-- **The server over the real mutex and notifications** is where the other one can be, and is safe,
for any number of threads that an `int` can count and any interleaving of their steps. -/
theorem fine_server_safe {limit : ℤ} (hlimit : 0 ≤ limit) (hcard : Fintype.card T ≤ 2 ^ 31)
    {s : FineServer T} (hs : Reach (runs T limit) s) :
    (∃ a, Reach (Sel4Server.runs T limit) a ∧ Refines s a) ∧ FineSafe limit s := by
  obtain ⟨a, ha, h⟩ := (refines hcard limit).reach hs
  have hsafe := Sel4Server.Safe.of_reach hlimit ha
  refine ⟨⟨a, ha, h⟩, ?_⟩
  exact {
    buf := by
      rw [← h.buf, ← h.changes]
      exact hsafe.buf
    exclusive := fun t u ht hu =>
      h.inv.exclusive ((h.place t).holding ht) ((h.place u).holding hu)
    asserts := h.step_ne_assert hsafe }

/-- `t` receives a request and makes `n` steps with it, without any other thread in between. -/
def handles (t : T) (role : Role) (n : ℕ) : List (Label T) :=
  .deliver t (some role) :: List.replicate n (.go t)

/-- A producer fills the place of the buffer, while a consumer waits for the mutex. -/
theorem fine_server_safe_contended : ∃ s : FineServer (Fin 2), s.pc 0 = .signal .producer ∧
    s.lock.phase 1 = .blocked ∧ FineSafe 1 s := by
  obtain ⟨s, hs, h₀, h₁⟩ := Reach.exists_of_exec (T := runs (Fin 2) 1) step (fun _ _ _ h => h)
    (.init rfl) (handles 0 .producer 5 ++ handles 1 .consumer 4 ++ List.replicate 3 (.go 0))
    (fun s => s.pc 0 = .signal .producer ∧ s.lock.phase 1 = .blocked) (by decide)
  exact ⟨s, h₀, h₁, (fine_server_safe (by decide) (by decide) hs).2⟩

end FineServer

end GreenLib
