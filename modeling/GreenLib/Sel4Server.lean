import GreenLib.Buffer
import GreenLib.Run
import GreenLib.State
import GreenLib.Total
import Mathlib.Tactic.FinCases
import Mathlib.Data.Fin.VecNotation

/-!
# The server with kernel threads

`main.c` in the build `SEL4_THREAD`: any number of kernel threads run `server_loop`, each receives a
request, handles it and answers it. They share the buffer under the mutex `lock_global`, and a
handler that finds the buffer full or empty waits in `seL4_Wait` on `producer_list` or
`consumer_list`, which are notifications. The kernel may switch between the threads at any point, so
a step of the system is one shared access of one thread, and `buffer ++` is a load and a store.

What is assumed of the kernel and of the mutex is what their steps do. `sync_mutex_lock` waits until
the mutex is free. A notification is one bit: `seL4_Signal` releases a waiting thread if there is
one, any of them, and sets the bit otherwise; `seL4_Wait` takes the bit or waits. `wait_count` is
only ever printed and is left out, and so is what the handlers of `INIT` and `TMNT` do, who neither
touch the buffer nor the mutex nor a notification.

The buffer is safe in all runs (`Safe.of_reach`). That no waiter is left behind with the buffer as
it needs it is shown for the runs in which no signal is lost that two waiters need
(`no_stranded_waiter`), and does not hold otherwise (`waiter_stranded`).
-/

namespace GreenLib

/-- Where a thread of the server is. `again` says that the handler has waited, which matters for the
proofs only. -/
inductive Sel4Pc : Type where
  /-- in `seL4_Recv` -/
  | recv
  /-- in the handler of `INIT` or `TMNT` -/
  | other
  /-- at `sync_mutex_lock` -/
  | lock (role : Role) (again : Bool)
  /-- at the test of the buffer -/
  | test (role : Role) (again : Bool)
  /-- behind a test that failed, at `sync_mutex_unlock` -/
  | unlockWait (role : Role)
  /-- at `seL4_Wait` -/
  | wait (role : Role)
  /-- waiting in `seL4_Wait` -/
  | blocked (role : Role)
  /-- at the assertion behind the test -/
  | check (role : Role)
  /-- at the load of `buffer` -/
  | load (role : Role)
  /-- at the store to `buffer`, with the loaded value -/
  | store (role : Role) (v : ℤ)
  /-- at `seL4_Signal` -/
  | signal (role : Role)
  /-- at the last `sync_mutex_unlock` -/
  | unlock (role : Role)
  /-- at the answer to the client -/
  | reply (role : Role)
  deriving DecidableEq

/-- The threads `T` of the server, and what they share, with a mutex and notifications that are
given. -/
structure Sel4Server (T : Type) : Type where
  pc : T → Sel4Pc
  /-- the holder of `lock_global` -/
  mutex : Option T
  /-- `buffer` and `buffer_limit` -/
  buf : Buffer
  /-- the bits of `producer_list` and `consumer_list` -/
  flag : Role → Bool
  /-- history: the number of changes each role made to the buffer -/
  changes : Role → ℕ

namespace Sel4Server

inductive Label (T : Type) : Type where
  /-- `t` receives a request, `none` stands for `INIT` and `TMNT` -/
  | deliver (t : T) (m : Option Role)
  /-- `t` goes on -/
  | go (t : T)
  /-- the signal of `t` releases `u` -/
  | release (t u : T)

variable {T : Type} [DecidableEq T]

def goTo (s : Sel4Server T) (t : T) (p : Sel4Pc) : Sel4Server T :=
  { s with pc := Function.update s.pc t p }

section Steps

variable [Fintype T]

/-- One step of the thread `t` on its own. A thread that has to wait for the mutex, a request or a
signal cannot take one. -/
def go (s : Sel4Server T) (t : T) : Except Fault (Sel4Server T) :=
  match s.pc t with
  | .recv => .error .disabled
  | .other => .ok (s.goTo t .recv)
  | .lock role again =>
    if s.mutex = none then .ok { s.goTo t (.test role again) with mutex := some t }
    else .error .disabled
  | .test role _ => .ok (s.goTo t (if s.buf.blocked role then .unlockWait role else .check role))
  | .unlockWait role => .ok { s.goTo t (.wait role) with mutex := none }
  | .wait role =>
    if s.flag role then
      .ok { s.goTo t (.lock role true) with flag := Function.update s.flag role false }
    else .ok (s.goTo t (.blocked role))
  | .blocked _ => .error .disabled
  | .check role => if s.buf.allowed role then .ok (s.goTo t (.load role)) else .error .assert
  | .load role => .ok (s.goTo t (.store role s.buf.level))
  | .store role v =>
    .ok { s.goTo t (.signal role) with
      buf := { s.buf with level := v }.change role
      changes := Function.update s.changes role (s.changes role + 1) }
  | .signal role =>
    -- with a waiter there this is a step `release`
    if ∃ u, s.pc u = .blocked role.other then .error .disabled
    else .ok { s.goTo t (.unlock role) with flag := Function.update s.flag role.other true }
  | .unlock role => .ok { s.goTo t (.reply role) with mutex := none }
  | .reply _ => .ok (s.goTo t .recv)

/-- One step of the system. A signal that finds somebody waiting is a step of its own, as it moves
two threads. -/
def step (s : Sel4Server T) : Label T → Except Fault (Sel4Server T)
  | .deliver t m =>
    if s.pc t = .recv then
      .ok (s.goTo t (match m with
        | none => .other
        | some role => .lock role false))
    else .error .disabled
  | .go t => s.go t
  | .release t u =>
    match s.pc t with
    | .signal role =>
      if s.pc u = .blocked role.other then
        .ok ((s.goTo t (.unlock role)).goTo u (.lock role.other true))
      else .error .disabled
    | _ => .error .disabled

/-- All threads are in `seL4_Recv` and the buffer is empty. The mutex is free, and no bit is set. -/
def initial (T : Type) (limit : ℤ) : Sel4Server T where
  pc _ := .recv
  mutex := none
  buf := ⟨0, limit⟩
  flag _ := false
  changes _ := 0

/-- **The runs** with the threads `T` and a given `buffer_limit`, in which the threads take their
steps in any order. -/
def runs (T : Type) [DecidableEq T] [Fintype T] (limit : ℤ) : Lts (Sel4Server T) (Label T) where
  init s := s = initial T limit
  step s l s' := s.step l = .ok s'

end Steps

/-! ## What a step can be -/

/-- The steps, with what each of them finds and changes, without what would be an error. -/
inductive Acts (s : Sel4Server T) : Label T → Sel4Server T → Prop where
  | deliver {t : T} {role : Role} (h : s.pc t = .recv) :
    Acts s (.deliver t (some role)) (s.goTo t (.lock role false))
  | deliverOther {t : T} (h : s.pc t = .recv) : Acts s (.deliver t none) (s.goTo t .other)
  | other {t : T} (h : s.pc t = .other) : Acts s (.go t) (s.goTo t .recv)
  | lock {t : T} {role : Role} {again : Bool} (h : s.pc t = .lock role again)
    (hm : s.mutex = none) :
    Acts s (.go t) { s.goTo t (.test role again) with mutex := some t }
  | fail {t : T} {role : Role} {again : Bool} (h : s.pc t = .test role again)
    (hb : s.buf.blocked role = true) : Acts s (.go t) (s.goTo t (.unlockWait role))
  | pass {t : T} {role : Role} {again : Bool} (h : s.pc t = .test role again)
    (hb : s.buf.blocked role = false) : Acts s (.go t) (s.goTo t (.check role))
  | unlockWait {t : T} {role : Role} (h : s.pc t = .unlockWait role) :
    Acts s (.go t) { s.goTo t (.wait role) with mutex := none }
  | take {t : T} {role : Role} (h : s.pc t = .wait role) (hf : s.flag role = true) :
    Acts s (.go t)
      { s.goTo t (.lock role true) with flag := Function.update s.flag role false }
  | block {t : T} {role : Role} (h : s.pc t = .wait role) (hf : s.flag role = false) :
    Acts s (.go t) (s.goTo t (.blocked role))
  | check {t : T} {role : Role} (h : s.pc t = .check role) (ha : s.buf.allowed role = true) :
    Acts s (.go t) (s.goTo t (.load role))
  | load {t : T} {role : Role} (h : s.pc t = .load role) :
    Acts s (.go t) (s.goTo t (.store role s.buf.level))
  | store {t : T} {role : Role} {v : ℤ} (h : s.pc t = .store role v) :
    Acts s (.go t) { s.goTo t (.signal role) with
      buf := { s.buf with level := v }.change role
      changes := Function.update s.changes role (s.changes role + 1) }
  | signal {t : T} {role : Role} (h : s.pc t = .signal role)
    (hn : ∀ u, s.pc u ≠ .blocked role.other) :
    Acts s (.go t)
      { s.goTo t (.unlock role) with flag := Function.update s.flag role.other true }
  | release {t u : T} {role : Role} (h : s.pc t = .signal role)
    (hu : s.pc u = .blocked role.other) :
    Acts s (.release t u) ((s.goTo t (.unlock role)).goTo u (.lock role.other true))
  | unlock {t : T} {role : Role} (h : s.pc t = .unlock role) :
    Acts s (.go t) { s.goTo t (.reply role) with mutex := none }
  | reply {t : T} {role : Role} (h : s.pc t = .reply role) : Acts s (.go t) (s.goTo t .recv)

variable {s s' : Sel4Server T} {l : Label T}

section Steps

variable [Fintype T]

theorem go_acts {t : T} (he : s.go t = .ok s') : Acts s (.go t) s' := by
  rw [go] at he
  split at he
  case h_1 => cases he
  case h_2 h => exact Except.ok.inj he ▸ .other h
  case h_3 role again h =>
    split at he
    · rename_i hm
      exact Except.ok.inj he ▸ .lock h hm
    · cases he
  case h_4 role again h =>
    cases hb : s.buf.blocked role <;> rw [hb] at he
    · exact Except.ok.inj he ▸ .pass h hb
    · exact Except.ok.inj he ▸ .fail h hb
  case h_5 role h => exact Except.ok.inj he ▸ .unlockWait h
  case h_6 role h =>
    cases hf : s.flag role <;> rw [hf] at he
    · exact Except.ok.inj he ▸ .block h hf
    · exact Except.ok.inj he ▸ .take h hf
  case h_7 => cases he
  case h_8 role h =>
    split at he
    · rename_i ha
      exact Except.ok.inj he ▸ .check h ha
    · cases he
  case h_9 role h => exact Except.ok.inj he ▸ .load h
  case h_10 role v h => exact Except.ok.inj he ▸ .store h
  case h_11 role h =>
    split at he
    · cases he
    · rename_i hn
      exact Except.ok.inj he ▸ .signal h fun u hu => hn ⟨u, hu⟩
  case h_12 role h => exact Except.ok.inj he ▸ .unlock h
  case h_13 role h => exact Except.ok.inj he ▸ .reply h

theorem step_acts (he : s.step l = .ok s') : Acts s l s' := by
  cases l with
  | deliver t m =>
    simp only [step] at he
    split at he
    · rename_i h
      cases m with
      | none => exact Except.ok.inj he ▸ .deliverOther h
      | some role => exact Except.ok.inj he ▸ .deliver h
    · cases he
  | go t => exact go_acts he
  | release t u =>
    simp only [step] at he
    split at he
    · rename_i role h
      split at he
      · rename_i hu
        exact Except.ok.inj he ▸ .release h hu
      · cases he
    · cases he

end Steps

/-! ## Safety of the buffer -/

/-- What the place of a thread says about the mutex `m` and the buffer `b`: between
`sync_mutex_lock` and `sync_mutex_unlock` it holds the mutex, what it tested there is still true,
and what it loaded is still the level. -/
def Fits (m : Option T) (b : Buffer) (t : T) : Sel4Pc → Prop
  | .test _ _ | .unlockWait _ | .signal _ | .unlock _ => m = some t
  | .check role | .load role => m = some t ∧ b.blocked role = false
  | .store role v => m = some t ∧ b.blocked role = false ∧ v = b.level
  | _ => True

omit [DecidableEq T] in
/-- A thread that does not hold the mutex relies on nothing, so others may change the buffer. -/
theorem Fits.of_ne {m m' : Option T} {b b' : Buffer} {t : T} {p : Sel4Pc} (h : Fits m b t p)
    (hm : m ≠ some t) : Fits m' b' t p := by
  cases p <;> simp only [Fits] at h ⊢ <;> first | exact absurd h hm | exact absurd h.1 hm

/-- **Safety of the buffer**, and what every thread relies on where it is, which makes it
inductive. -/
structure Safe (s : Sel4Server T) (limit : ℤ) : Prop where
  places : ∀ t, Fits s.mutex s.buf t (s.pc t)
  buf : s.buf.Safe limit s.changes

namespace Safe

variable {limit : ℤ}

/-- A step of `t` that keeps the mutex and the buffer is safe, if `t` fits its new place. -/
theorem goTo (h : s.Safe limit) {t : T} {p : Sel4Pc} (hp : Fits s.mutex s.buf t p) :
    (s.goTo t p).Safe limit where
  places u := by
    rcases eq_or_ne u t with rfl | hne
    · simpa only [Sel4Server.goTo, Function.update_self] using hp
    · simpa only [Sel4Server.goTo, Function.update_of_ne hne] using h.places u
  buf := h.buf

/-- A step of `t` that takes the mutex or holds it. The others do not have it and rely on
nothing. -/
theorem places_goTo (h : s.Safe limit) {t : T} {p : Sel4Pc} {m : Option T} {b : Buffer}
    (hm : s.mutex = none ∨ s.mutex = some t) (hp : Fits m b t p) (u : T) :
    Fits m b u ((s.goTo t p).pc u) := by
  rcases eq_or_ne u t with rfl | hne
  · simpa only [Sel4Server.goTo, Function.update_self] using hp
  · have hu : s.mutex ≠ some u := by
      rcases hm with hm | hm <;> rw [hm]
      · nofun
      · exact fun he => hne (Option.some.inj he).symm
    simpa only [Sel4Server.goTo, Function.update_of_ne hne] using (h.places u).of_ne hu

omit [DecidableEq T] in
theorem at_place (h : s.Safe limit) {t : T} {p : Sel4Pc} (hp : s.pc t = p) :
    Fits s.mutex s.buf t p :=
  hp ▸ h.places t

omit [DecidableEq T] in
/-- The assertions behind the tests hold, since nobody can change the buffer between the two. -/
theorem allowed (h : s.Safe limit) {t : T} {role : Role} (hp : s.pc t = .check role) :
    s.buf.allowed role = true :=
  h.buf.range.allowed (h.at_place hp).2

/-- **Every step keeps the buffer safe**, with any number of threads. -/
theorem acts (h : s.Safe limit) (ha : Acts s l s') : s'.Safe limit := by
  cases ha with
  | deliver hp => exact h.goTo trivial
  | deliverOther hp => exact h.goTo trivial
  | other hp => exact h.goTo trivial
  | lock hp hm => exact ⟨h.places_goTo (.inl hm) rfl, h.buf⟩
  | fail hp hb =>
    have hm := h.at_place hp
    exact h.goTo (p := .unlockWait _) hm
  | pass hp hb =>
    exact h.goTo ⟨h.at_place hp, hb⟩
  | unlockWait hp => exact ⟨h.places_goTo (.inr (h.at_place hp)) trivial, h.buf⟩
  | take hp hf =>
    exact ⟨(h.goTo (p := .lock _ true) trivial).places, h.buf⟩
  | block hp hf => exact h.goTo trivial
  | check hp hal =>
    have hm := h.at_place hp
    exact h.goTo (p := .load _) hm
  | load hp =>
    obtain ⟨hm, hb⟩ := h.at_place hp
    exact h.goTo ⟨hm, hb, rfl⟩
  | store hp =>
    obtain ⟨hm, hb, rfl⟩ := h.at_place hp
    exact ⟨h.places_goTo (.inr hm) hm, h.buf.change (h.buf.range.allowed hb)⟩
  | signal hp hn =>
    have hm := h.at_place hp
    exact ⟨(h.goTo (p := .unlock _) hm).places, h.buf⟩
  | release hp hu =>
    have hm := h.at_place hp
    exact (h.goTo (p := .unlock _) hm).goTo (p := .lock _ true) trivial
  | unlock hp => exact ⟨h.places_goTo (.inr (h.at_place hp)) trivial, h.buf⟩
  | reply hp => exact h.goTo trivial

omit [DecidableEq T] in
theorem initial (hlimit : 0 ≤ limit) : (initial T limit).Safe limit where
  places _ := trivial
  buf := ⟨rfl, ⟨le_rfl, hlimit⟩, rfl⟩

/-- **The buffer is safe in every run**: the level is within its bounds, and is what the changes of
the two roles make it. -/
theorem of_reach [Fintype T] (hlimit : 0 ≤ limit) (hs : Reach (runs T limit) s) :
    s.Safe limit := by
  induction hs with
  | init h₀ => exact h₀ ▸ initial hlimit
  | step _ he ih => exact ih.acts (step_acts he)

end Safe

end Sel4Server

/-! ## Waiters and signals -/

namespace Sel4Pc

/-- Between a test that failed and `seL4_Wait`, where a signal does not find the thread waiting. -/
def inWindow (c : Role) : Sel4Pc → ℕ
  | .unlockWait role | .wait role => if role = c then 1 else 0
  | _ => 0

/-- Waiting in `seL4_Wait`, for a signal of the other role. -/
def isBlocked (c : Role) : Sel4Pc → ℕ
  | .blocked role => if role = c then 1 else 0
  | _ => 0

/-- On the way to a change that role `c` can make: the thread was woken and is to test again, or its
test passed, or it is about to signal to `c`. -/
def attends (c : Role) : Sel4Pc → ℕ
  | .lock role true | .test role true | .check role | .load role | .store role _ =>
    if role = c then 1 else 0
  | .signal role => if role = c.other then 1 else 0
  | _ => 0

end Sel4Pc

namespace Sel4Server

open Sel4Pc

variable {T : Type} [DecidableEq T] [Fintype T] {s s' : Sel4Server T} {l : Label T}

/-- **Waiters are attended to.** If threads of role `c` are waiting or on their way to `seL4_Wait`,
then each change they could make is in the bit of their notification or attended to by a thread;
except for a single one of them, who will find the bit. -/
structure Attended (s : Sel4Server T) (c : Role) : Prop where
  enough : total (inWindow c) s.pc + total (isBlocked c) s.pc = 0 ∨
    s.buf.places c ≤ (s.flag c).toNat + total (attends c) s.pc ∨
    (total (inWindow c) s.pc = 1 ∧ total (isBlocked c) s.pc = 0 ∧ (s.flag c).toNat = 1)
  clear : (s.flag c).toNat = 0 ∨ total (isBlocked c) s.pc = 0

/-- A signal that finds the bit set is not needed: there is at most one change to make for those who
wait, which the bit stands for already, or at most one of them is on its way to `seL4_Wait`. -/
def spare (s : Sel4Server T) : Label T → Bool
  | .go t =>
    match s.pc t with
    | .signal role => !s.flag role.other || decide (s.buf.places role.other ≤ 1) ||
      decide (total (inWindow role.other) s.pc ≤ 1)
    | _ => true
  | _ => true

/-- No thread can go on but one is waiting that could: all are in `seL4_Recv` or `seL4_Wait`, and
the buffer is as one of the latter needs it. -/
def Stranded (s : Sel4Server T) : Prop :=
  (∀ t, s.pc t = .recv ∨ ∃ role, s.pc t = .blocked role) ∧
    ∃ t role, s.pc t = .blocked role ∧ s.buf.allowed role = true

/-- A thread moves from `p` to `q`, and a sum over all threads changes by what the two places
count. -/
theorem total_goTo {t : T} {p : Sel4Pc} (hp : s.pc t = p) (w : Sel4Pc → ℕ) (q : Sel4Pc) :
    total w (s.goTo t q).pc + w p = total w s.pc + w q :=
  hp ▸ total_update w s.pc t q

namespace Attended

variable {c : Role}

/-- A thread moves between places that count the same for `c`, and nothing else changes that `c`
depends on. -/
theorem quiet (h : s.Attended c) {t : T} {p q : Sel4Pc} (hp : s.pc t = p)
    (hpc : s'.pc = (s.goTo t q).pc) (hbuf : s'.buf = s.buf) (hflag : s'.flag c = s.flag c)
    (hw : inWindow c p = inWindow c q) (hb : isBlocked c p = isBlocked c q)
    (ha : attends c p = attends c q) : s'.Attended c := by
  have hw' := total_goTo hp (inWindow c) q
  have hb' := total_goTo hp (isBlocked c) q
  have ha' := total_goTo hp (attends c) q
  obtain ⟨henough, hclear⟩ := h
  constructor <;> rw [hpc, hflag]
  · rw [hbuf]
    omega
  · omega

/-- A test of role `c` fails: there is nothing to attend to, because the buffer has no place for the
role. -/
theorem fail (h : s.Attended c) {t : T} {again : Bool} (hp : s.pc t = .test c again)
    (hb : s.buf.blocked c = true) : (s.goTo t (.unlockWait c)).Attended c := by
  have hblocked := total_goTo hp (isBlocked c) (.unlockWait c)
  have hnone := Buffer.places_of_blocked hb
  obtain ⟨-, hclear⟩ := h
  constructor <;> simp only [goTo, isBlocked] at hblocked ⊢ <;> omega

/-- A test of role `c` passes: from now on the thread attends to the place it found. -/
theorem pass (h : s.Attended c) {t : T} {again : Bool} (hp : s.pc t = .test c again) :
    (s.goTo t (.check c)).Attended c := by
  have hw := total_goTo hp (inWindow c) (.check c)
  have hb := total_goTo hp (isBlocked c) (.check c)
  have ha := total_goTo hp (attends c) (.check c)
  have hle : attends c (.test c again) ≤ 1 := by cases again <;> simp [attends]
  obtain ⟨henough, hclear⟩ := h
  constructor <;> simp only [goTo, inWindow, isBlocked, attends, if_true] at hw hb ha hle ⊢ <;>
    omega

/-- `seL4_Wait` of role `c` takes the bit, and the thread attends from now on to what the bit stood
for. -/
theorem take (h : s.Attended c) {t : T} (hp : s.pc t = .wait c) (hf : s.flag c = true) :
    Attended { s.goTo t (.lock c true) with flag := Function.update s.flag c false } c := by
  have hw := total_goTo hp (inWindow c) (.lock c true)
  have hb := total_goTo hp (isBlocked c) (.lock c true)
  have ha := total_goTo hp (attends c) (.lock c true)
  have hbit : (s.flag c).toNat = 1 := by rw [hf]; rfl
  have hbit' : (Function.update s.flag c false c).toNat = 0 := by rw [Function.update_self]; rfl
  obtain ⟨henough, hclear⟩ := h
  constructor <;> simp only [goTo, inWindow, isBlocked, attends, if_true] at hw hb ha ⊢ <;> omega

/-- `seL4_Wait` of role `c` does not find the bit, so that the thread waits as those who wait
already. -/
theorem block (h : s.Attended c) {t : T} (hp : s.pc t = .wait c) (hf : s.flag c = false) :
    (s.goTo t (.blocked c)).Attended c := by
  have hw := total_goTo hp (inWindow c) (.blocked c)
  have hb := total_goTo hp (isBlocked c) (.blocked c)
  have ha := total_goTo hp (attends c) (.blocked c)
  have hbit : (s.flag c).toNat = 0 := by rw [hf]; rfl
  obtain ⟨henough, hclear⟩ := h
  constructor <;> simp only [goTo, inWindow, isBlocked, attends, if_true] at hw hb ha ⊢ <;> omega

/-- A change of the buffer by role `c` takes the place the thread attended to. -/
theorem store_self (h : s.Attended c) {t : T} {n : Role → ℕ} (hp : s.pc t = .store c s.buf.level) :
    Attended { s.goTo t (.signal c) with buf := s.buf.change c, changes := n } c := by
  have hw := total_goTo hp (inWindow c) (.signal c)
  have hb := total_goTo hp (isBlocked c) (.signal c)
  have ha := total_goTo hp (attends c) (.signal c)
  have hplaces := s.buf.places_change_self c
  obtain ⟨henough, hclear⟩ := h
  constructor <;> simp only [goTo, inWindow, isBlocked, attends, if_true, c.ne_other, if_false]
    at hw hb ha ⊢ <;> omega

/-- A change of the buffer makes a place for the other role, and the thread attends to it. -/
theorem store_other (h : s.Attended c.other) {t : T} {n : Role → ℕ}
    (hp : s.pc t = .store c s.buf.level) :
    Attended { s.goTo t (.signal c) with buf := s.buf.change c, changes := n } c.other := by
  have hw := total_goTo hp (inWindow c.other) (.signal c)
  have hb := total_goTo hp (isBlocked c.other) (.signal c)
  have ha := total_goTo hp (attends c.other) (.signal c)
  have hplaces := s.buf.places_change_other c
  obtain ⟨henough, hclear⟩ := h
  constructor <;> simp only [goTo, inWindow, isBlocked, attends, c.other_other, c.ne_other, if_true,
    if_false] at hw hb ha ⊢ <;> omega

omit [DecidableEq T] in
theorem none_blocked (hn : ∀ u, s.pc u ≠ .blocked c) : total (isBlocked c) s.pc = 0 := by
  refine total_eq_zero.2 fun u => ?_
  have hu := hn u
  cases hpc : s.pc u with
  | blocked role =>
    rw [hpc] at hu
    refine if_neg fun he : role = c => hu ?_
    rw [he]
  | _ => rfl

/-- A signal sets the bit. A bit that was set before is the last case of `enough`, or is all there
is to attend to. -/
theorem signal (h : s.Attended c.other) {t : T} (hp : s.pc t = .signal c)
    (hn : ∀ u, s.pc u ≠ .blocked c.other)
    (hspare : s.flag c.other = true →
      s.buf.places c.other ≤ 1 ∨ total (inWindow c.other) s.pc ≤ 1) :
    Attended { s.goTo t (.unlock c) with flag := Function.update s.flag c.other true } c.other := by
  have hw := total_goTo hp (inWindow c.other) (.unlock c)
  have hb := total_goTo hp (isBlocked c.other) (.unlock c)
  have ha := total_goTo hp (attends c.other) (.unlock c)
  have hnone := none_blocked hn
  have hbit' : (Function.update s.flag c.other true c.other).toNat = 1 := by
    rw [Function.update_self]
    rfl
  obtain ⟨henough, hclear⟩ := h
  cases hf : s.flag c.other
  · have hbit : (s.flag c.other).toNat = 0 := by rw [hf]; rfl
    constructor <;> simp only [goTo, inWindow, isBlocked, attends, c.other_other, if_true]
      at hw hb ha ⊢ <;> omega
  · have hbit : (s.flag c.other).toNat = 1 := by rw [hf]; rfl
    have hspare := hspare hf
    constructor <;> simp only [goTo, inWindow, isBlocked, attends, c.other_other, if_true]
      at hw hb ha ⊢ <;> omega

/-- A signal releases a thread, which attends from now on to the place that the signal was about. -/
theorem release (h : s.Attended c.other) {t u : T} (hp : s.pc t = .signal c)
    (hu : (s.goTo t (.unlock c)).pc u = .blocked c.other) :
    ((s.goTo t (.unlock c)).goTo u (.lock c.other true)).Attended c.other := by
  have hw := total_goTo hp (inWindow c.other) (.unlock c)
  have hb := total_goTo hp (isBlocked c.other) (.unlock c)
  have ha := total_goTo hp (attends c.other) (.unlock c)
  have hw' := total_goTo hu (inWindow c.other) (.lock c.other true)
  have hb' := total_goTo hu (isBlocked c.other) (.lock c.other true)
  have ha' := total_goTo hu (attends c.other) (.lock c.other true)
  obtain ⟨henough, hclear⟩ := h
  constructor <;> simp only [goTo, inWindow, isBlocked, attends, c.other_other, if_true]
    at hw hb ha hw' hb' ha' ⊢ <;> omega

/-- **Every step keeps the waiters attended to**, when it is no signal that is lost and needed. -/
theorem acts {limit : ℤ} (h : ∀ c, s.Attended c) (hs : s.Safe limit) (hok : s.spare l = true)
    (ha : Acts s l s') (c : Role) : s'.Attended c := by
  cases ha with
  | deliver hp => exact (h c).quiet hp rfl rfl rfl rfl rfl rfl
  | deliverOther hp => exact (h c).quiet hp rfl rfl rfl rfl rfl rfl
  | other hp => exact (h c).quiet hp rfl rfl rfl rfl rfl rfl
  | @lock t role again hp hm => cases again <;> exact (h c).quiet hp rfl rfl rfl rfl rfl rfl
  | @fail t role again hp hb =>
    rcases role.eq_or_eq_other c with rfl | rfl
    · exact (h c).fail hp hb
    · cases again <;>
        exact (h _).quiet hp rfl rfl rfl (by simp [inWindow]) rfl (by simp [attends])
  | @pass t role again hp hb =>
    rcases role.eq_or_eq_other c with rfl | rfl
    · exact (h c).pass hp
    · cases again <;> exact (h _).quiet hp rfl rfl rfl rfl rfl (by simp [attends])
  | unlockWait hp => exact (h c).quiet hp rfl rfl rfl rfl rfl rfl
  | @take t role hp hf =>
    rcases role.eq_or_eq_other c with rfl | rfl
    · exact (h c).take hp hf
    · exact (h _).quiet hp rfl rfl (Function.update_of_ne role.other_ne _ _) (by simp [inWindow])
        rfl (by simp [attends])
  | @block t role hp hf =>
    rcases role.eq_or_eq_other c with rfl | rfl
    · exact (h c).block hp hf
    · exact (h _).quiet hp rfl rfl rfl (by simp [inWindow]) (by simp [isBlocked]) rfl
  | check hp hal => exact (h c).quiet hp rfl rfl rfl rfl rfl rfl
  | load hp => exact (h c).quiet hp rfl rfl rfl rfl rfl rfl
  | @store t role v hp =>
    obtain ⟨-, -, rfl⟩ := hs.at_place hp
    rcases role.eq_or_eq_other c with rfl | rfl
    · exact (h c).store_self hp
    · exact (h _).store_other hp
  | @signal t role hp hn =>
    rcases role.eq_or_eq_other c with rfl | rfl
    · exact (h c).quiet hp rfl rfl (Function.update_of_ne c.ne_other _ _) rfl rfl
        (by simp [attends])
    · refine (h _).signal hp hn fun hf => ?_
      simpa [spare, hp, hf] using hok
  | @release t u role hp hu =>
    have hne : u ≠ t := by
      rintro rfl
      rw [hp] at hu
      cases hu
    have hu' : (s.goTo t (.unlock role)).pc u = .blocked role.other := by
      rw [← hu]
      exact Function.update_of_ne hne _ _
    rcases role.eq_or_eq_other c with rfl | rfl
    · have hfirst : (s.goTo t (.unlock c)).Attended c :=
        (h c).quiet hp rfl rfl rfl rfl rfl (by simp [attends])
      exact hfirst.quiet hu' rfl rfl rfl rfl (by simp [isBlocked]) (by simp [attends])
    · exact (h _).release hp hu'
  | unlock hp => exact (h c).quiet hp rfl rfl rfl rfl rfl rfl
  | reply hp => exact (h c).quiet hp rfl rfl rfl rfl rfl rfl

omit [DecidableEq T] in
theorem initial (T : Type) [Fintype T] (limit : ℤ) (c : Role) : (initial T limit).Attended c where
  enough := .inl (by simp [Sel4Server.initial, total, inWindow, isBlocked])
  clear := .inl rfl

omit [DecidableEq T] in
/-- When all threads are in `seL4_Recv` or `seL4_Wait`, nobody attends to anything, so no place is
left for those who wait. -/
theorem not_stranded (h : ∀ c, s.Attended c) : ¬ s.Stranded := by
  rintro ⟨hquiet, t, c, hp, hallowed⟩
  have hidle : ∀ u, inWindow c (s.pc u) = 0 ∧ attends c (s.pc u) = 0 := by
    intro u
    rcases hquiet u with hu | ⟨role, hu⟩ <;> rw [hu] <;> exact ⟨rfl, rfl⟩
  have hwindow : total (inWindow c) s.pc = 0 := total_eq_zero.2 fun u => (hidle u).1
  have hattends : total (attends c) s.pc = 0 := total_eq_zero.2 fun u => (hidle u).2
  have hblocked : 1 ≤ total (isBlocked c) s.pc := by
    have hle := le_total (isBlocked c) s.pc t
    rwa [hp, isBlocked, if_pos rfl] at hle
  have hplaces := Buffer.places_of_allowed hallowed
  have hclear := (h c).clear
  rcases (h c).enough with h₀ | h₀ | h₀ <;> omega

end Attended

/-- **No waiter is left behind** in the runs in which every signal that finds the bit of its
notification set is one that no second waiter needs. -/
theorem no_stranded_waiter {limit : ℤ} (hlimit : 1 ≤ limit)
    (hs : Reach ((runs T limit).guard fun s l => s.spare l) s) : ¬ s.Stranded := by
  have hsafe : ∀ {s}, Reach ((runs T limit).guard fun s l => s.spare l) s → s.Safe limit :=
    fun hr => .of_reach (le_trans Int.one_nonneg hlimit) hr.of_guard
  refine Attended.not_stranded ?_
  induction hs with
  | init h₀ => exact h₀ ▸ Attended.initial T limit
  | step hr he ih => exact Attended.acts ih (hsafe hr) he.1 (step_acts he.2)

/-- `t` receives a request and makes `n` steps with it, without any other thread in between. -/
def handles (t : T) (role : Role) (n : ℕ) : List (Label T) :=
  .deliver t (some role) :: List.replicate n (.go t)

/-- A consumer waits, a producer fills a place and releases it, and the consumer empties it. -/
theorem no_stranded_waiter_woken :
    ∃ s, Reach ((runs (Fin 2) 2).guard fun s l => s.spare l) s ∧ s.changes .consumer = 1 ∧
      ¬ s.Stranded := by
  obtain ⟨s, hs, hc⟩ := Reach.exists_of_exec (T := (runs (Fin 2) 2).guard fun s l => s.spare l)
    (fun s l => if s.spare l then s.step l else .error .disabled)
    (fun s l s' h => by
      split at h
      · exact ⟨‹_›, h⟩
      · cases h)
    (.init rfl) (handles 0 .consumer 4 ++ handles 1 .producer 5 ++ [.release 1 0, .go 1] ++
      List.replicate 5 (.go 0))
    (fun s => s.changes .consumer = 1) (by decide)
  exact ⟨s, hs, hc, no_stranded_waiter (by decide) hs⟩

/-- **A waiter can be left behind** when the buffer has two places: two consumers are between their
test and `seL4_Wait` when two producers signal, the second signal finds the bit set, the first
consumer takes the bit and the second one waits, with a place filled. -/
theorem waiter_stranded : ∃ s, Reach (runs (Fin 4) 2) s ∧ s.Stranded := by
  obtain ⟨s, hs, h⟩ := Reach.exists_of_exec (T := runs (Fin 4) 2) step (fun _ _ _ h => h)
    (.init rfl) (handles 0 .consumer 3 ++ handles 1 .consumer 3 ++ handles 2 .producer 8 ++
      handles 3 .producer 8 ++ List.replicate 9 (.go 0) ++ [.go 1])
    (fun s => s.pc = ![.recv, .blocked .consumer, .recv, .recv] ∧ s.buf.allowed .consumer = true)
    (by decide)
  refine ⟨s, hs, ?_, 1, .consumer, ?_, h.2⟩
  · intro t
    rw [h.1]
    fin_cases t
    · exact .inl rfl
    · exact .inr ⟨.consumer, rfl⟩
    · exact .inl rfl
    · exact .inl rfl
  · rw [h.1]
    rfl

end Sel4Server

end GreenLib
