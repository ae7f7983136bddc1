import GreenLib.Notification
import GreenLib.Run
import GreenLib.State
import GreenLib.Total
import Mathlib.Data.Fintype.Fin
import Mathlib.Data.Fintype.Card
import Mathlib.Tactic.FinCases

/-!
# The mutex of libsel4sync

`sync_mutex_lock` and `sync_mutex_unlock` are `sync_bin_sem_bare_wait` and `sync_bin_sem_bare_post`
of a binary semaphore whose value begins at 1. Any number of kernel threads call them, and the
kernel may switch between them at any point, so a step is one access of one thread to the value or
one system call. The compare and exchange of `sync_atomic_decrement_safe` is a weak one, it may fail
without reason (`spurious`).

The value is 1 minus the number of threads that have decremented it and not incremented it again.
The notification behind it only remembers whether there was a signal, not how many. That none is
lost rests on one equation (`Inv.token`): there is one token, and it is with the holder of the
mutex, or in the active notification, or with a thread that is about to signal, or in the value, if
this is 1.

From this follow, for every number of threads that an `int` can count, mutual exclusion, that the
assertion of `sync_bin_sem_bare_post` holds, that nobody sleeps forever, and that nobody overtakes
the queue (`mutex_correct`); and that whenever nobody holds the mutex and somebody wants it, a few
steps give it to somebody (`lock_free`).
-/

namespace GreenLib

/-- `INT_MIN`, at which `sync_atomic_decrement_safe` gives up. -/
def intMin : ℤ := -2 ^ 31

/-- `__atomic_add_fetch(x, 1, memorder)` of an `int`, which wraps around. -/
def addFetch (v : ℤ) : ℤ := Int.bmod (v + 1) (2 ^ 32)

theorem addFetch_eq {v : ℤ} (hl : intMin ≤ v) (hu : v ≤ 1) : addFetch v = v + 1 := by
  rw [addFetch, Int.bmod_eq_of_le] <;> rw [intMin] at hl <;> omega

/-- Where a thread is in the code of the semaphore: in front of which access to shared memory, or of
which system call. -/
inductive SemPhase : Type where
  /-- outside, without the mutex -/
  | out
  /-- `sync_atomic_decrement_safe`, at the load of the value -/
  | load
  /-- `sync_atomic_decrement_safe`, at the compare and exchange, with `*oldval` -/
  | cas (oldval : ℤ)
  /-- `sync_bin_sem_bare_wait`, at `seL4_Wait` -/
  | wait
  /-- waiting in `seL4_Wait` -/
  | blocked
  /-- `sync_bin_sem_bare_wait` has returned 0 -/
  | holding
  /-- `sync_bin_sem_bare_wait` has returned -1 -/
  | failed
  /-- `sync_bin_sem_bare_post`, at the assertion, with `val` -/
  | check (val : ℤ)
  /-- `sync_bin_sem_bare_post`, at `seL4_Signal` -/
  | signal
  deriving DecidableEq

/-- `sync_bin_sem_t`, and the threads that use it. The value may be any integer here; that it stays
in the range of an `int` follows from the invariant. -/
structure BinSem (T : Type) : Type where
  value : ℤ
  notification : Ntfn T
  phase : T → SemPhase

namespace BinSem

inductive Label (T : Type) : Type where
  /-- `t` calls `sync_mutex_lock` -/
  | lock (t : T)
  /-- `t` calls `sync_mutex_unlock`, up to the increment -/
  | unlock (t : T)
  /-- `t` goes on -/
  | go (t : T)
  /-- the compare and exchange of `t` fails -/
  | spurious (t : T)

variable {T : Type} [DecidableEq T]

def goTo (s : BinSem T) (t : T) (p : SemPhase) : BinSem T :=
  { s with phase := Function.update s.phase t p }

/-- One step of the thread `t` inside the functions. A thread that waits in the kernel, or is
outside, has none. -/
def go (s : BinSem T) (t : T) : Except Fault (BinSem T) :=
  match s.phase t with
  | .load => .ok (s.goTo t (if s.value = intMin then .failed else .cas s.value))
  | .cas oldval =>
    if s.value = oldval then
      .ok { s.goTo t (if oldval ≤ 0 then .wait else .holding) with value := oldval - 1 }
    else .ok (s.goTo t .load)
  | .wait =>
    let (n, badge) := s.notification.receiveSignal t
    .ok { s.goTo t (if badge.isSome then .holding else .blocked) with notification := n }
  | .check val =>
    if s.value ≤ 1 then .ok (s.goTo t (if val ≤ 0 then .signal else .out)) else .error .assert
  | .signal =>
    let (n, dest) := s.notification.sendSignal 0
    let s := { s.goTo t .out with notification := n }
    match dest with
    | none => .ok s
    | some u => .ok (s.goTo u .holding)
  | _ => .error .disabled

/-- One step of the system: some thread calls a function or goes on, in any order. -/
def step (s : BinSem T) : Label T → Except Fault (BinSem T)
  | .lock t => if s.phase t = .out then .ok (s.goTo t .load) else .error .disabled
  | .unlock t =>
    if s.phase t = .holding ∨ s.phase t = .failed then
      .ok { s.goTo t (.check (addFetch s.value)) with value := addFetch s.value }
    else .error .disabled
  | .go t => s.go t
  | .spurious t =>
    match s.phase t with
    | .cas _ => .ok (s.goTo t .load)
    | _ => .error .disabled

/-- `sync_mutex_init`: the value is 1, and no signal is pending. -/
def initial (T : Type) : BinSem T where
  value := 1
  notification := .idle
  phase _ := .out

/-- **The runs** of the threads `T` with one mutex. No fairness between them is assumed. -/
def runs (T : Type) [DecidableEq T] : Lts (BinSem T) (Label T) where
  init s := s = initial T
  step s l s' := s.step l = .ok s'

/-! ## What a step can be -/

/-- The steps, with what each of them finds and changes. The proofs go by cases on these and do not
unfold `go` again. -/
inductive Acts (s : BinSem T) : Label T → BinSem T → Prop where
  | lock {t : T} (h : s.phase t = .out) : Acts s (.lock t) (s.goTo t .load)
  | unlock {t : T} (h : s.phase t = .holding ∨ s.phase t = .failed) :
    Acts s (.unlock t)
      { s.goTo t (.check (addFetch s.value)) with value := addFetch s.value }
  | full {t : T} (h : s.phase t = .load) (hv : s.value = intMin) :
    Acts s (.go t) (s.goTo t .failed)
  | load {t : T} (h : s.phase t = .load) (hv : s.value ≠ intMin) :
    Acts s (.go t) (s.goTo t (.cas s.value))
  | slow {t : T} (h : s.phase t = .cas s.value) (hv : s.value ≤ 0) :
    Acts s (.go t) { s.goTo t .wait with value := s.value - 1 }
  | fast {t : T} (h : s.phase t = .cas s.value) (hv : 0 < s.value) :
    Acts s (.go t) { s.goTo t .holding with value := s.value - 1 }
  | retry {t : T} {oldval : ℤ} (h : s.phase t = .cas oldval) : Acts s (.go t) (s.goTo t .load)
  | spurious {t : T} {oldval : ℤ} (h : s.phase t = .cas oldval) :
    Acts s (.spurious t) (s.goTo t .load)
  | take {t : T} {n : Ntfn T} (h : s.phase t = .wait) (ha : s.notification.isActive = true)
    (hq : s.notification.queue = []) (hq' : n.queue = []) (ha' : n.isActive = false) :
    Acts s (.go t) { s.goTo t .holding with notification := n }
  | block {t : T} {n : Ntfn T} (h : s.phase t = .wait) (ha : s.notification.isActive = false)
    (hq : n.queue = s.notification.queue ++ [t]) (ha' : n.isActive = false) :
    Acts s (.go t) { s.goTo t .blocked with notification := n }
  | owe {t : T} {val : ℤ} (h : s.phase t = .check val) (hv : s.value ≤ 1) (hval : val ≤ 0) :
    Acts s (.go t) (s.goTo t .signal)
  | leave {t : T} {val : ℤ} (h : s.phase t = .check val) (hv : s.value ≤ 1) (hval : 0 < val) :
    Acts s (.go t) (s.goTo t .out)
  | signal {t : T} {n : Ntfn T} (h : s.phase t = .signal) (hq : s.notification.queue = [])
    (hq' : n.queue = []) (ha' : n.isActive = true) :
    Acts s (.go t) { s.goTo t .out with notification := n }
  | wake {t u : T} {n : Ntfn T} (h : s.phase t = .signal)
    (hq : s.notification.queue = u :: n.queue) (ha' : n.isActive = false) :
    Acts s (.go t) ({ s.goTo t .out with notification := n }.goTo u .holding)

variable {s s' : BinSem T} {l : Label T} {t u : T}

theorem go_acts (he : s.go t = .ok s') : Acts s (.go t) s' := by
  rw [go] at he
  split at he
  case h_1 h =>
    split at he
    · rename_i hv
      exact Except.ok.inj he ▸ .full h hv
    · rename_i hv
      exact Except.ok.inj he ▸ .load h hv
  case h_2 oldval h =>
    split at he
    · rename_i hv
      subst hv
      split at he
      · rename_i hv
        exact Except.ok.inj he ▸ .slow h hv
      · rename_i hv
        exact Except.ok.inj he ▸ .fast h (not_le.mp hv)
    · exact Except.ok.inj he ▸ .retry h
  case h_3 h =>
    rcases s.notification.receiveSignal_cases t with ⟨ha, hq, hb, hq', ha'⟩ | ⟨ha, hb, hq', ha'⟩
    · simp only [hb, if_true] at he
      exact Except.ok.inj he ▸ .take h ha hq hq' ha'
    · simp only [hb, Option.isSome_none, Bool.false_eq_true, if_false] at he
      exact Except.ok.inj he ▸ .block h ha hq' ha'
  case h_4 val h =>
    split at he
    · rename_i hv
      split at he
      · rename_i hval
        exact Except.ok.inj he ▸ .owe h hv hval
      · rename_i hval
        exact Except.ok.inj he ▸ .leave h hv (not_le.mp hval)
    · cases he
  case h_5 h =>
    rcases s.notification.sendSignal_cases 0 with ⟨hq, hd, hq', ha'⟩ | ⟨u, rest, hq, hd, hq', ha'⟩
    · simp only [hd] at he
      exact Except.ok.inj he ▸ .signal h hq hq' ha'
    · simp only [hd] at he
      refine Except.ok.inj he ▸ .wake h ?_ ha'
      rw [hq, hq']
  case h_6 => cases he

theorem step_acts (he : s.step l = .ok s') : Acts s l s' := by
  cases l with
  | lock t =>
    simp only [step] at he
    split at he
    · rename_i h
      exact Except.ok.inj he ▸ .lock h
    · cases he
  | unlock t =>
    simp only [step] at he
    split at he
    · rename_i h
      exact Except.ok.inj he ▸ .unlock h
    · cases he
  | go t => exact go_acts he
  | spurious t =>
    simp only [step] at he
    split at he
    · rename_i oldval h
      exact Except.ok.inj he ▸ .spurious h
    · cases he

/-! ## The token -/

/-- The thread has decremented the value and not yet incremented it again: one place of the
count. -/
def claims : SemPhase → ℕ
  | .wait | .blocked | .holding => 1
  | _ => 0

/-- The thread holds the mutex, and with it the token. -/
def holds : SemPhase → ℕ
  | .holding => 1
  | _ => 0

/-- The thread has given the mutex back and is about to signal. It carries the token until it
does. -/
def owes : SemPhase → ℕ
  | .check val => if val ≤ 0 then 1 else 0
  | .signal => 1
  | _ => 0

/-- The value is 1: the mutex is free, and the token is in the value. -/
def free (value : ℤ) : ℕ := if value = 1 then 1 else 0

/-- **The invariant.** The value counts the threads that have decremented it, and there is one
token. That `sync_mutex_lock` does not fail goes with it, since a thread that failed would increment
a value it has not decremented. -/
structure Inv [Fintype T] (s : BinSem T) : Prop where
  queue : s.notification.Holds fun u => s.phase u = .blocked
  count : s.value + total claims s.phase = 1
  token : total holds s.phase + s.notification.isActive.toNat + total owes s.phase +
    free s.value = 1
  returns : ∀ t, s.phase t ≠ .failed

variable [Fintype T]

theorem total_goTo {p : SemPhase} (hp : s.phase t = p) (w : SemPhase → ℕ) (q : SemPhase) :
    total w (s.goTo t q).phase + w p = total w s.phase + w q :=
  hp ▸ total_update w s.phase t q

omit [Fintype T] in
/-- Nobody is at `p`, and nobody goes there, so nobody is there afterwards. -/
theorem goTo_ne {p q : SemPhase} (hno : ∀ v, s.phase v ≠ p) (hq : q ≠ p) (v : T) :
    (s.goTo t q).phase v ≠ p := by
  rcases eq_or_ne v t with rfl | hne
  · simpa [goTo] using hq
  · simpa [goTo, Function.update_of_ne hne] using hno v

omit [DecidableEq T] in
theorem total_le_card {α : Type} {w : α → ℕ} (hw : ∀ a, w a ≤ 1) (f : T → α) :
    total w f ≤ Fintype.card T := by
  refine (Finset.sum_le_sum fun t _ => hw (f t)).trans ?_
  simp

omit [DecidableEq T] in
theorem claims_le (f : T → SemPhase) : total claims f ≤ Fintype.card T := by
  refine total_le_card (fun p => ?_) f
  cases p <;> simp [claims]

namespace Inv

omit [DecidableEq T] in
theorem value_le (h : s.Inv) : s.value ≤ 1 := by
  have := h.count
  omega

omit [DecidableEq T] in
theorem value_gt (h : s.Inv) (hcard : Fintype.card T ≤ 2 ^ 31) : intMin < s.value := by
  have hcount := h.count
  have hle := claims_le s.phase
  rw [intMin]
  omega

omit [DecidableEq T] in
theorem blocked_iff (h : s.Inv) : s.phase u = .blocked ↔ u ∈ s.notification.queue :=
  (h.queue.mem u).symm

omit [Fintype T] in
/-- A thread that moves between places that are not `blocked` changes no queue. -/
theorem queue_goTo {p q : SemPhase} (hp : s.phase t = p) (hpb : p ≠ .blocked)
    (hqb : q ≠ .blocked) (v : T) : (s.goTo t q).phase v = .blocked ↔ s.phase v = .blocked := by
  rcases eq_or_ne v t with rfl | hne
  · simp [goTo, hp, hpb, hqb]
  · simp [goTo, Function.update_of_ne hne]

/-- A thread moves, and with it the value or the notification. What it gives up and what it gets
are equal. -/
theorem move (h : s.Inv) {p q : SemPhase} {v : ℤ} {n : Ntfn T} (hp : s.phase t = p)
    (hq : q ≠ .failed) (hqueue : n.Holds fun u => (s.goTo t q).phase u = .blocked)
    (hcount : v + claims q = s.value + claims p)
    (htoken : holds q + n.isActive.toNat + owes q + free v =
      holds p + s.notification.isActive.toNat + owes p + free s.value) :
    Inv { s.goTo t q with value := v, notification := n } := by
  have hclaims := total_goTo hp claims q
  have hholds := total_goTo hp holds q
  have howes := total_goTo hp owes q
  have hc := h.count
  have ht := h.token
  refine ⟨hqueue, ?_, ?_, goTo_ne h.returns hq⟩
  · dsimp only
    omega
  · dsimp only
    omega

/-- A thread moves between two places that count the same. All the steps that touch neither the
value nor the notification are such. -/
theorem quiet (h : s.Inv) {p q : SemPhase} (hp : s.phase t = p) (hpb : p ≠ .blocked)
    (hqb : q ≠ .blocked) (hqf : q ≠ .failed) (hc : claims q = claims p) (hh : holds q = holds p)
    (ho : owes q = owes p) : (s.goTo t q).Inv := by
  refine h.move (v := s.value) (n := s.notification) hp hqf ?_ ?_ ?_
  · exact h.queue.keep (queue_goTo hp hpb hqb)
  · rw [hc]
  · rw [hh, ho]

/-- The holder increments the value. It keeps the token if the value is still not positive, it has
to pass it on with a signal then. -/
theorem unlock (h : s.Inv) (hcard : Fintype.card T ≤ 2 ^ 31) (hp : s.phase t = .holding) :
    Inv { s.goTo t (.check (addFetch s.value)) with value := addFetch s.value } := by
  have hone : s.value ≤ 0 := by
    have hle := le_total claims s.phase t
    have hc := h.count
    rw [hp, claims] at hle
    omega
  rw [addFetch_eq (h.value_gt hcard).le h.value_le]
  refine h.move (n := s.notification) hp nofun (h.queue.keep (queue_goTo hp nofun nofun)) ?_ ?_
  · simp only [claims]
    omega
  · simp only [holds, owes, free]
    split <;> split <;> split <;> omega

/-- A thread takes the mutex with the compare and exchange: the value was 1, so the token was
there. -/
theorem fast (h : s.Inv) (hp : s.phase t = .cas s.value) (hv : 0 < s.value) :
    Inv { s.goTo t .holding with value := s.value - 1 } := by
  have hone : s.value = 1 := by
    have hle := h.value_le
    omega
  refine h.move (n := s.notification) hp nofun (h.queue.keep (queue_goTo hp nofun nofun)) ?_ ?_
  · simp only [claims]
    omega
  · have hbefore : free s.value = 1 := if_pos hone
    have hafter : free (s.value - 1) = 0 := if_neg (by omega)
    simp only [holds, owes]
    omega

/-- A thread decrements a value that is not positive, and has to wait. The token is elsewhere, so it
stays where it is. -/
theorem slow (h : s.Inv) (hp : s.phase t = .cas s.value) (hv : s.value ≤ 0) :
    Inv { s.goTo t .wait with value := s.value - 1 } := by
  refine h.move (n := s.notification) hp nofun (h.queue.keep (queue_goTo hp nofun nofun)) ?_ ?_
  · simp only [claims]
    omega
  · simp only [holds, owes, free]
    split <;> split <;> omega

/-- A thread takes the token out of the notification, without being put to sleep. -/
theorem take (h : s.Inv) {n : Ntfn T} (hp : s.phase t = .wait)
    (ha : s.notification.isActive = true) (hq : s.notification.queue = []) (hq' : n.queue = [])
    (ha' : n.isActive = false) : Inv { s.goTo t .holding with notification := n } := by
  refine h.move (v := s.value) hp nofun
    (h.queue.of_nil hq hq' (queue_goTo hp nofun nofun)) rfl ?_
  rw [ha, ha']
  rfl

theorem block (h : s.Inv) {n : Ntfn T} (hp : s.phase t = .wait)
    (ha : s.notification.isActive = false) (hq : n.queue = s.notification.queue ++ [t])
    (ha' : n.isActive = false) : Inv { s.goTo t .blocked with notification := n } := by
  refine h.move (v := s.value) hp nofun ?_ rfl ?_
  · refine h.queue.append hq (by simp [hp]) fun v => ?_
    rcases eq_or_ne v t with rfl | hne
    · simp [goTo]
    · simp [goTo, hne]
  · rw [ha, ha']
    rfl

/-- A thread puts the token into the notification. Were this active, there would be two. -/
theorem signal (h : s.Inv) {n : Ntfn T} (hp : s.phase t = .signal)
    (hq : s.notification.queue = []) (hq' : n.queue = []) (ha' : n.isActive = true) :
    Inv { s.goTo t .out with notification := n } := by
  have ha : s.notification.isActive.toNat = 0 := by
    have hle := le_total owes s.phase t
    have ht := h.token
    rw [hp, owes] at hle
    omega
  refine h.move (v := s.value) hp nofun
    (h.queue.of_nil hq hq' (queue_goTo hp nofun nofun)) rfl ?_
  rw [ha, ha']
  rfl

/-- A thread hands the token to the head of the queue, which holds the mutex when it wakes up. -/
theorem wake (h : s.Inv) {n : Ntfn T} (hp : s.phase t = .signal)
    (hq : s.notification.queue = u :: n.queue) (ha' : n.isActive = false) :
    ({ s.goTo t .out with notification := n }.goTo u .holding).Inv := by
  have hu : s.phase u = .blocked := by
    rw [h.blocked_iff, hq]
    exact List.mem_cons_self
  have hne : u ≠ t := by
    rintro rfl
    cases hu.symm.trans hp
  have hu' : (s.goTo t .out).phase u = .blocked := (Function.update_of_ne hne _ _).trans hu
  have ha : s.notification.isActive = false :=
    Ntfn.not_isActive_of_mem (hq ▸ List.mem_cons_self : u ∈ s.notification.queue)
  have hclaims := total_goTo hp claims .out
  have hholds := total_goTo hp holds .out
  have howes := total_goTo hp owes .out
  have hclaims' := total_goTo hu' claims .holding
  have hholds' := total_goTo hu' holds .holding
  have howes' := total_goTo hu' owes .holding
  obtain ⟨hqueue, hcount, htoken, hret⟩ := h
  simp only [claims, holds, owes] at hclaims hholds howes hclaims' hholds' howes'
  refine ⟨?_, ?_, ?_, goTo_ne (goTo_ne hret nofun) nofun⟩
  · refine hqueue.tail hq rfl fun v => ?_
    rcases eq_or_ne v u with rfl | hvu
    · simp [goTo]
    · rcases eq_or_ne v t with rfl | hvt
      · simp [goTo, Function.update_of_ne hvu, hp]
      · simp [goTo, Function.update_of_ne hvt, hvu]
  · simp only [goTo] at hclaims hclaims' ⊢
    omega
  · rw [ha, Bool.toNat_false] at htoken
    simp only [goTo, ha', Bool.toNat_false] at hholds howes hholds' howes' ⊢
    omega

/-- **Every step keeps the token**, if there are no more threads than an `int` can count. -/
theorem acts (h : s.Inv) (hcard : Fintype.card T ≤ 2 ^ 31) (ha : Acts s l s') : s'.Inv := by
  cases ha with
  | lock hp => exact h.quiet hp nofun nofun nofun rfl rfl rfl
  | unlock hp => exact h.unlock hcard (hp.resolve_right (h.returns _))
  | full hp hv => exact absurd hv (h.value_gt hcard).ne'
  | load hp hv => exact h.quiet hp nofun nofun nofun rfl rfl rfl
  | slow hp hv => exact h.slow hp hv
  | fast hp hv => exact h.fast hp hv
  | retry hp => exact h.quiet hp nofun nofun nofun rfl rfl rfl
  | spurious hp => exact h.quiet hp nofun nofun nofun rfl rfl rfl
  | take hp hact hq hq' ha' => exact h.take hp hact hq hq' ha'
  | block hp hact hq ha' => exact h.block hp hact hq ha'
  | owe hp hv hval => exact h.quiet hp nofun nofun nofun rfl rfl (if_pos hval).symm
  | leave hp hv hval =>
    exact h.quiet hp nofun nofun nofun rfl rfl (if_neg (not_le.mpr hval)).symm
  | signal hp hq hq' ha' => exact h.signal hp hq hq' ha'
  | wake hp hq ha' => exact h.wake hp hq ha'

omit [DecidableEq T] in
theorem initial : (initial T).Inv where
  queue := ⟨by simp [BinSem.initial, Ntfn.queue], List.nodup_nil⟩
  count := by simp [BinSem.initial, total, claims]
  token := by simp [BinSem.initial, total, holds, owes, free, Ntfn.isActive]
  returns _ := nofun

/-- **The token is there in every run**, from the initial value on. -/
theorem of_reach (hcard : Fintype.card T ≤ 2 ^ 31) (hs : Reach (runs T) s) : s.Inv := by
  induction hs with
  | init h₀ => exact h₀ ▸ initial
  | step _ he ih => exact ih.acts hcard (step_acts he)

omit [DecidableEq T] in
/-- One thread at most has the token, so at most one holds the mutex. -/
theorem exclusive [DecidableEq T] (h : s.Inv) (ht : s.phase t = .holding)
    (hu : s.phase u = .holding) : t = u := by
  by_contra hne
  -- take the token away from `t`: then `u` still has one
  have hrest := total_goTo ht holds .out
  have hle := le_total holds (s.goTo t .out).phase u
  have hu' : (s.goTo t .out).phase u = .holding :=
    (Function.update_of_ne (Ne.symm hne) _ _).trans hu
  have htoken := h.token
  rw [hu'] at hle
  simp only [holds] at hrest hle
  omega

omit [DecidableEq T] in
/-- While a thread waits, the token is with a thread that will pass it on: the notification is not
active then, and the value is not 1. -/
theorem woken (h : s.Inv) (hu : s.phase u = .blocked) :
    ∃ t, s.phase t = .holding ∨ owes (s.phase t) = 1 := by
  by_contra hno
  push Not at hno
  have hclaim := le_total claims s.phase u
  have hcount := h.count
  have htoken := h.token
  have hactive : s.notification.isActive = false := Ntfn.not_isActive_of_mem (h.blocked_iff.mp hu)
  have hholds : total holds s.phase = 0 := by
    refine total_eq_zero.mpr fun t => ?_
    have ht := (hno t).1
    cases hp : s.phase t <;> first | rfl | exact absurd hp ht
  have howes : total owes s.phase = 0 := by
    refine total_eq_zero.mpr fun t => ?_
    have ht := (hno t).2
    have hle : owes (s.phase t) ≤ 1 := by
      cases s.phase t <;> simp only [owes] <;> first | omega | (split <;> omega)
    omega
  rw [hu] at hclaim
  have hvalue : free s.value = 0 := if_neg (by simp only [claims] at hclaim; omega)
  rw [hactive, Bool.toNat_false] at htoken
  omega

/-- The assertion of `sync_bin_sem_bare_post` holds, since the value is never above 1. -/
theorem step_ne_assert (h : s.Inv) (l : Label T) : s.step l ≠ .error .assert := by
  have hle := h.value_le
  rcases l with t | t | t | t <;> simp only [step, go]
  · split <;> simp
  · split <;> simp
  · split
    case h_2 => split <;> simp
    case h_4 => simp [hle]
    case h_5 => split <;> simp
    all_goals simp
  · split <;> simp

/-- A thread that gets the mutex was the head of the queue, or the queue was empty. So nobody who
sleeps is overtaken by a newcomer. -/
theorem order (h : s.Inv) (ha : Acts s l s') (ht : s.phase t ≠ .holding)
    (ht' : s'.phase t = .holding) :
    s.notification.queue = [] ∨ s.notification.queue.head? = some t := by
  -- only these three steps give a thread the mutex
  have hother : ∀ {v : T} {q : SemPhase},
      (s.goTo v q).phase t = .holding → q = .holding ∧ v = t := by
    intro v q hv
    rcases eq_or_ne t v with rfl | hne
    · exact ⟨by simpa [goTo] using hv, rfl⟩
    · exact absurd (by simpa [goTo, Function.update_of_ne hne] using hv) ht
  cases ha with
  | fast hp hv =>
    -- the value is 1, so nobody waits
    refine .inl (List.eq_nil_iff_forall_not_mem.mpr fun u hu => ?_)
    have hclaim := le_total claims s.phase u
    have hcount := h.count
    rw [h.blocked_iff.mpr hu] at hclaim
    simp only [claims] at hclaim
    omega
  | take hp hact hq hq' ha' => exact .inl hq
  | @wake v u n hp hq ha' =>
    rcases eq_or_ne t u with rfl | hne
    · exact .inr (by rw [hq]; rfl)
    · have hv : (s.goTo v .out).phase t = .holding := by
        simpa [goTo, Function.update_of_ne hne] using ht'
      cases (hother hv).1
  | lock hp => cases (hother ht').1
  | unlock hp => cases (hother ht').1
  | full hp hv => cases (hother ht').1
  | load hp hv => cases (hother ht').1
  | slow hp hv => cases (hother ht').1
  | retry hp => cases (hother ht').1
  | spurious hp => cases (hother ht').1
  | block hp hact hq ha' => cases (hother ht').1
  | owe hp hv hval => cases (hother ht').1
  | leave hp hv hval => cases (hother ht').1
  | signal hp hq hq' ha' => cases (hother ht').1

end Inv

/-! ## The mutex is correct -/

/-- What a mutex is there for: exclusion, no failures, no thread that sleeps forever, and the order
of the queue. -/
structure MutexLaw (s : BinSem T) : Prop where
  /-- at most one thread has got the mutex and not given it back -/
  exclusive : ∀ t u, s.phase t = .holding → s.phase u = .holding → t = u
  /-- `sync_mutex_lock` does not fail -/
  returns : ∀ t, s.phase t ≠ .failed
  /-- the assertion `*value <= 1` holds -/
  asserts : ∀ l, s.step l ≠ .error .assert
  /-- somebody holds the mutex, or is about to signal, whenever a thread waits -/
  woken : ∀ u, s.phase u = .blocked → ∃ t, s.phase t = .holding ∨ owes (s.phase t) = 1
  /-- nobody gets the mutex before the first one in the queue -/
  order : ∀ l s' t, s.step l = .ok s' → s.phase t ≠ .holding → s'.phase t = .holding →
    s.notification.queue = [] ∨ s.notification.queue.head? = some t

/-- **The mutex is correct** in every run of any number of threads that an `int` can count: one
thread at a time has it, neither function fails, and whoever waits in the kernel will be signalled
to, in the order of the queue. -/
theorem mutex_correct (hcard : Fintype.card T ≤ 2 ^ 31) (hs : Reach (runs T) s) : MutexLaw s := by
  have h : s.Inv := .of_reach hcard hs
  exact {
    exclusive := fun t u ht hu => h.exclusive ht hu
    returns := h.returns
    asserts := h.step_ne_assert
    woken := fun u hu => h.woken hu
    order := fun l s' t he ht ht' => h.order (step_acts he) ht ht' }

/-- One thread holds the mutex and another one waits for it, asleep in the kernel. -/
theorem mutex_correct_contended : ∃ s : BinSem (Fin 2), s.phase 0 = .holding ∧
    s.phase 1 = .blocked ∧ MutexLaw s := by
  obtain ⟨s, hs, h₀, h₁⟩ := Reach.exists_of_exec (T := runs (Fin 2)) step (fun _ _ _ h => h)
    (.init rfl) [.lock 0, .go 0, .spurious 0, .go 0, .go 0, .lock 1, .go 1, .go 1, .go 1]
    (fun s => s.phase 0 = .holding ∧ s.phase 1 = .blocked) (by decide)
  exact ⟨s, h₀, h₁, mutex_correct (by decide) hs⟩

/-! ## Somebody gets the mutex -/

/-- At most `k` steps lead to a state in which somebody holds the mutex. No thread has to call a
function for it. -/
def Soon (k : ℕ) (s : BinSem T) : Prop :=
  ∃ ts : List T, ts.length ≤ k ∧ ∃ s', ts.foldlM go s = .ok s' ∧ ∃ t, s'.phase t = .holding

/-- The thread is in `sync_mutex_lock` and has not got the mutex yet. -/
def wants : SemPhase → Bool
  | .load | .cas _ | .wait | .blocked => true
  | _ => false

namespace Soon

omit [Fintype T]

theorem now (ht : s.phase t = .holding) : Soon 0 s := ⟨[], le_rfl, s, rfl, t, ht⟩

theorem step {k : ℕ} (he : s.go t = .ok s') (h : Soon k s') : Soon (k + 1) s := by
  obtain ⟨ts, hlen, s'', hrun, hold⟩ := h
  refine ⟨t :: ts, Nat.succ_le_succ hlen, s'', ?_, hold⟩
  rw [List.foldlM_cons, he]
  exact hrun

theorem mono {k k' : ℕ} (h : Soon k s) (hk : k ≤ k') : Soon k' s := by
  obtain ⟨ts, hlen, hrun⟩ := h
  exact ⟨ts, hlen.trans hk, hrun⟩

end Soon

namespace Inv

/-- The token is in the notification: some thread is at `seL4_Wait` and takes it. -/
theorem soon_of_active (h : s.Inv) (hno : ∀ t, s.phase t ≠ .holding)
    (ha : s.notification.isActive = true) : Soon 1 s := by
  have hcount := h.count
  have htoken := h.token
  rw [ha, Bool.toNat_true] at htoken
  have hvalue : s.value ≠ 1 := by
    intro hv
    have hone : free s.value = 1 := if_pos hv
    omega
  have hsome : ¬ ∀ t, claims (s.phase t) = 0 := by
    intro hall
    have hzero := total_eq_zero.mpr hall
    omega
  push Not at hsome
  obtain ⟨t, ht⟩ := hsome
  have hwait : s.phase t = .wait := by
    cases hp : s.phase t with
    | wait => rfl
    | holding => exact absurd hp (hno t)
    | blocked => cases (Ntfn.not_isActive_of_mem (h.blocked_iff.mp hp)).symm.trans ha
    | _ => exact absurd (by rw [hp]; rfl) ht
  rcases s.notification.receiveSignal_cases t with ⟨-, -, hb, -⟩ | ⟨hno', -⟩
  · refine .step (t := t) (by rw [go, hwait]) (.now (t := t) ?_)
    simp [goTo, hb]
  · cases hno'.symm.trans ha

/-- The token is with a thread at `seL4_Signal`: it wakes a thread, or leaves the token for one that
is at `seL4_Wait`. -/
theorem soon_of_signal (h : s.Inv) (hcard : Fintype.card T ≤ 2 ^ 31)
    (hno : ∀ t, s.phase t ≠ .holding) (ht : s.phase t = .signal) : Soon 2 s := by
  rcases s.notification.sendSignal_cases 0 with ⟨hq, hd, -, ha'⟩ | ⟨u, rest, hq, hd, -⟩
  · have he : s.go t =
        .ok { s.goTo t .out with notification := (s.notification.sendSignal 0).1 } := by
      simp only [go, ht, hd]
    exact .step he ((h.acts hcard (go_acts he)).soon_of_active (goTo_ne hno nofun) ha')
  · have he : s.go t = .ok ({ s.goTo t .out with
        notification := (s.notification.sendSignal 0).1 }.goTo u .holding) := by
      simp only [go, ht, hd]
    exact .step he ((Soon.now (t := u) (by simp [goTo])).mono (Nat.zero_le 1))

/-- The token is with a thread in `sync_mutex_unlock`, which has at most the assertion in front of
its signal. -/
theorem soon_of_owes (h : s.Inv) (hcard : Fintype.card T ≤ 2 ^ 31)
    (hno : ∀ t, s.phase t ≠ .holding) (ht : owes (s.phase t) ≠ 0) : Soon 3 s := by
  cases hp : s.phase t with
  | signal => exact (h.soon_of_signal hcard hno hp).mono (by decide)
  | check val =>
    have hval : val ≤ 0 := by
      by_contra hpos
      rw [hp, owes, if_neg hpos] at ht
      exact ht rfl
    have he : s.go t = .ok (s.goTo t .signal) := by
      simp only [go, hp, if_pos h.value_le, if_pos hval]
    refine .step he ((h.acts hcard (go_acts he)).soon_of_signal (t := t) hcard
      (goTo_ne hno nofun) ?_)
    simp [goTo]
  | _ => exact absurd (by rw [hp]; rfl) ht

/-- The mutex is free: a thread that wants it takes it with its next compare and exchange. -/
theorem soon_of_free (h : s.Inv) (hv : s.value = 1)
    (ht : wants (s.phase t) = true) : Soon 3 s := by
  have hload : ∀ s : BinSem T, s.value = 1 → s.phase t = .load → Soon 2 s := by
    intro s hv hp
    have he : s.go t = .ok (s.goTo t (.cas 1)) := by
      simp only [go, hp, hv, intMin, if_neg (by decide : (1 : ℤ) ≠ -2 ^ 31)]
    have he' : (s.goTo t (.cas 1)).go t =
        .ok { (s.goTo t (.cas 1)).goTo t .holding with value := 1 - 1 } := by
      have hp' : (s.goTo t (.cas 1)).phase t = .cas 1 := Function.update_self ..
      have hv' : (s.goTo t (.cas 1)).value = 1 := hv
      simp only [go, hp', hv', if_true, if_neg (by decide : ¬ (1 : ℤ) ≤ 0)]
    exact .step he (.step he' (.now (t := t) (by simp [goTo])))
  have hnone : claims (s.phase t) = 0 := by
    have hle := le_total claims s.phase t
    have hcount := h.count
    omega
  cases hp : s.phase t with
  | load => exact (hload s hv hp).mono (by decide)
  | cas oldval =>
    rcases eq_or_ne s.value oldval with rfl | hne
    · have he : s.go t = .ok { s.goTo t .holding with value := s.value - 1 } := by
        simp only [go, hp, if_true, if_neg (by omega : ¬ s.value ≤ 0)]
      exact (Soon.step he (.now (t := t) (by simp [goTo]))).mono (by decide)
    · have he : s.go t = .ok (s.goTo t .load) := by simp only [go, hp, if_neg hne]
      exact .step he (hload _ hv (by simp [goTo]))
  | wait => rw [hp] at hnone; cases hnone
  | blocked => rw [hp] at hnone; cases hnone
  | _ => rw [hp] at ht; cases ht

end Inv

/-- **The mutex does not get stuck.** Whenever nobody holds it and some thread is in
`sync_mutex_lock`, three steps of the threads are enough for somebody to get it. -/
theorem lock_free (hcard : Fintype.card T ≤ 2 ^ 31) (hs : Reach (runs T) s)
    (hno : ∀ t, s.phase t ≠ .holding) (ht : wants (s.phase t) = true) : Soon 3 s := by
  have h : s.Inv := .of_reach hcard hs
  have htoken := h.token
  have hholds : total holds s.phase = 0 := by
    refine total_eq_zero.mpr fun u => ?_
    have hu := hno u
    cases hp : s.phase u <;> first | rfl | exact absurd hp hu
  rcases hact : s.notification.isActive with _ | _
  · by_cases hv : s.value = 1
    · exact h.soon_of_free hv ht
    · have hzero : free s.value = 0 := if_neg hv
      have hsome : ¬ ∀ u, owes (s.phase u) = 0 := by
        intro hall
        have howes := total_eq_zero.mpr hall
        rw [hact, Bool.toNat_false] at htoken
        omega
      push Not at hsome
      obtain ⟨u, hu⟩ := hsome
      exact h.soon_of_owes hcard hno hu
  · exact (h.soon_of_active hno hact).mono (by decide)

/-- The holder has incremented the value and not yet signalled, and the other thread waits. -/
theorem lock_free_handing : ∃ s : BinSem (Fin 2), s.phase 0 = .check 0 ∧ s.phase 1 = .blocked ∧
    Soon 3 s := by
  obtain ⟨s, hs, h₀, h₁⟩ := Reach.exists_of_exec (T := runs (Fin 2)) step (fun _ _ _ h => h)
    (.init rfl) [.lock 0, .go 0, .go 0, .lock 1, .go 1, .go 1, .go 1, .unlock 0]
    (fun s => s.phase 0 = .check 0 ∧ s.phase 1 = .blocked) (by decide)
  refine ⟨s, h₀, h₁, lock_free (t := 1) (by decide) hs (fun t => ?_) (by rw [h₁]; rfl)⟩
  fin_cases t
  · exact fun h => by cases h₀.symm.trans h
  · exact fun h => by cases h₁.symm.trans h

end BinSem

end GreenLib
