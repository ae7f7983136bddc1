import GreenLib.Lock

/-!
# Condition variables

`thread_cv_wait` is a release of the lock, `thread_sleep` on the condition variable and an
acquire, and `thread_cv_signal` is `thread_wakeup`. What they are for is said with
auxiliary variables of the program (`CvAux`): for each condition variable the queue of the
threads that have begun to wait and have not been signalled, which a wait extends and a
signal shortens at the other end, and the number of signals.

The law (`CvLaw`) compares the queue with the library's: a signal releases the thread that
waits longest, and a thread that is back from its wait has been signalled since, and holds
the lock. It fails when the wait is not atomic (`cv_wait_window`): `thread_sleep` returns
at once if nobody is ready, and a release that finds waiters for the lock runs one of them
before the caller sleeps. If at every call of `thread_cv_wait` some thread is ready and
nobody waits for the lock, the law holds (`cv_law`).
-/

namespace GreenLib

open Sched

variable {U G A E : Type}

/-! ## Auxiliary variables -/

/-- What the program records about its condition variables. These are auxiliary variables: the
library does not see them, and a program can keep them without changing its calls. -/
structure CvAux (U G : Type) : Type where
  /-- the locks that a thread holds -/
  held : U → Finset Addr
  /-- the primitives that serve as condition variables -/
  cvs : Addr → Prop
  /-- how often `thread_cv_signal` has been called -/
  signals : G → Addr → ℕ
  /-- the threads that have called `thread_cv_wait` and that no signal has released since -/
  pending : G → Addr → List ℕ
  /-- behind a `thread_cv_wait`: the condition variable, the lock, and the number of signals when
  the wait began -/
  since : U → Option (Addr × Addr × ℕ)

/-- Nothing is recorded: both numbers of every condition variable stay. -/
def CvAux.Kept (x : CvAux U G) (g g' : G) : Prop :=
  x.signals g' = x.signals g ∧ x.pending g' = x.pending g

/-- The call is recorded. Condition variables are used by wait and signal only, and behind every
other call a thread has no wait to speak of. -/
def Call.Tracks (x : CvAux U G) (v : View) (g : G) (ret : Option ℕ → U) (g' : G) : Call U → Prop
  | .cvWait cv l => x.cvs cv ∧ x.signals g' = x.signals g ∧
      x.pending g' = Function.update (x.pending g) cv (x.pending g cv ++ [v.tid]) ∧
      x.since (ret none) = some (cv, l, x.signals g cv)
  | .cvSignal cv => x.signals g' = Function.update (x.signals g) cv (x.signals g cv + 1) ∧
      x.pending g' = Function.update (x.pending g) cv (x.pending g cv).tail ∧
      ∀ r, x.since (ret r) = none
  | .sleep p => ¬ x.cvs p ∧ x.Kept g g' ∧ ∀ r, x.since (ret r) = none
  | .wakeup p => ¬ x.cvs p ∧ x.Kept g g' ∧ ∀ r, x.since (ret r) = none
  | .wakeupWait p => ¬ x.cvs p ∧ x.Kept g g' ∧ ∀ r, x.since (ret r) = none
  | .create w => x.since w = none ∧ x.Kept g g' ∧ ∀ r, x.since (ret r) = none
  | _ => x.Kept g g' ∧ ∀ r, x.since (ret r) = none

/-- The program records its condition variables in `x`, call by call, and its environment leaves the
records alone. -/
structure Program.Tracks (P : Program U G A E) (x : CvAux U G) : Prop where
  main : x.since P.main = none
  init : ∀ {g}, P.init g → ∀ p, x.pending g p = []
  next : ∀ {act v u g c ret g'}, P.next act v u g = some (c, ret, g') → c.Tracks x v g ret g'
  env : ∀ {e g g'}, P.env e g = some g' → x.Kept g g'

/-- A thread that is past the sleep of its wait has been signalled since the wait began. The place
is needed for the one frame where this is still to come. -/
def Frame.Since (x : CvAux U G) (kind : Addr → Option PrimKind) (g : G) (pl : Place Addr) :
    Frame U → Prop
  | .user u => ∀ cv l n, x.since u = some (cv, l, n) → n < x.signals g cv ∧ l ∈ x.held u
  | .acquire _ lk u => ∀ cv l n, x.since u = some (cv, l, n) → n < x.signals g cv ∧ l = lk
  | .relAcq _ u => x.since u = none
  | .semP _ _ u => x.since u = none
  | .join _ _ _ u => x.since u = none
  | .cvSleep cv l u => ∃ n, x.since u = some (cv, l, n) ∧ n ≤ x.signals g cv ∧ x.cvs cv
  | .cvAcquire cv l u => ∃ n, x.since u = some (cv, l, n) ∧ n ≤ x.signals g cv ∧
      (pl = .waiting cv ∧ x.cvs cv ∧ kind cv = some .plain ∨ n < x.signals g cv)

/-- The condition variable that a thread is about to sleep on. Between the release and the sleep a
thread belongs to no queue, and this is how it is found. -/
def Frame.enters : Frame U → Option Addr
  | .cvSleep cv _ _ => some cv
  | _ => none

/-- The running thread, if it has released the lock and is about to sleep on `cv`. -/
def AMach.entering (a : AMach U G) (cv : Addr) : List ℕ :=
  match a.sched.running with
  | none => []
  | some i => if (a.frame i).enters = some cv then [i] else []

/-- **The invariant of condition variables.** The recorded queue is the library's, with a thread
between its release and its sleep at the end. -/
structure CvWaits (x : CvAux U G) (a : AMach U G) : Prop where
  fresh : ∀ cv, a.kind cv ≠ some .plain → x.pending a.g cv = []
  queue : ∀ cv, x.cvs cv → a.kind cv = some .plain →
    x.pending a.g cv = a.sched.waiting cv ++ a.entering cv
  /-- nobody is switched away from between the release and the sleep -/
  entering : ∀ j, a.sched.place j ≠ .nowhere → (a.frame j).enters ≠ none →
    a.sched.running = some j ∧ a.sched.ready ≠ []
  asleep : ∀ cv j, x.cvs cv → a.kind cv = some .plain → j ∈ a.sched.waiting cv →
    ∃ l u, a.frame j = .cvAcquire cv l u
  since : ∀ j, a.sched.place j ≠ .nowhere →
    (a.frame j).Since x a.kind a.g (a.sched.place j)

section Steps

variable {P : Program U G A E} {x : CvAux U G} {a a' : AMach U G} {lab : Label A E} {i j : ℕ}
  {cv l : Addr}

theorem entering_eq_nil (h : ∀ j, a.sched.running = some j → (a.frame j).enters ≠ some cv) :
    a.entering cv = [] := by
  unfold AMach.entering
  split
  · rfl
  · rename_i i hi
    exact if_neg (h i hi)

theorem nobody_entering (h : ∀ j, a.sched.place j ≠ .nowhere → (a.frame j).enters = none) :
    a.entering cv = [] :=
  entering_eq_nil fun j hj => by
    rw [h j (by simp [place_running hj])]
    exact nofun

theorem entering_eq (hi : a.sched.running = some i) (hf : (a.frame i).enters = some cv) :
    a.entering cv = [i] := by
  unfold AMach.entering
  rw [hi]
  exact if_pos hf

/-- Signals are counted: no step takes one back. -/
theorem AStep.signals_le (hT : P.Tracks x) (hs : AStep P a lab a') (p : Addr) :
    x.signals a.g p ≤ x.signals a'.g p := by
  rcases hs.shared with he | ⟨e, he⟩ | ⟨i, act, u, c, ret, _, _, hn⟩
  · rw [he]
  · rw [(hT.env he).1]
  · have hc := hT.next hn
    cases c
    case cvSignal q =>
      rw [hc.1]
      by_cases hp : p = q
      · simp [hp]
      · rw [Function.update_of_ne hp]
    case cvWait q l => rw [hc.2.1]
    case sleep q => rw [hc.2.1.1]
    case wakeup q => rw [hc.2.1.1]
    case wakeupWait q => rw [hc.2.1.1]
    case create w => rw [hc.2.1.1]
    all_goals rw [hc.1.1]

/-- A thread that has been signalled stays so, and one that has not keeps waiting in the queue or is
signalled by this step. -/
theorem Frame.Since.mono {kind kind' : Addr → Option PrimKind} {g g' : G} {pl pl' : Place Addr}
    {fr : Frame U} (h : fr.Since x kind g pl) (hg : ∀ p, x.signals g p ≤ x.signals g' p)
    (hpl : ∀ cv l u n, fr = .cvAcquire cv l u → pl = .waiting cv → x.cvs cv →
      kind cv = some .plain → n ≤ x.signals g cv →
      pl' = .waiting cv ∧ kind' cv = some .plain ∨ n < x.signals g' cv) :
    fr.Since x kind' g' pl' := by
  cases fr
  case cvSleep cv l u =>
    obtain ⟨n, hu, hn, hcv⟩ := h
    exact ⟨n, hu, hn.trans (hg cv), hcv⟩
  case cvAcquire cv l u =>
    obtain ⟨n, hu, hn, ⟨hp, hcv, hk⟩ | hlt⟩ := h
    · refine ⟨n, hu, hn.trans (hg cv), ?_⟩
      rcases hpl cv l u n rfl hp hcv hk hn with ⟨hp', hk'⟩ | hlt
      · exact .inl ⟨hp', hcv, hk'⟩
      · exact .inr hlt
    · exact ⟨n, hu, hn.trans (hg cv), .inr (hlt.trans_le (hg cv))⟩
  case user u =>
    intro cv l n hu
    obtain ⟨hn, hl⟩ := h cv l n hu
    exact ⟨hn.trans_le (hg cv), hl⟩
  case acquire b lk u =>
    intro cv l n hu
    obtain ⟨hn, hl⟩ := h cv l n hu
    exact ⟨hn.trans_le (hg cv), hl⟩
  all_goals exact h

/-- A thread that comes from a call other than a wait has nothing to show. -/
theorem Frame.since_user {kind : Addr → Option PrimKind} {g : G} {pl : Place Addr} {u : U}
    (hu : x.since u = none) : (Frame.user u).Since x kind g pl := by
  intro cv l n he
  cases hu.symm.trans he

/-- **What an action is for the condition variables**: the beginning of a wait, its sleep, a signal,
or something else. The invariant is proved by cases on these four. -/
inductive CvMove (P : Program U G A E) (x : CvAux U G) (a : AMach U G) (i : ℕ) (lab : Label A E) :
    AMach U G → Frame U → Req Addr → Prop where
  | wait {b : AMach U G} {cv lk : Addr} {u : U} (hc : a.Calls P lab (.cvWait cv lk))
      (hf : (a.frame i).enters = none) (hu : x.since u = some (cv, lk, x.signals a.g cv))
      (hcv : x.cvs cv) (hk : a.kind lk = some .lock) (hs : x.signals b.g = x.signals a.g)
      (hp : x.pending b.g = Function.update (x.pending a.g) cv (x.pending a.g cv ++ [i])) :
      CvMove P x a i lab b (.cvSleep cv lk u) (.wakeup lk)
  | sleep {cv lk : Addr} {u : U} (hf : a.frame i = .cvSleep cv lk u) :
      CvMove P x a i lab a (.cvAcquire cv lk u) (.sleep cv)
  | signal {b : AMach U G} {cv : Addr} {u : U} (hf : (a.frame i).enters = none)
      (hu : x.since u = none)
      (hs : x.signals b.g = Function.update (x.signals a.g) cv (x.signals a.g cv + 1))
      (hp : x.pending b.g = Function.update (x.pending a.g) cv (x.pending a.g cv).tail) :
      CvMove P x a i lab b (.user u) (.wakeup cv)
  | other {b : AMach U G} {fr : Frame U} {r : Req Addr} (hf : (a.frame i).enters = none)
      (hfr : fr.enters = none) (hsince : ∀ pl, fr.Since x a.kind b.g pl) (hkept : x.Kept a.g b.g)
      (hr : ∀ cv, x.cvs cv → a.kind cv = some .plain → ¬ r.Touches cv) :
      CvMove P x a i lab b fr r

/-- **A plain call** is a signal, or it works on no condition variable and is not recorded. -/
theorem Call.Tracks.plain {c : Call U} {v : View} {g g' : G} {ret : Option ℕ → U}
    (h : c.Tracks x v g ret g') {sched : Sched Addr} {r : Req Addr} (hr : c.req sched = some r) :
    (∃ cv, c = .cvSignal cv ∧ r = .wakeup cv) ∨
      x.Kept g g' ∧ (∀ o, x.since (ret o) = none) ∧ ∀ cv, x.cvs cv → ¬ r.Touches cv := by
  cases c <;> simp only [Call.req, Option.some.injEq, reduceCtorEq] at hr <;> subst hr
  case cvSignal cv => exact .inl ⟨cv, rfl, rfl⟩
  case sleep p =>
    refine .inr ⟨h.2.1, h.2.2, fun cv hcv ht => ?_⟩
    exact h.1 (Req.touches_sleep.mp ht ▸ hcv)
  case wakeup p =>
    refine .inr ⟨h.2.1, h.2.2, fun cv hcv ht => ?_⟩
    exact h.1 (Req.touches_wakeup.mp ht ▸ hcv)
  case wakeupWait p =>
    refine .inr ⟨h.2.1, h.2.2, fun cv hcv ht => ?_⟩
    exact h.1 (Req.touches_wakeupWait.mp ht ▸ hcv)
  all_goals
    refine .inr ⟨h.1, h.2, fun cv _ ht => ?_⟩
    rcases ht with he | he | he <;> cases he

/-- A call that makes a primitive is not recorded, whether or not it succeeds. -/
theorem Call.Tracks.makes {c : Call U} {v : View} {g g' : G} {ret : Option ℕ → U} {k : PrimKind}
    (h : c.Tracks x v g ret g') (hc : c.makes = some k) :
    x.Kept g g' ∧ ∀ o, x.since (ret o) = none := by
  cases c <;> simp only [Call.makes, reduceCtorEq] at hc <;> exact h

/-- A request that works on the queue of a lock or a semaphore works on no condition variable. -/
theorem Req.off_plain {kind : Addr → Option PrimKind} {r : Req Addr} {p : Addr} {k : PrimKind}
    (hp : r.Touches p) (hk : kind p = some k) (hne : k ≠ .plain) (cv : Addr) (_ : x.cvs cv)
    (hcv : kind cv = some .plain) : ¬ r.Touches cv := by
  intro ht
  obtain rfl := hp.inj ht
  exact hne (Option.some.inj (hk.symm.trans hcv))

/-- The moves of the calls. Only wait and signal are recorded. -/
theorem Act.cvMove_call (hT : P.Tracks x) (hi : a.sched.running = some i) {act : A} {al : Alloc}
    {b : AMach U G} {fr : Frame U} {r : Req Addr} (h : Act P a i (.call act al) b fr r) :
    CvMove P x a i (.call act al) b fr r := by
  have hstay : ∀ cv, x.cvs cv → a.kind cv = some .plain → ¬ (Req.stay : Req Addr).Touches cv :=
    fun cv _ _ => Req.not_touches_stay cv
  have hno : ∀ {u : U}, a.frame i = .user u → (a.frame i).enters = none := by
    intro u hf
    rw [hf]
    rfl
  cases h with
  | plain hf hn hr =>
    rcases (hT.next hn).plain hr with ⟨cv, rfl, rfl⟩ | ⟨hg, hret, hoff⟩
    · obtain ⟨hsig, hpend, hret⟩ := hT.next hn
      exact .signal (hno hf) (hret none) hsig hpend
    · exact .other (hno hf) rfl (fun _ => Frame.since_user (hret none)) hg
        fun cv hcv _ => hoff cv hcv
  | primFail hf hn hc hal =>
    obtain ⟨hg, hret⟩ := (hT.next hn).makes hc
    exact .other (hno hf) rfl (fun _ => Frame.since_user (hret none)) hg hstay
  | acquire hf hn hk hh =>
    obtain ⟨hg, hret⟩ := hT.next hn
    refine .other (hno hf) rfl (fun _ cv l n he => ?_) hg hstay
    cases (hret none).symm.trans he
  | release hf hn hk =>
    obtain ⟨hg, hret⟩ := hT.next hn
    exact .other (hno hf) rfl (fun _ => Frame.since_user (hret none)) hg
      (Req.off_plain (.inr (.inl rfl)) hk (by simp))
  | releaseAcquire hf hn hk =>
    obtain ⟨hg, hret⟩ := hT.next hn
    exact .other (hno hf) rfl (fun _ => hret none) hg
      (Req.off_plain (.inr (.inr rfl)) hk (by simp))
  | semP hf hn =>
    obtain ⟨hg, hret⟩ := hT.next hn
    exact .other (hno hf) rfl (fun _ => hret none) hg hstay
  | semV hf hn hk hpos =>
    obtain ⟨hg, hret⟩ := hT.next hn
    exact .other (hno hf) rfl (fun _ => Frame.since_user (hret none)) hg
      (Req.off_plain (.inr (.inl rfl)) hk (by simp))
  | cvWait hf hn hk =>
    obtain ⟨hcv, hs, hp, hu⟩ := hT.next hn
    exact .wait ⟨i, _, _, _, _, _, rfl, hi, hf, hn⟩ (hno hf) hu hcv hk hs hp
  | join hf hn hor =>
    obtain ⟨hg, hret⟩ := hT.next hn
    rcases hor with rfl | ⟨_, _, rfl⟩
    · exact .other (hno hf) rfl (fun _ => Frame.since_user (hret none)) hg hstay
    · exact .other (hno hf) rfl (fun _ => hret none) hg hstay
  | cspaceAlloc hf hn hsl =>
    obtain ⟨hg, hret⟩ := hT.next hn
    exact .other (hno hf) rfl (fun _ => Frame.since_user (hret _)) hg hstay

/-- The moves inside the library. The sleep of a wait is the only one on a condition variable, and
a thread that comes back from it has been signalled. -/
theorem Act.cvMove_turn (hwants : (a.frame i).Wants x.held a.kind)
    (hsince : (a.frame i).Since x a.kind a.g .running) {b : AMach U G} {fr : Frame U}
    {r : Req Addr} (h : Act P a i .turn b fr r) : CvMove P x a i .turn b fr r := by
  have hstay : ∀ cv, x.cvs cv → a.kind cv = some .plain → ¬ (Req.stay : Req Addr).Touches cv :=
    fun cv _ _ => Req.not_touches_stay cv
  have hkept : x.Kept a.g a.g := ⟨rfl, rfl⟩
  cases h with
  | cvSleep hf => exact .sleep hf
  | cvAcquire hf hk hh =>
    rw [hf] at hsince
    obtain ⟨n, hu, _, ⟨he, _⟩ | hlt⟩ := hsince
    · cases he
    · refine .other (by rw [hf]; rfl) rfl (fun _ cv l n' hu' => ?_) hkept hstay
      obtain ⟨rfl, rfl, rfl⟩ : _ ∧ _ ∧ _ := by simpa using hu.symm.trans hu'
      exact ⟨hlt, rfl⟩
  | acquireSpin hf hk hh hr =>
    rw [hf] at hsince
    exact .other (by rw [hf]; rfl) rfl (fun _ => hsince) hkept hstay
  | acquireSleep hf hk hh hr =>
    rw [hf] at hsince
    exact .other (by rw [hf]; rfl) rfl (fun _ => hsince) hkept
      (Req.off_plain (.inl rfl) hk (by simp))
  | acquireDone hf hk hh =>
    rw [hf] at hsince hwants
    refine .other (by rw [hf]; rfl) rfl (fun _ cv l n hu => ?_) hkept hstay
    obtain ⟨hn, rfl⟩ := hsince cv l n hu
    exact ⟨hn, hwants.1⟩
  | relAcq hf =>
    rw [hf] at hsince
    exact .other (by rw [hf]; rfl) rfl (fun _ => Frame.since_user hsince) hkept hstay
  | semPSpin hf hk hc hr =>
    rw [hf] at hsince
    exact .other (by rw [hf]; rfl) rfl (fun _ => hsince) hkept hstay
  | semPSleep hf hk hc hr =>
    rw [hf] at hsince
    exact .other (by rw [hf]; rfl) rfl (fun _ => hsince) hkept
      (Req.off_plain (.inl rfl) hk (by simp))
  | semPDone hf hk hc =>
    rw [hf] at hsince
    exact .other (by rw [hf]; rfl) rfl (fun _ => Frame.since_user hsince) hkept hstay
  | joinAgain j hf =>
    rw [hf] at hsince
    refine .other (by rw [hf]; rfl) rfl (fun _ => hsince) hkept ?_
    rintro cv hcv hpl (h | h | h) <;> cases h
  | joinDone hf =>
    rw [hf] at hsince
    exact .other (by rw [hf]; rfl) rfl (fun _ => Frame.since_user hsince) hkept hstay

/-- **Every action is one of the moves**, by the two lemmas above. -/
theorem Act.cvMove (hT : P.Tracks x) (hi : a.sched.running = some i)
    (hwants : (a.frame i).Wants x.held a.kind)
    (hsince : (a.frame i).Since x a.kind a.g .running) {b : AMach U G} {fr : Frame U}
    {r : Req Addr} (h : Act P a i lab b fr r) : CvMove P x a i lab b fr r := by
  cases lab with
  | call act al => exact h.cvMove_call hT hi
  | turn => exact h.cvMove_turn hwants hsince
  | env e => cases h
  | scribble t junk => cases h

namespace CvWaits

/-- If the acting thread does not enter a wait, nobody does: only the running thread can be between
release and sleep. -/
theorem nobody_enters (h : CvWaits x a) (hs : AStep P a lab a')
    (hown : ∀ i, a.sched.running = some i → a'.sched.place i ≠ .nowhere →
      (a'.frame i).enters = none) :
    ∀ j, a'.sched.place j ≠ .nowhere → (a'.frame j).enters = none := by
  intro j hj
  by_cases hrun : a.sched.running = some j
  · exact hown j hrun hj
  by_cases hp : a.sched.place j = .nowhere
  · obtain ⟨v, _, hv⟩ := hs.new_thread hp hj
    rw [hv]
    rfl
  · rw [hs.frame_of_ne hp hrun]
    by_contra hne
    exact hrun (h.entering j hp hne).1

/-- What has been signalled. The acting thread is left to the caller of the lemma; another thread is
woken from a condition variable by a signal only. -/
theorem since_step (hT : P.Tracks x) (ho : Owners x.held a) (hok : a.Ok) (h : CvWaits x a)
    (hs : AStep P a lab a')
    (hown : ∀ i, a.sched.running = some i → a'.sched.place i ≠ .nowhere →
      (a'.frame i).Since x a'.kind a'.g (a'.sched.place i)) (hj : a'.sched.place j ≠ .nowhere) :
    (a'.frame j).Since x a'.kind a'.g (a'.sched.place j) := by
  by_cases hrun : a.sched.running = some j
  · exact hown j hrun hj
  by_cases hp : a.sched.place j = .nowhere
  · obtain ⟨v, ⟨_, _, _, _, _, _, _, _, _, hn⟩, hv⟩ := hs.new_thread hp hj
    rw [hv]
    exact Frame.since_user (hT.next hn).1
  rw [hs.frame_of_ne hp hrun]
  refine (h.since j hp).mono (hs.signals_le hT) ?_
  intro cv l u n _ hwait hcv hk hn
  rcases hs.moves hp hrun with ⟨_, he⟩ | ⟨hrun', _⟩
  · refine .inl ⟨he.trans hwait, ?_⟩
    rcases hs.kind_kept hok hk with hk' | ⟨he, _⟩ | ⟨he, _⟩
    · exact hk'
    · cases he
    · cases he
  · -- it has been woken, which only a signal does
    right
    obtain ⟨i, b, fr, r, hi, hact, hr, _, he⟩ := hs.woken hwait hrun'
    have hpi := place_running hi
    have hsince := h.since i (by simp [hpi])
    rw [hpi] at hsince
    rw [he]
    cases hact.cvMove hT hi (ho.wants i (by simp [hpi])) hsince with
    | wait hc hf hu hcv' hk' =>
      rcases hr with he | he <;> cases he
      cases hk.symm.trans hk'
    | sleep => rcases hr with he | he <;> cases he
    | signal hf hu hsig hpend =>
      rcases hr with he | he <;> cases he
      change n < x.signals b.g cv
      rw [hsig, Function.update_self]
      omega
    | other hf hfr hs' hkept ht =>
      exact absurd (hr.elim (fun h => .inr (.inl h)) fun h => .inr (.inr h)) (ht cv hcv hk)

/-- A step that does not touch the condition variables: their queues and records stay, and the
acting thread is not between release and sleep. -/
theorem quiet (hT : P.Tracks x) (ho : Owners x.held a) (hok : a.Ok) (h : CvWaits x a)
    (hs : AStep P a lab a')
    (hrun : ∀ i, a.sched.running = some i → (a.frame i).enters = none)
    (henter : ∀ i, a.sched.running = some i → a'.sched.place i ≠ .nowhere →
      (a'.frame i).enters = none)
    (hown : ∀ i, a.sched.running = some i → a'.sched.place i ≠ .nowhere →
      (a'.frame i).Since x a'.kind a'.g (a'.sched.place i))
    (hwait : ∀ cv, x.cvs cv → a.kind cv = some .plain →
      a'.sched.waiting cv = a.sched.waiting cv)
    (hnew : ∀ cv, a'.kind cv = some .plain → a.kind cv ≠ some .plain → a'.sched.waiting cv = [])
    (hpend : x.pending a'.g = x.pending a.g) : CvWaits x a' := by
  have hentering : ∀ cv, a.entering cv = [] := by
    intro cv
    exact entering_eq_nil fun i hi => by simp [hrun i hi]
  have hnobody := h.nobody_enters hs henter
  refine ⟨?_, ?_, fun j hj hne => absurd (hnobody j hj) hne, ?_,
    fun j => h.since_step hT ho hok hs hown⟩
  · intro cv hk
    rw [hpend]
    refine h.fresh cv fun hk' => ?_
    rcases hs.kind_kept hok hk' with hk' | ⟨he, _⟩ | ⟨he, _⟩
    · exact hk hk'
    · cases he
    · cases he
  · intro cv hcv hk
    rw [hpend, nobody_entering hnobody]
    by_cases hk' : a.kind cv = some .plain
    · rw [h.queue cv hcv hk', hentering, hwait cv hcv hk']
    · rw [h.fresh cv hk', hnew cv hk hk']
      rfl
  · intro cv j hcv hk hj
    by_cases hk' : a.kind cv = some .plain
    · rw [hwait cv hcv hk'] at hj
      have hpj := place_waiting hj
      obtain ⟨l, u, hf⟩ := h.asleep cv j hcv hk' hj
      refine ⟨l, u, (hs.frame_of_ne (by simp [hpj]) ?_).trans hf⟩
      intro hrun'
      cases (place_running hrun').symm.trans hpj
    · rw [hnew cv hk hk'] at hj
      cases hj

/-- **The wait begins.** Nobody waits for the lock, so the caller keeps the processor. -/
theorem act_wait (hT : P.Tracks x) (ho : Owners x.held a) (hok : a.Ok) (h : CvWaits x a)
    {lk : Addr} {u : U} {b : AMach U G} {sched : Sched Addr} (hi : a.sched.running = some i)
    (hact : Act P a i lab b (.cvSleep cv lk u) (.wakeup lk))
    (hstep : Step a.sched i (.wakeup lk) sched)
    (hf : (a.frame i).enters = none) (hu : x.since u = some (cv, lk, x.signals a.g cv))
    (hcv : x.cvs cv) (hk : a.kind cv = some .plain) (hsig : x.signals b.g = x.signals a.g)
    (hp : x.pending b.g = Function.update (x.pending a.g) cv (x.pending a.g cv ++ [i]))
    (hlk : a.sched.waiting lk = []) (hready : a.sched.ready ≠ []) :
    CvWaits x { b with sched := sched, frame := Function.update a.frame i (.cvSleep cv lk u) } := by
  have hs := AStep.act hi hact hstep
  obtain rfl : sched = a.sched := by
    cases hstep with
    | wakeupNone => rfl
    | wakeup hw => cases hlk.symm.trans hw
  have hkind : b.kind = a.kind := hact.data.2.2.1
  have hbefore : ∀ c, a.entering c = [] := by
    intro c
    apply entering_eq_nil
    rintro j hj
    obtain rfl := Option.some.inj (hi.symm.trans hj)
    simp [hf]
  refine ⟨?_, ?_, ?_, ?_, fun j => h.since_step hT ho hok hs ?_⟩
  · intro c hc
    have hne : c ≠ cv := by
      rintro rfl
      exact hc (hkind ▸ hk)
    change x.pending b.g c = []
    rw [hp, Function.update_of_ne hne]
    exact h.fresh c (hkind ▸ hc)
  · intro c hc hkc
    change x.pending b.g c = a.sched.waiting c ++ _
    by_cases he : c = cv
    · subst he
      rw [hp, Function.update_self, h.queue c hc hk, hbefore, List.append_nil]
      refine congrArg (a.sched.waiting c ++ ·) (Eq.symm (entering_eq (i := i) ?_ ?_))
      · exact hi
      · simp [Frame.enters]
    · rw [hp, Function.update_of_ne he, h.queue c hc (hkind ▸ hkc), hbefore, entering_eq_nil]
      intro j hj
      obtain rfl := Option.some.inj (hi.symm.trans hj)
      simpa [Frame.enters] using Ne.symm he
  · intro j hj hent
    refine ⟨?_, hready⟩
    by_cases hji : j = i
    · exact hji ▸ hi
    · change (Function.update a.frame i _ j).enters ≠ none at hent
      rw [Function.update_of_ne hji] at hent
      exact (h.entering j hj hent).1
  · intro c j hc hkc hj
    change j ∈ a.sched.waiting c at hj
    have hji : j ≠ i := ne_running_of_place hi (place_waiting hj) (by simp)
    obtain ⟨l, w, hw⟩ := h.asleep c j hc (hkind ▸ hkc) hj
    exact ⟨l, w, (Function.update_of_ne hji ..).trans hw⟩
  · intro j hj _
    obtain rfl := Option.some.inj (hi.symm.trans hj)
    simp only [Function.update_self]
    exact ⟨_, hu, (congrFun hsig cv).ge, hcv⟩

/-- **The sleep.** Somebody is ready, so the caller gets into the queue. -/
theorem act_sleep (hT : P.Tracks x) (ho : Owners x.held a) (hok : a.Ok) (h : CvWaits x a)
    {lk : Addr} {u : U} {sched : Sched Addr} (hi : a.sched.running = some i)
    (hf : a.frame i = .cvSleep cv lk u)
    (hact : Act P a i lab a (.cvAcquire cv lk u) (.sleep cv))
    (hstep : Step a.sched i (.sleep cv) sched) (hk : a.kind cv = some .plain) :
    CvWaits x { a with
      sched := sched, frame := Function.update a.frame i (.cvAcquire cv lk u) } := by
  have hs := AStep.act hi hact hstep
  have hpi := place_running hi
  have hent : (a.frame i).enters = some cv := by
    rw [hf]
    rfl
  have hready := (h.entering i (by simp [hpi]) (by simp [hent])).2
  obtain ⟨n, hu, hn, hcv⟩ : ∃ n, x.since u = some (cv, lk, n) ∧ n ≤ x.signals a.g cv ∧
      x.cvs cv := by
    have hsince := h.since i (by simp [hpi])
    rwa [hf] at hsince
  cases hstep with
  | sleepNone hr => exact absurd hr hready
  | sleep hprim hr hb =>
    rename_i j tl
    have hij : i ≠ j :=
      (ne_running_of_place hi (place_ready (hr ▸ List.mem_cons_self)) (by simp)).symm
    have hplace : sched.place i = .waiting cv := by
      rw [hb.place, Function.update_of_ne hij, Function.update_self]
    have hnobody := h.nobody_enters hs (by
      intro k hk' _
      obtain rfl := Option.some.inj (hi.symm.trans hk')
      simp [Frame.enters])
    refine ⟨h.fresh, ?_, fun k hk' hne => absurd (hnobody k hk') hne, ?_,
      fun k => h.since_step hT ho hok hs ?_⟩
    · intro c hc hkc
      rw [nobody_entering hnobody, List.append_nil]
      change x.pending a.g c = sched.waiting c
      rw [hb.waiting, h.queue c hc hkc]
      by_cases he : c = cv
      · rw [he, Function.update_self, entering_eq hi hent]
      · rw [Function.update_of_ne he, entering_eq_nil, List.append_nil]
        intro k hk'
        obtain rfl := Option.some.inj (hi.symm.trans hk')
        rw [hent]
        exact fun hc => he (Option.some.inj hc).symm
    · intro c k hc hkc hmem
      change k ∈ sched.waiting c at hmem
      rw [hb.waiting] at hmem
      by_cases hki : k = i
      · subst hki
        have hcc : sched.place k = .waiting c := place_waiting (hb.waiting ▸ hmem)
        obtain rfl := Place.waiting.inj (hplace.symm.trans hcc)
        exact ⟨lk, u, Function.update_self ..⟩
      · have hold : k ∈ a.sched.waiting c := by
          by_cases he : c = cv
          · subst he
            rw [Function.update_self, List.mem_append] at hmem
            exact hmem.resolve_right fun hk' => hki (List.mem_singleton.mp hk')
          · rwa [Function.update_of_ne he] at hmem
        obtain ⟨l, w, hw⟩ := h.asleep c k hc hkc hold
        exact ⟨l, w, (Function.update_of_ne hki ..).trans hw⟩
    · intro k hk' _
      obtain rfl := Option.some.inj (hi.symm.trans hk')
      simp only [Function.update_self]
      exact ⟨n, hu, hn, .inl ⟨hplace, hcv, hk⟩⟩

/-- **The signal.** The head of the queue leaves it, on both sides: the recorded queue loses its
head and the library wakes the thread that waits longest. -/
theorem act_signal (hT : P.Tracks x) (ho : Owners x.held a) (hok : a.Ok) (h : CvWaits x a)
    {u : U} {b : AMach U G} {sched : Sched Addr} (hi : a.sched.running = some i)
    (hact : Act P a i lab b (.user u) (.wakeup cv)) (hstep : Step a.sched i (.wakeup cv) sched)
    (hf : (a.frame i).enters = none) (hu : x.since u = none)
    (hp : x.pending b.g = Function.update (x.pending a.g) cv (x.pending a.g cv).tail) :
    CvWaits x { b with sched := sched, frame := Function.update a.frame i (.user u) } := by
  have hs := AStep.act hi hact hstep
  have hkind : b.kind = a.kind := hact.data.2.2.1
  have hwait : sched.waiting = Function.update a.sched.waiting cv (a.sched.waiting cv).tail := by
    cases hstep with
    | wakeupNone hw => rw [hw, List.tail_nil, ← hw, Function.update_eq_self]
    | wakeup hw hb => rw [hb.waiting, hw, List.tail_cons]
  have hbefore : ∀ c, a.entering c = [] := by
    intro c
    apply entering_eq_nil
    rintro j hj
    obtain rfl := Option.some.inj (hi.symm.trans hj)
    simp [hf]
  have hnobody := h.nobody_enters hs (by
    intro k hk' _
    obtain rfl := Option.some.inj (hi.symm.trans hk')
    simp [Frame.enters])
  refine ⟨?_, ?_, fun k hk' hne => absurd (hnobody k hk') hne, ?_,
    fun k => h.since_step hT ho hok hs ?_⟩
  · intro c hc
    change x.pending b.g c = []
    have hnil := h.fresh c (hkind ▸ hc)
    rw [hp]
    by_cases he : c = cv
    · rw [← he, Function.update_self, hnil, List.tail_nil]
    · rw [Function.update_of_ne he, hnil]
  · intro c hc hkc
    rw [nobody_entering hnobody, List.append_nil]
    change x.pending b.g c = sched.waiting c
    have hq := h.queue c hc (hkind ▸ hkc)
    rw [hbefore, List.append_nil] at hq
    rw [hp, hwait]
    by_cases he : c = cv
    · rw [← he, Function.update_self, Function.update_self, hq]
    · rw [Function.update_of_ne he, Function.update_of_ne he, hq]
  · intro c k hc hkc hmem
    change k ∈ sched.waiting c at hmem
    have hold : k ∈ a.sched.waiting c := by
      rw [hwait] at hmem
      by_cases he : c = cv
      · rw [he, Function.update_self] at hmem
        exact he ▸ List.mem_of_mem_tail hmem
      · rwa [Function.update_of_ne he] at hmem
    have hki : k ≠ i := ne_running_of_place hi (place_waiting hold) (by simp)
    obtain ⟨l, w, hw⟩ := h.asleep c k hc (hkind ▸ hkc) hold
    exact ⟨l, w, (Function.update_of_ne hki ..).trans hw⟩
  · intro k hk' _
    obtain rfl := Option.some.inj (hi.symm.trans hk')
    simp only [Function.update_self]
    exact Frame.since_user hu

/-- **Every action keeps the invariant**, if at a wait nobody waits for the lock and somebody is
ready. -/
theorem act (hL : P.Leaves .locks) (hT : P.Tracks x) (hok : a.Ok) (hw : Waiters .locks a)
    (ho : Owners x.held a) (h : CvWaits x a)
    (hcare : ∀ cv lk, a.Calls P lab (.cvWait cv lk) →
      a.sched.waiting lk = [] ∧ a.sched.ready ≠ [])
    {b : AMach U G} {fr : Frame U} {r : Req Addr} {sched : Sched Addr}
    (hi : a.sched.running = some i) (hact : Act P a i lab b fr r)
    (hstep : Step a.sched i r sched) :
    CvWaits x { b with sched := sched, frame := Function.update a.frame i fr } := by
  have hpi := place_running hi
  have hsince := h.since i (by simp [hpi])
  rw [hpi] at hsince
  cases hact.cvMove hT hi (ho.wants i (by simp [hpi])) hsince with
  | wait hc hf hu hcv hk hsig hp =>
    obtain ⟨hlk, hready⟩ := hcare _ _ hc
    obtain ⟨_, _, _, _, _, _, _, _, _, hn⟩ := hc
    exact h.act_wait hT ho hok hi hact hstep hf hu hcv (hL hn) hsig hp hlk hready
  | sleep hf => exact h.act_sleep hT ho hok hi hf hact hstep (hw.cv i _ _ _ (by simp [hpi]) hf)
  | signal hf hu hsig hp => exact h.act_signal hT ho hok hi hact hstep hf hu hp
  | other hf hfr hsn hkept hr =>
    have hkind : b.kind = a.kind := hact.data.2.2.1
    refine h.quiet hT ho hok (.act hi hact hstep) ?_ ?_ ?_ ?_ ?_ hkept.2
    · intro k hk
      obtain rfl := Option.some.inj (hi.symm.trans hk)
      exact hf
    · intro k hk _
      obtain rfl := Option.some.inj (hi.symm.trans hk)
      simpa using hfr
    · intro k hk _
      obtain rfl := Option.some.inj (hi.symm.trans hk)
      simp only [Function.update_self, hkind]
      exact hsn _
    · exact fun c hc hk => hstep.waiting_of_not_touches (hr c hc hk)
    · exact fun c hk hk' => absurd (hkind ▸ hk) hk'

/-- **A call that returns to user code at once** and is not recorded: it may make a thread or a
primitive, or destroy one that is no condition variable. -/
theorem back (hT : P.Tracks x) (ho : Owners x.held a) (hok : a.Ok) (h : CvWaits x a)
    (hs : AStep P a lab a') {u u' : U} (hi : a.sched.running = some i)
    (hf : a.frame i = .user u) (hf' : a'.frame i = .user u') (hu : x.since u' = none)
    (hwait : ∀ cv, x.cvs cv → a.kind cv = some .plain →
      a'.sched.waiting cv = a.sched.waiting cv)
    (hnew : ∀ cv, a'.kind cv = some .plain → a.kind cv ≠ some .plain → a'.sched.waiting cv = [])
    (hpend : x.pending a'.g = x.pending a.g) : CvWaits x a' := by
  refine h.quiet hT ho hok hs ?_ ?_ ?_ hwait hnew hpend
  · intro k hk
    obtain rfl := Option.some.inj (hi.symm.trans hk)
    rw [hf]
    rfl
  · intro k hk _
    obtain rfl := Option.some.inj (hi.symm.trans hk)
    rw [hf']
    rfl
  · intro k hk _
    obtain rfl := Option.some.inj (hi.symm.trans hk)
    rw [hf']
    exact Frame.since_user hu

/-- **Every step keeps the invariant**, if at every wait nobody waits for the lock and somebody is
ready. -/
theorem step (hL : P.Leaves .locks) (hT : P.Tracks x) (hok : a.Ok) (hw : Waiters .locks a)
    (ho : Owners x.held a) (h : CvWaits x a)
    (hcare : ∀ cv lk, a.Calls P lab (.cvWait cv lk) →
      a.sched.waiting lk = [] ∧ a.sched.ready ≠ [])
    (hs : AStep P a lab a') : CvWaits x a' := by
  have hs' := hs
  cases hs with
  | act hi hact hstep => exact h.act hL hT hok hw ho hcare hi hact hstep
  | exit hi hf hn hstep =>
    rename_i sched
    have hgone : ∀ k, a.sched.running = some k → sched.place k = .nowhere := by
      intro k hk
      obtain rfl := Option.some.inj (hi.symm.trans hk)
      exact (hstep.self hi).1.mpr rfl
    refine h.quiet hT ho hok hs' ?_ (fun k hk hp => absurd (hgone k hk) hp)
      (fun k hk hp => absurd (hgone k hk) hp) ?_ (fun c hk hk' => absurd hk hk')
      (hT.next hn).1.2
    · intro k hk
      obtain rfl := Option.some.inj (hi.symm.trans hk)
      rw [hf]
      rfl
    · refine fun c hc hk => hstep.waiting_of_not_touches ?_
      rintro (he | he | he) <;> cases he
  | create hi hf hn hid h0 hnew hprims hrun hready hwait hplace hsl =>
    rename_i i u v act al ret g id sched
    obtain ⟨_, hkept, hret⟩ := hT.next hn
    have hii : i ≠ id := by
      rintro rfl
      cases (place_running hi).symm.trans (hid ▸ place_newId)
    have hf' : Function.update (Function.update a.frame i (.user (ret (some id)))) id (.user v) i =
        .user (ret (some id)) := by
      simp [Function.update_of_ne hii]
    exact h.back hT ho hok hs' hi hf hf' (hret (some id)) (fun c _ _ => congrFun hwait c)
      (fun c hk hk' => absurd hk hk') hkept.2
  | notCreated hi hf hn hsched hused =>
    obtain ⟨_, hkept, hret⟩ := hT.next hn
    refine h.back hT ho hok hs' hi hf (Function.update_self ..) (hret (some 0)) ?_
      (fun c hk hk' => absurd hk hk') hkept.2
    rcases hsched with rfl | rfl <;> exact fun _ _ _ => rfl
  | primMade hi hf hn hc hal hp =>
    rename_i i u act al c ret g k p
    obtain ⟨hkept, hret⟩ := (hT.next hn).makes hc
    refine h.back hT ho hok hs' hi hf (Function.update_self ..) (hret (some p))
      (fun _ _ _ => rfl) ?_ hkept.2
    intro q hk hk'
    have hqp : q = p := by
      by_contra hne
      exact hk' ((Function.update_of_ne hne (some k) a.kind).symm.trans hk)
    change a.sched.waiting q = []
    exact waiting_eq_nil (hqp ▸ hp)
  | primGone hi hf hn hc hq =>
    rename_i i u act al c ret g p
    obtain ⟨hkept, hret⟩ : x.Kept a.g g ∧ ∀ r, x.since (ret r) = none := by
      have hc' := hT.next hn
      rcases hc with ⟨rfl, _⟩ | ⟨rfl, _⟩ <;> exact hc'
    refine h.back hT ho hok hs' hi hf (Function.update_self ..) (hret none)
      (fun _ _ _ => rfl) ?_ hkept.2
    intro q hk hk'
    have hqp : q ≠ p := by
      rintro rfl
      cases (Function.update_self q none a.kind).symm.trans hk
    exact absurd ((Function.update_of_ne hqp none a.kind).symm.trans hk) hk'
  | env he =>
    obtain ⟨hsig, hpend⟩ := hT.env he
    refine ⟨fun c hk => ?_, fun c hc hk => ?_, h.entering, h.asleep, fun j hj => ?_⟩
    · exact (congrFun hpend c).trans (h.fresh c hk)
    · exact (congrFun hpend c).trans (h.queue c hc hk)
    · refine (h.since j hj).mono (fun p => (congrFun hsig p).ge) ?_
      exact fun cv l u n _ hp _ hk _ => .inl ⟨hp, hk⟩

theorem init (hT : P.Tracks x) (h : a.Init P) : CvWaits x a := by
  have hzero : ∀ {j}, a.sched.place j ≠ .nowhere → a.frame j = .user P.main := by
    intro j hj
    have h0 : j = 0 := by
      by_contra hne
      exact hj (h.place j hne)
    rw [h0, h.frame]
  refine ⟨fun cv _ => hT.init h.g cv, ?_, ?_, ?_, ?_⟩
  · intro cv _ hk
    cases (h.kind cv).symm.trans hk
  · intro j hj hent
    rw [hzero hj] at hent
    exact absurd rfl hent
  · intro cv j _ hk
    cases (h.kind cv).symm.trans hk
  · intro j hj
    rw [hzero hj]
    exact Frame.since_user hT.main

theorem reach (hL : P.Leaves .locks) (hB : P.Balanced x.held) (hT : P.Tracks x)
    (h : Reach (P.aruns.guard fun a lab => ∀ cv lk, a.Calls P lab (.cvWait cv lk) →
      a.sched.waiting lk = [] ∧ a.sched.ready ≠ []) a) : CvWaits x a := by
  refine Reach.invariant (T := P.aruns.guard _) (P := CvWaits x) (fun _ h₀ => .init hT h₀) ?_ h
  intro a lab a' hr h hs
  have hr' := hr.of_guard
  exact h.step hL hT hr'.ok (.reach hL hr') (.reach hB (hL.guard_relAcq hr')) hs.1 hs.2

end CvWaits

end Steps

/-! ## The law and its failure -/

/-- The lock that a wait releases. -/
def Call.waitLock : Call U → Option Addr
  | .cvWait _ lk => some lk
  | _ => none

/-- When the step calls `thread_cv_wait`, nobody waits for the lock and some thread is ready. This
is what makes the wait atomic. -/
def CvReady (P : Program U G A E) (m : Mach U G) (lab : Label A E) : Prop :=
  ∀ lk ∈ (m.callOf P lab).bind Call.waitLock, m.st.waitingIds lk = [] ∧ m.st.readyNum ≠ 0

instance (P : Program U G A E) (m : Mach U G) (lab : Label A E) : Decidable (CvReady P m lab) :=
  inferInstanceAs (Decidable (∀ lk ∈ (m.callOf P lab).bind Call.waitLock,
    m.st.waitingIds lk = [] ∧ m.st.readyNum ≠ 0))

/-- **The law of condition variables**: a signal releases the thread that waits longest, and whoever
is back from a wait has been signalled and has the lock. -/
structure CvLaw (P : Program U G A E) (x : CvAux U G) (m : Mach U G) : Prop where
  /-- outside the two calls that begin a wait, the queue holds the threads that have begun to
  wait and have not been signalled -/
  asleep : ∀ cv, x.cvs cv → m.st.kind cv = some .plain → m.cpu.enters ≠ some cv →
    m.st.waitingIds cv = x.pending m.g cv
  /-- a signal releases the first of them, and no other -/
  signal : ∀ lab cv j tl m', m.Calls P lab (.cvSignal cv) → x.cvs cv →
    x.pending m.g cv = j :: tl → m.step P lab = .ok m' →
    m'.st.coCurrentId = j ∧ (∃ l u, m'.cpu = .cvAcquire cv l u) ∧
      m'.st.waitingIds cv = tl ∧ x.pending m'.g cv = tl
  /-- a thread that is back from a wait has been signalled since, and holds the lock -/
  returned : ∀ j u cv l n, m.Live j → m.frameOf j = some (.user u) →
    x.since u = some (cv, l, n) →
    n < x.signals m.g cv ∧ m.st.held l = 1 ∧ m.st.helder l = j

section Law

variable {P : Program U G A E} {main idle : U → Prop} {x : CvAux U G}
  {m m' : Mach U G} {a : AMach U G} {lab : Label A E}

/-- A careful wait of the machine is one of the abstract machine, since the queues are the same. -/
theorem CvReady.abstract (h : Sim P False m a) (hr : CvReady P m lab) (cv lk : Addr)
    (hc : a.Calls P lab (.cvWait cv lk)) : a.sched.waiting lk = [] ∧ a.sched.ready ≠ [] := by
  have hlk : lk ∈ (m.callOf P lab).bind Call.waitLock := by
    rw [Mach.calls_iff.mp (h.calls hc)]
    rfl
  obtain ⟨hw, hn⟩ := hr lk hlk
  refine ⟨?_, fun he => hn (h.repr.readyNum_eq_zero.mpr he)⟩
  by_cases hp : lk ∈ a.sched.prims
  · rw [← h.repr.waitingIds hp]
    exact hw
  · exact waiting_eq_nil hp

theorem Sim.entering (h : Sim P False m a) {cv : Addr} (hcpu : m.cpu.enters ≠ some cv) :
    a.entering cv = [] := by
  apply entering_eq_nil
  intro i hi
  rwa [← h.cpu i hi]

/-- **The signal**, on the machine: the thread at the head of the recorded queue runs, and is about
to take its lock again. -/
theorem Sim.cvSignal (hT : P.Tracks x) (h : Sim P False m a) (hx : CvWaits x a) {cv : Addr}
    (hcv : x.cvs cv) {j : ℕ} {tl : List ℕ} (hc : m.Calls P lab (.cvSignal cv))
    (hp : x.pending m.g cv = j :: tl) (he : m.step P lab = .ok m') :
    m'.st.coCurrentId = j ∧ (∃ l u, m'.cpu = .cvAcquire cv l u) ∧
      m'.st.waitingIds cv = tl ∧ x.pending m'.g cv = tl := by
  obtain ⟨i, hi⟩ := h.running_of_calls hc
  obtain ⟨act, al, u, ret, g, rfl, hcpu, hn⟩ := hc
  obtain ⟨-, hpend, -⟩ := hT.next hn
  rw [Mach.step_call hcpu hn] at he
  obtain ⟨s', tr, hs, hm⟩ := Mach.finish_eq_ok he
  rw [h.g] at hp
  have hk : a.kind cv = some .plain := by
    by_contra hne
    cases (hx.fresh cv hne).symm.trans hp
  have hq : a.sched.waiting cv = j :: tl := by
    rw [← hp, hx.queue cv hcv hk, h.entering (by simp [hcpu, Frame.enters]), List.append_nil]
  obtain ⟨hco, hcpu', hwait, hg⟩ := (h.setG g).wakes hi hq hs (.user (ret none)) hm
  obtain ⟨l, w, hw⟩ := hx.asleep cv j hcv hk (hq ▸ List.mem_cons_self)
  refine ⟨hco, ⟨l, w, hcpu'.trans hw⟩, hwait, ?_⟩
  rw [hg, hpend, Function.update_self, h.g, hp, List.tail_cons]

/-- **Condition variables are correct** in every run in which, at every call of `thread_cv_wait`,
nobody waits for the lock and some thread is ready. Then the lock is given back and the thread
sleeps before anybody else runs. -/
theorem cv_law (hP : P.Handover main idle) (hL : P.Leaves .locks) (hB : P.Balanced x.held)
    (hT : P.Tracks x)
    (hm : Reach (P.runs.guard fun m lab => ResumesReady P m lab ∧ CvReady P m lab) m) :
    CvLaw P x m := by
  have hsim : Simulation (P.runs.guard fun m lab => ResumesReady P m lab ∧ CvReady P m lab)
      (P.aruns.guard fun a lab => ∀ cv lk, a.Calls P lab (.cvWait cv lk) →
        a.sched.waiting lk = [] ∧ a.sched.ready ≠ []) (Sim P False) := by
    apply hP.simulation
    · exact fun m hm => hm
    · intro m lab m' a _ h hs
      exact ⟨hs.2, hs.1.1, hs.1.2.abstract h⟩
  obtain ⟨a, ha, h⟩ := hsim.reach hm
  have hok := ha.of_guard.ok
  have hx := CvWaits.reach hL hB hT ha
  have ho := Owners.reach hB (hL.guard_relAcq ha.of_guard)
  refine ⟨?_, fun lab cv j tl m' hc hcv => h.cvSignal hT hx hcv hc, ?_⟩
  · intro cv hcv hk hcpu
    obtain ⟨link, c⟩ := h.repr.core
    rw [h.repr.waitingIds ((c.prims cv).mpr (by simp [hk])), h.g, hx.queue cv hcv (h.kind ▸ hk),
      h.entering hcpu, List.append_nil]
  · intro j u cv l n hj hf hu
    obtain ⟨h0, hp⟩ := (h.live_iff hok).mp hj
    have hfr : a.frame j = .user u := Option.some.inj ((h.frameOf h0 hp).symm.trans hf)
    have hs := hx.since j hp
    rw [hfr] at hs
    obtain ⟨hn, hl⟩ := hs cv l n hu
    rw [h.g]
    exact ⟨hn, h.holder hok ho ⟨hj, .user u, hf, hl⟩⟩

end Law

/-! ## Scripts that record -/

/-- The recorded data of a script: for each primitive the number of signals and the queue. -/
structure CvLog : Type where
  signals : Addr → ℕ
  pending : Addr → List ℕ

/-- Record a call of thread `tid`. -/
def Call.record (tid : ℕ) (g : CvLog) : Call U → CvLog
  | .cvWait cv _ => { g with
      pending := Function.update g.pending cv (g.pending cv ++ [tid]) }
  | .cvSignal cv => {
      signals := Function.update g.signals cv (g.signals cv + 1)
      pending := Function.update g.pending cv (g.pending cv).tail }
  | _ => g

/-- What a thread remembers of the call behind it, if that was a wait. -/
def Call.remember (g : CvLog) : Call U → Option (Addr × Addr × ℕ)
  | .cvWait cv l => some (cv, l, g.signals cv)
  | _ => none

/-- The call works on the queue of a plain primitive directly. The monitor lets no such call
through. -/
def Call.isRaw : Call U → Bool
  | .sleep _ => true
  | .wakeup _ => true
  | .wakeupWait _ => true
  | _ => false

/-- A thread under the monitor, with what it remembers of its last call. -/
structure CvTask : Type where
  task : Task
  since : Option (Addr × Addr × ℕ)

namespace CvTask

/-- A thread that begins. -/
def new (s : Script) : CvTask := ⟨.new s, none⟩

/-- The script `main` under the monitor. All plain primitives serve as condition variables. -/
def program (main : Script) : Program CvTask CvLog Unit Unit where
  main := new main
  init g := g = ⟨fun _ => 0, fun _ => []⟩
  next _ v u g :=
    match u.task.rest with
    | .done => none
    | .call c rest =>
      if c.isRaw then none
      else (c.after false v.kind u.task.held).map fun hs =>
        (c.map new, fun _ => ⟨⟨hs, rest⟩, c.remember g⟩, c.record v.tid g)
  env _ _ := none

/-- The records of a script. -/
def aux : CvAux CvTask CvLog where
  held u := u.task.held
  cvs _ := True
  signals := CvLog.signals
  pending := CvLog.pending
  since := CvTask.since

variable {main : Script}

/-- What the monitor has let through: the next call of the script, which is not raw, with the
records brought up to date. -/
theorem next_eq_some {act : Unit} {v : View} {u : CvTask} {g g' : CvLog} {c : Call CvTask}
    {ret : Option ℕ → CvTask} (h : (program main).next act v u g = some (c, ret, g')) :
    ∃ d rest hs, u.task.rest = .call d rest ∧ d.isRaw = false ∧
      d.after false v.kind u.task.held = some hs ∧ c = d.map new ∧
      ret = (fun _ => ⟨⟨hs, rest⟩, d.remember g⟩) ∧ g' = d.record v.tid g := by
  simp only [program] at h
  split at h
  · cases h
  · rename_i d rest hr
    split at h
    · cases h
    · rename_i hraw
      obtain ⟨hs, hd, he⟩ := Option.map_eq_some_iff.mp h
      obtain ⟨h₁, h₂⟩ := Prod.mk.inj he
      obtain ⟨h₃, h₄⟩ := Prod.mk.inj h₂
      exact ⟨d, rest, hs, hr, Bool.eq_false_iff.mpr hraw, hd, h₁.symm, h₃.symm, h₄.symm⟩

theorem balanced : (program main).Balanced aux.held := by
  refine ⟨rfl, fun {act v u g c ret g'} h => ?_⟩
  obtain ⟨d, rest, hs, -, -, hd, rfl, rfl, -⟩ := next_eq_some h
  exact Call.balanced_of_after (fun _ => rfl) (fun _ => rfl) hd

theorem leaves (W : Watch) : (program main).Leaves W := by
  intro act v u g c ret g' h
  obtain ⟨d, rest, hs, -, -, hd, rfl, -, -⟩ := next_eq_some h
  exact (Call.leaves_of_after W hd).resolve_right nofun

theorem handover (h : main.HandsOver) :
    (program main).Handover (·.task.rest.HandsOver) (·.task.rest = .done) := by
  refine ⟨h, fun {act v u g c ret g'} hu hn => ?_, fun {act v u g} hu => by simp only [program, hu]⟩
  obtain ⟨d, rest, hs, hr, -, -, rfl, rfl, -⟩ := next_eq_some hn
  rw [hr] at hu
  rcases hu.call (f := new) with ⟨hd, hrest⟩ | ⟨hd, hrest⟩
  · exact .inl ⟨hd, fun _ => hrest⟩
  · exact .inr ⟨hd, hrest⟩

theorem tracks : (program main).Tracks aux := by
  refine ⟨rfl, ?_, ?_, nofun⟩
  · rintro g rfl p
    rfl
  · intro act v u g c ret g' h
    obtain ⟨d, rest, hs, -, hraw, -, rfl, rfl, rfl⟩ := next_eq_some h
    have hkept : aux.Kept g g := ⟨rfl, rfl⟩
    cases d
    case cvWait cv l => exact ⟨trivial, rfl, rfl, rfl⟩
    case cvSignal cv => exact ⟨rfl, rfl, fun _ => rfl⟩
    case create s => exact ⟨rfl, hkept, fun _ => rfl⟩
    all_goals first | exact ⟨hkept, fun _ => rfl⟩ | cases hraw

/-- The machine on which the script starts. -/
def boot (main : Script) : Mach CvTask CvLog :=
  Mach.boot (program main) State.zero 0 0 ⟨fun _ => 0, fun _ => []⟩

theorem boot_init : (program main).runs.init (boot main) :=
  ⟨State.zero, 0, 0, _, State.zero_blank, rfl, rfl⟩

/-- What thread `j` remembers, if it is in user code. -/
def sinceOf (m : Mach CvTask CvLog) (j : ℕ) : Option (Addr × Addr × ℕ) :=
  match m.frameOf j with
  | some (.user u) => u.since
  | _ => none

theorem sinceOf_eq_some {m : Mach CvTask CvLog} {j : ℕ} {r : Addr × Addr × ℕ}
    (h : sinceOf m j = some r) : ∃ u, m.frameOf j = some (.user u) ∧ aux.since u = some r := by
  unfold sinceOf at h
  split at h
  · exact ⟨_, by assumption, h⟩
  · cases h

end CvTask

/-- Thread 1 waits for thread 2, which takes the lock, signals and releases it. -/
def Script.waiting : Script :=
  .call .lockCreate <|
  .call .primInit <|
  .call (.create (.call (.acquire 5) <| .call (.cvWait 6 5) <| .call (.release 5) .done)) <|
  .call (.create (.call (.acquire 5) <| .call (.cvSignal 6) <| .call (.release 5) .done)) <|
  .call (.resume 1) .done

/-- Thread 1 is back and has the lock. -/
theorem cv_law_waiting : ∃ m : Mach CvTask CvLog,
    (CvTask.sinceOf m 1 = some (6, 5, 0) ∧ m.g.signals 6 = 1 ∧ m.st.helder 5 = 1) ∧
      CvLaw (CvTask.program Script.waiting) CvTask.aux m := by
  obtain ⟨m, hm, hq⟩ := Mach.exists_of_reaches
    (T := (CvTask.program Script.waiting).runs.guard fun m lab =>
      ResumesReady _ m lab ∧ CvReady (CvTask.program Script.waiting) m lab)
    (fun m lab => ResumesReady (CvTask.program Script.waiting) m lab ∧
      CvReady (CvTask.program Script.waiting) m lab)
    (fun _ _ _ hok hs => ⟨hok, hs⟩) (.init CvTask.boot_init)
    [.go 5, .go 6, .go 1, .go 2, .go 0, .go 0, .turn, .go 0, .turn, .go 0, .turn, .go 0, .turn,
      .turn, .go 0, .turn]
    (fun m => CvTask.sinceOf m 1 = some (6, 5, 0) ∧ m.g.signals 6 = 1 ∧ m.st.helder 5 = 1)
    (by decide)
  have hmain : Script.waiting.HandsOver := ⟨trivial, trivial, trivial, trivial, rfl⟩
  exact ⟨m, hq, cv_law (CvTask.handover hmain) (CvTask.leaves _) CvTask.balanced CvTask.tracks hm⟩

/-- Thread 1 waits, alone: there is nobody who could signal. -/
def Script.waitingAlone : Script :=
  .call .lockCreate <|
  .call .primInit <|
  .call (.create (.call (.acquire 5) <| .call (.cvWait 6 5) .done)) <|
  .call (.resume 1) .done

/-- Thread 2 is queued for the lock when thread 1 begins to wait. -/
def Script.waitingLate : Script :=
  .call .lockCreate <|
  .call .primInit <|
  .call (.create (.call (.acquire 5) <| .call .yield <| .call (.cvWait 6 5) .done)) <|
  .call (.create (.call (.acquire 5) <| .call (.cvSignal 6) <| .call (.release 5) <|
    .call .yield .done)) <|
  .call (.resume 1) .done

/-- **The wait is not atomic.** Alone, a thread comes back without a signal. With a thread that
waits for the lock, the signal comes between the release and the sleep: the waiter sleeps, though
it has been signalled. -/
theorem cv_wait_window :
    (∃ m, Reach ((CvTask.program Script.waitingAlone).runs.guard
        (ResumesReady (CvTask.program Script.waitingAlone))) m ∧
      m.g.signals 6 = 0 ∧ CvTask.sinceOf m 1 = some (6, 5, 0) ∧
      ¬ CvLaw (CvTask.program Script.waitingAlone) CvTask.aux m) ∧
    ∃ m, Reach ((CvTask.program Script.waitingLate).runs.guard
        (ResumesReady (CvTask.program Script.waitingLate))) m ∧
      m.g.signals 6 = 1 ∧ m.g.pending 6 = [] ∧ m.st.waitingIds 6 = [1] ∧
      ¬ CvLaw (CvTask.program Script.waitingLate) CvTask.aux m := by
  constructor
  · obtain ⟨m, hm, hl, hs, hq⟩ := Mach.exists_of_reaches
      (T := (CvTask.program Script.waitingAlone).runs.guard (ResumesReady _))
      (ResumesReady (CvTask.program Script.waitingAlone))
      (fun _ _ _ hok hs => ⟨hok, hs⟩) (.init CvTask.boot_init)
      [.go 5, .go 6, .go 1, .go 0, .go 0, .turn, .go 0, .turn, .turn, .turn]
      (fun m => ((1 ≠ 0 ∧ m.created 1 = true ∧ m.exited 1 = false) ∧ m.g.signals 6 = 0 ∧
        CvTask.sinceOf m 1 = some (6, 5, 0))) (by decide)
    refine ⟨m, hm, hs, hq, fun h => ?_⟩
    obtain ⟨u, hf, hu⟩ := CvTask.sinceOf_eq_some hq
    have hlt : 0 < m.g.signals 6 := (h.returned 1 u 6 5 0 hl hf hu).1
    omega
  · obtain ⟨m, hm, ⟨hk, hcpu⟩, hs, hp, hw⟩ := Mach.exists_of_reaches
      (T := (CvTask.program Script.waitingLate).runs.guard (ResumesReady _))
      (ResumesReady (CvTask.program Script.waitingLate))
      (fun _ _ _ hok hs => ⟨hok, hs⟩) (.init CvTask.boot_init)
      [.go 5, .go 6, .go 1, .go 2, .go 0, .go 0, .turn, .go 0, .go 0, .turn, .go 0, .turn, .go 0,
        .go 0, .go 0, .turn]
      (fun m => (m.st.kind 6 = some .plain ∧ m.cpu.enters ≠ some 6) ∧ m.g.signals 6 = 1 ∧
        m.g.pending 6 = [] ∧ m.st.waitingIds 6 = [1]) (by decide)
    refine ⟨m, hm, hs, hp, hw, fun h => ?_⟩
    have he : m.st.waitingIds 6 = m.g.pending 6 := h.asleep 6 trivial hk hcpu
    rw [hp, hw] at he
    cases he

end GreenLib
