import GreenLib.Effects
import GreenLib.Represent

/-!
# `thread_create`: capacity and failures

A history is any sequence of `thread_create` and `thread_exit`, with the `thread_resume` and
`thread_yield` calls that bring another thread to its exit, and with freed records that change
their contents. Every allocation of a `thread_create` may fail.

Ids are never reused, because `new_id` only grows, and a new link always enters the ready queue at
its tail: the queue ends in a null pointer (`ReadyLine`), so the searches of `extract_thread` stay
inside it. A failing allocation of the record, the context or the stack is reported and nothing the
scheduler reads has changed. Two things go wrong (`create_leaks_and_overruns`):

* the record is registered at `addrs[id]` before its link is allocated, so a failure of that
  allocation is reported with the record left behind;
* `new_id` is not compared with `MAX_CAPACITY`, so the call after the last slot writes behind
  `addrs`.

`create_bounded_atomic` says that nothing else can: it holds in the histories without these two.
-/

namespace GreenLib

open State

/-! ## Histories -/

/-- One call of a history: those that create and end threads, and those that pass control to a
thread that is to end. -/
inductive LifeCall : Type where
  | create (al : Alloc)
  | exit
  | resume (id : ℕ)
  | yield
  /-- a freed record changes its contents -/
  | scribble (t : Addr) (junk : State)

/-- The pool, and the ids that `thread_create` has returned so far. -/
structure History : Type where
  st : State
  returned : List ℕ

/-- Make one call. An id that is returned is noted, and a call that runs into a fault ends the
history. -/
def History.step (h : History) : LifeCall → Except Fault History
  | .create al => do
    let (s, id) ← h.st.threadCreate al
    .ok ⟨s, if id = 0 then h.returned else id :: h.returned⟩
  | .exit => do
    let (s, _) ← h.st.threadExit
    .ok { h with st := s }
  | .resume id => do
    let (s, _) ← h.st.threadResume id
    .ok { h with st := s }
  | .yield => do
    let (s, _) ← h.st.threadYield
    .ok { h with st := s }
  | .scribble t junk =>
    if h.st.threadLive t then .error .disabled else .ok { h with st := h.st.scribble t junk }

theorem History.step_create {h : History} {al : Alloc} {s : State} {id : ℕ}
    (he : h.st.threadCreate al = .ok (s, id)) :
    h.step (.create al) = .ok ⟨s, if id = 0 then h.returned else id :: h.returned⟩ := by
  rw [History.step, he]
  rfl

/-- The histories that begin with `thread_initial`, with every behaviour of the allocators. -/
def lifeRuns : Lts History LifeCall where
  init h := ∃ mem t link, Blank mem ∧ h = ⟨mem.threadInitial t link, []⟩
  step h c h' := h.step c = .ok h'

/-- A `thread_create` that gets as far as `addrs[id]` has a slot left and obtains its link. -/
def CreateFits (h : History) : LifeCall → Prop
  | .create al => al.thread ≠ none → al.context = true → al.stack = true →
      h.st.newId < maxCapacity ∧ al.link ≠ none
  | _ => True

instance (h : History) (c : LifeCall) : Decidable (CreateFits h c) :=
  match c with
  | .create al => inferInstanceAs (Decidable (al.thread ≠ none → al.context = true →
      al.stack = true → h.st.newId < maxCapacity ∧ al.link ≠ none))
  | .exit | .resume _ | .yield | .scribble .. => isTrue trivial

/-- What a call of `thread_create` owes to its caller: an id that has not been returned before, or 0
with nothing registered, and no write behind the pool. -/
structure CreateLaw (s : State) (returned : List ℕ) (al : Alloc) : Prop where
  /-- a successful call returns a fresh id in range, registers the record under it, appends its
  link to the ready queue and counts it -/
  success : ∀ s' id, s.threadCreate al = .ok (s', id) → id ≠ 0 →
    id ∉ returned ∧ id < maxCapacity ∧ ∃ t link xs,
      s.threadLive t = false ∧ s'.threadLive t = true ∧ s'.tId t = id ∧
      s'.addrs = Function.update s.addrs id (some t) ∧
      IsQueue s.next s.tReady xs ∧ IsQueue s'.next s'.tReady (xs ++ [link]) ∧
      s'.thread = Function.update s.thread link t ∧ link ∉ xs ∧
      s'.num = s.num + 1 ∧ s'.readyNum = s.readyNum + 1
  /-- a call that reports failure changes neither the registered threads nor the ready queue -/
  failure : ∀ s', s.threadCreate al = .ok (s', 0) →
    s'.addrs = s.addrs ∧ s'.num = s.num ∧ s'.readyNum = s.readyNum ∧
      s'.tReady = s.tReady ∧ s'.next = s.next ∧ s'.thread = s.thread
  /-- no call writes behind `addrs` -/
  bounded : s.threadCreate al ≠ .error .bounds

/-! ## The ready queue of a history -/

/-- The ready queue is `xs` and ends in a null pointer, and the link that `t_running` points to is
not in it. -/
structure ReadyLine (s : State) (xs : List Addr) : Prop where
  queue : IsQueue s.next s.tReady xs
  last : ∀ e, xs.getLast? = some e → s.next e = none
  live : ∀ x ∈ xs, s.linkLive x = true
  running : ∀ r, s.tRunning = some r → r ∉ xs ∧ s.linkLive r = true ∧ s.next r = none

namespace ReadyLine

variable {s s' : State} {xs : List Addr} {l t : Addr} {tr : Transfer} {b : Bool}

/-- **Frame rule.** Only the queue, the links and `t_running` matter. -/
theorem frame (h : ReadyLine s xs) (hq : s'.tReady = s.tReady) (hn : s'.next = s.next)
    (hl : s'.linkLive = s.linkLive) (hr : s'.tRunning = s.tRunning) : ReadyLine s' xs := by
  constructor
  · rw [hn, hq]
    exact h.queue
  · rw [hn]
    exact h.last
  · rw [hl]
    exact h.live
  · rw [hr, hl, hn]
    exact h.running

theorem setStatus (h : ReadyLine s xs) (t : Addr) (st : Status) : ReadyLine (s.setStatus t st) xs :=
  h.frame rfl rfl rfl rfl

theorem setCurrent (h : ReadyLine s xs) (id : ℕ) : ReadyLine { s with coCurrentId := id } xs :=
  h.frame rfl rfl rfl rfl

/-- The link of the running thread goes to the end of the queue. It was not there before. -/
theorem runningToReady (h : ReadyLine s xs) (hl : s.tRunning = some l) :
    ReadyLine (s.runningToReady l) (xs ++ [l]) := by
  obtain ⟨hnot, hlive, hnull⟩ := h.running l hl
  refine ⟨h.queue.append hnot, ?_, ?_, nofun⟩
  · intro e he
    obtain rfl : l = e := by simpa using he
    change (s.tReady.append s.next l).1 l = none
    rcases hstop : s.tReady.stop with _ | e
    · simpa [Ends.append, hstop] using hnull
    · simp [Ends.append, hstop]
  · intro x hx
    rcases List.mem_append.mp hx with hx | hx
    · exact h.live x hx
    · rw [List.mem_singleton.mp hx]
      exact hlive

/-- **`ready_to_running`.** The search stays inside the queue, because the last link points
nowhere. -/
theorem readyToRunning (h : ReadyLine s xs) (he : s.readyToRunning t = .ok (s', b)) :
    ∃ xs', ReadyLine s' xs' := by
  obtain ⟨_, -, he⟩ := bind_eq_ok he
  obtain ⟨⟨s₁, q⟩, hs₁, he⟩ := bind_eq_ok he
  obtain ⟨_, -, hs₁⟩ := bind_eq_ok hs₁
  obtain ⟨_, -, hs₁⟩ := bind_eq_ok hs₁
  split at hs₁
  · cases hs₁
  · obtain ⟨rfl, rfl⟩ := Prod.mk.inj (Except.ok.inj hs₁)
    obtain ⟨rfl, -⟩ := Prod.mk.inj (Except.ok.inj he)
    exact ⟨xs, h.setStatus ..⟩
  · rename_i pre cur hfind
    have hfind' : Ends.find s.next (fun l => s.thread l == t) (s.newId + 1)
        ([] : List Addr).getLast? xs.head? = some (some (pre, cur)) := by
      rw [← h.queue.start]
      exact hfind
    obtain ⟨ys, zs, rfl, rfl⟩ := IsQueue.find_sound [] h.queue.chain h.last hfind'
    obtain ⟨n', q', hu, hqueue, hframe⟩ := h.queue.unlink
    obtain ⟨hcur, hlast⟩ := h.queue.unlink_last h.last hu
    have hu' : Ends.unlink (s.setStatus t .running).next (s.setStatus t .running).tReady
        ([] ++ ys).getLast? cur = some (n', q') := hu
    rw [hu'] at hs₁
    obtain ⟨rfl, rfl⟩ := Prod.mk.inj (Except.ok.inj hs₁)
    obtain ⟨rfl, -⟩ := Prod.mk.inj (Except.ok.inj he)
    refine ⟨ys ++ zs, hqueue, hlast, ?_, ?_⟩
    · intro x hx
      have hsub : (ys ++ zs).Sublist (ys ++ cur :: zs) :=
        (List.sublist_cons_self cur zs).append_left ys
      exact h.live x (hsub.subset hx)
    · intro r hr
      obtain rfl := Option.some.inj hr
      have hnot := (List.nodup_cons.mp (List.nodup_middle.mp h.queue.nodup)).1
      exact ⟨hnot, h.live cur (by simp), hcur⟩

theorem threadResume {id : ℕ} (h : ReadyLine s xs) (he : s.threadResume id = .ok (s', tr)) :
    ∃ xs', ReadyLine s' xs' := by
  obtain ⟨run, hrun, he⟩ := bind_eq_ok he
  obtain ⟨_, -, he⟩ := bind_eq_ok he
  obtain ⟨_, -, he⟩ := bind_eq_ok he
  obtain ⟨new, -, he⟩ := bind_eq_ok he
  have hleave : ∃ ys, ReadyLine (if s.tId (s.thread run) ≠ 0 then s.runningToReady run
      else s.setStatus (s.thread run) .ready) ys := by
    split
    · exact ⟨_, h.runningToReady (deref_eq_ok hrun)⟩
    · exact ⟨_, h.setStatus ..⟩
  obtain ⟨ys, hys⟩ := hleave
  simp only at he
  split at he
  · obtain ⟨⟨s₁, found⟩, hs₁, he⟩ := bind_eq_ok he
    obtain ⟨_, -, he⟩ := bind_eq_ok he
    obtain ⟨rfl, -⟩ := Prod.mk.inj (Except.ok.inj he)
    exact (hys.setCurrent id).readyToRunning hs₁
  · obtain ⟨rfl, -⟩ := Prod.mk.inj (Except.ok.inj he)
    exact ⟨ys, (hys.setCurrent id).setStatus ..⟩

theorem threadYield (h : ReadyLine s xs) (he : s.threadYield = .ok (s', tr)) :
    ∃ xs', ReadyLine s' xs' := by
  rw [State.threadYield] at he
  split at he
  · exact h.threadResume he
  · obtain ⟨_, -, he⟩ := bind_eq_ok he
    exact h.threadResume he

theorem threadExit (h : ReadyLine s xs) (he : s.threadExit = .ok (s', tr)) :
    ∃ xs', ReadyLine s' xs' := by
  obtain ⟨_, -, he⟩ := bind_eq_ok he
  obtain ⟨cur, -, he⟩ := bind_eq_ok he
  obtain ⟨s₁, hmark, he⟩ := bind_eq_ok he
  split at he
  · cases he
  obtain ⟨j, rfl⟩ := markJoinable_eq hmark
  have hremoved : ReadyLine ({ s with joinable := j }.removeThread cur) xs :=
    h.frame rfl rfl rfl rfl
  rw [exitSwitch] at he
  split at he
  · obtain ⟨_, -, he⟩ := bind_eq_ok he
    obtain ⟨new, -, he⟩ := bind_eq_ok he
    obtain ⟨rfl, -⟩ := Prod.mk.inj (Except.ok.inj he)
    exact ⟨xs, (hremoved.setCurrent 0).setStatus ..⟩
  · obtain ⟨head, -, he⟩ := bind_eq_ok he
    obtain ⟨_, -, he⟩ := bind_eq_ok he
    obtain ⟨new, -, he⟩ := bind_eq_ok he
    obtain ⟨⟨s₂, found⟩, hs₂, he⟩ := bind_eq_ok he
    obtain ⟨rfl, -⟩ := Prod.mk.inj (Except.ok.inj he)
    exact (hremoved.setCurrent _).readyToRunning hs₂

/-- The link of a new thread goes to the end of the queue; `malloc` did not give one that is in
use. -/
theorem linkThread (h : ReadyLine s xs) (hl : s.linkLive l = false) :
    ReadyLine (s.linkThread t l) (xs ++ [l]) := by
  have hnot : l ∉ xs := by
    intro hm
    rw [h.live l hm] at hl
    cases hl
  obtain ⟨hnext, hends⟩ := linkThread_append (t := t) h.queue hnot
  have hclear : IsQueue (Function.update s.next l none) s.tReady xs := by
    refine h.queue.congr fun x hx => Function.update_of_ne ?_ ..
    rintro rfl
    exact hnot hx
  constructor
  · rw [hnext, hends]
    exact hclear.append hnot
  · intro e he
    obtain rfl : l = e := by simpa using he
    rw [hnext]
    rcases hstop : s.tReady.stop with _ | e <;> simp [Ends.append, hstop]
  · intro x hx
    change Function.update s.linkLive l true x = true
    rcases List.mem_append.mp hx with hx | hx
    · have hxl : x ≠ l := fun he => hnot (he ▸ hx)
      rw [Function.update_of_ne hxl]
      exact h.live x hx
    · rw [List.mem_singleton.mp hx, Function.update_self]
  · intro r hr
    obtain ⟨hrx, hrlive, hrnull⟩ := h.running r hr
    have hrl : r ≠ l := by
      rintro rfl
      rw [hrlive] at hl
      cases hl
    refine ⟨by simp [hrx, hrl], ?_, ?_⟩
    · change Function.update s.linkLive l true r = true
      rw [Function.update_of_ne hrl, hrlive]
    · rw [hnext, hclear.append_next_of_notMem hrx hrl, Function.update_of_ne hrl, hrnull]

theorem threadCreate {al : Alloc} {id : ℕ} (h : ReadyLine s xs)
    (he : s.threadCreate al = .ok (s', id)) : ∃ xs', ReadyLine s' xs' := by
  cases threadCreate_creates he with
  | linked _ _ _ _ hl => exact ⟨_, linkThread (h.frame rfl rfl rfl rfl) hl⟩
  | _ => exact ⟨xs, h.frame rfl rfl rfl rfl⟩

end ReadyLine

/-! ## Histories keep the queue and the ids -/

/-- What every history keeps: a sound ready queue, and ids below the next one. -/
structure LifeInv (h : History) : Prop where
  initialised : h.st.initialised = true
  newId_pos : 0 < h.st.newId
  line : ∃ xs, ReadyLine h.st xs
  fresh : ∀ i ∈ h.returned, i < h.st.newId

namespace LifeInv

variable {h h' : History}

/-- A call that creates no thread keeps the ids, so there is only the queue to look at. -/
theorem schedules {s : State} {xs : List Addr} (hi : LifeInv h) (hline : ReadyLine s xs)
    (hinit : s.initialised = h.st.initialised) (hid : s.newId = h.st.newId) :
    LifeInv { h with st := s } :=
  ⟨hinit.trans hi.initialised, by rw [hid]; exact hi.newId_pos, ⟨xs, hline⟩,
    by rw [hid]; exact hi.fresh⟩

theorem create {al : Alloc} {s : State} {id : ℕ} (hi : LifeInv h)
    (he : h.st.threadCreate al = .ok (s, id)) :
    LifeInv ⟨s, if id = 0 then h.returned else id :: h.returned⟩ := by
  obtain ⟨xs, hxs⟩ := hi.line
  have hline := hxs.threadCreate he
  have hpos := hi.newId_pos
  have hgrow : ∀ i ∈ h.returned, i < h.st.newId + 1 := fun i hm => Nat.lt_succ_of_lt (hi.fresh i hm)
  cases threadCreate_creates he with
  | off hoff => exact ⟨hi.initialised, hpos, hline, hi.fresh⟩
  | noRecord _ => exact ⟨hi.initialised, hpos, hline, hi.fresh⟩
  | noId h₀ => exact absurd h₀ hpos.ne'
  | noStack _ _ => exact ⟨hi.initialised, Nat.succ_pos _, hline, hgrow⟩
  | noLink _ _ _ _ _ => exact ⟨hi.initialised, Nat.succ_pos _, hline, hgrow⟩
  | linked _ _ hid _ _ =>
    rw [if_neg hid]
    refine ⟨hi.initialised, Nat.succ_pos _, hline, ?_⟩
    intro i hm
    rcases List.mem_cons.mp hm with rfl | hm
    · exact Nat.lt_succ_self _
    · exact hgrow i hm

/-- **Step lemma.** Each call keeps the invariant, by what it does to the ready queue. -/
theorem step {c : LifeCall} (hi : LifeInv h) (he : h.step c = .ok h') : LifeInv h' := by
  obtain ⟨xs, hxs⟩ := hi.line
  cases c with
  | create al =>
    obtain ⟨⟨s, id⟩, hs, he⟩ := bind_eq_ok he
    obtain rfl := Except.ok.inj he
    exact hi.create hs
  | exit =>
    obtain ⟨⟨s, tr⟩, hs, he⟩ := bind_eq_ok he
    obtain rfl := Except.ok.inj he
    obtain ⟨ys, hys⟩ := hxs.threadExit hs
    obtain ⟨cur, j, _, _, _, _, _, _, _, _, _, _, _, rfl⟩ := threadExit_eq hs
    exact hi.schedules hys rfl rfl
  | resume id =>
    obtain ⟨⟨s, tr⟩, hs, he⟩ := bind_eq_ok he
    obtain rfl := Except.ok.inj he
    obtain ⟨ys, hys⟩ := hxs.threadResume hs
    obtain ⟨_, _, _, _, _, _, _, _, _, _, _, rfl⟩ := Schedules.threadResume hs
    exact hi.schedules hys rfl rfl
  | yield =>
    obtain ⟨⟨s, tr⟩, hs, he⟩ := bind_eq_ok he
    obtain rfl := Except.ok.inj he
    obtain ⟨ys, hys⟩ := hxs.threadYield hs
    obtain ⟨_, _, _, _, _, _, _, _, _, _, _, rfl⟩ := Schedules.threadYield hs
    exact hi.schedules hys rfl rfl
  | scribble t junk =>
    rw [History.step] at he
    split at he
    · cases he
    · obtain rfl := Except.ok.inj he
      exact hi.schedules (hxs.frame rfl rfl rfl rfl) rfl rfl

theorem of_reach (hr : Reach lifeRuns h) : LifeInv h := by
  refine Reach.invariant (T := lifeRuns) (P := LifeInv) ?_ (fun _ _ _ _ hi he => hi.step he) hr
  rintro _ ⟨mem, t, link, hblank, rfl⟩
  refine ⟨rfl, Nat.one_pos, ⟨[], .nil _, nofun, nofun, ?_⟩, nofun⟩
  intro r hr
  obtain rfl : link = r := Option.some.inj hr
  exact ⟨nofun, Function.update_self .., Function.update_self ..⟩

end LifeInv

/-! ## The law -/

/-- `thread_create` writes behind `addrs` only when it is asked for a thread too many. -/
theorem State.threadCreate_bounds {s : State} {al : Alloc}
    (he : s.threadCreate al = .error .bounds) :
    al.thread ≠ none ∧ al.context = true ∧ al.stack = true ∧ maxCapacity ≤ s.newId := by
  rw [State.threadCreate] at he
  split at he
  · cases he
  rcases hq : al.thread with _ | t
  · rw [hq] at he
    cases he
  simp only [hq, malloc] at he
  split at he
  · cases he
  change (if s.newId = 0 then _ else _) = _ at he
  split at he
  · cases he
  rcases hsl : al.slot with _ | sl
  · rw [hsl] at he
    cases he
  rw [hsl] at he
  change (if (s.newThread t).slotUsed sl = true then _ else _) = _ at he
  split at he
  · cases he
  split at he
  · cases he
  split at he
  · cases he
  split at he
  · rename_i hc hs hcap
    exact ⟨Option.some_ne_none t, by simpa using hc, by simpa using hs, hcap⟩
  · rcases hl : al.link with _ | l
    · rw [hl] at he
      cases he
    · rw [hl] at he
      simp only at he
      split at he <;> cases he

/-- **`thread_create` is bounded and atomic** in every history in which each call that gets as far
as the registration has a slot left and obtains its link. -/
theorem create_bounded_atomic (h : History) (hr : Reach (lifeRuns.guard CreateFits) h) (al : Alloc)
    (hfit : CreateFits h (.create al)) : CreateLaw h.st h.returned al := by
  have hi := LifeInv.of_reach hr.of_guard
  obtain ⟨xs, hxs⟩ := hi.line
  constructor
  · intro s' id he hid
    cases threadCreate_creates he with
    | @linked sl t l ht hlive _ hcap hl =>
      have hnew : (h.st.newId) ∉ h.returned := fun hm => lt_irrefl _ (hi.fresh _ hm)
      have hnot : l ∉ xs := by
        intro hm
        have hlive : h.st.linkLive l = true := hxs.live l hm
        rw [hlive] at hl
        cases hl
      have hline : ReadyLine (((h.st.newThread t).fillThread t h.st.newId sl).registerThread
          h.st.newId t) xs := hxs.frame rfl rfl rfl rfl
      refine ⟨hnew, hcap, t, l, xs, hlive, ?_, ?_, rfl, hxs.queue, ?_, rfl, hnot, rfl, rfl⟩
      · exact Function.update_self ..
      · exact Function.update_self ..
      · exact (hline.linkThread hl).queue
    | _ => exact absurd rfl hid
  · intro s' he
    have hpos := hi.newId_pos
    generalize h0 : 0 = id at he
    cases threadCreate_creates he with
    | noLink ht hc hs _ hl =>
      have hlink := (hfit (by rw [ht]; nofun) hc hs).2
      exact absurd hl hlink
    | linked _ _ hid _ _ => exact absurd h0.symm hid
    | _ => exact ⟨rfl, rfl, rfl, rfl, rfl, rfl⟩
  · intro he
    obtain ⟨ht, hc, hs, hcap⟩ := threadCreate_bounds he
    exact absurd (hfit ht hc hs).1 (Nat.not_lt_of_le hcap)

/-- A thread is created, the next creation finds no memory for its context, and the law holds for
the one after that. -/
theorem create_bounded_atomic_retry : ∃ h, Reach (lifeRuns.guard CreateFits) h ∧
    h.returned = [1] ∧ h.st.newId = 3 ∧ CreateLaw h.st h.returned (.at 3) := by
  let take (h : History) (c : LifeCall) : Except Fault History :=
    if CreateFits h c then h.step c else .error .disabled
  have htake : ∀ h c h', take h c = .ok h' → (lifeRuns.guard CreateFits).step h c h' := by
    intro h c h' he
    simp only [take] at he
    split at he
    · rename_i hfit
      exact ⟨hfit, he⟩
    · cases he
  have hboot : Reach (lifeRuns.guard CreateFits) ⟨State.zero.threadInitial 0 0, []⟩ :=
    .init ⟨State.zero, 0, 0, State.zero_blank, rfl⟩
  obtain ⟨h, hr, hret, hid⟩ := hboot.exists_of_exec take htake
    [.create (.at 1), .create { Alloc.at 2 with context := false }]
    (fun h => h.returned = [1] ∧ h.st.newId = 3) (by decide)
  refine ⟨h, hr, hret, hid, create_bounded_atomic h hr (.at 3) ?_⟩
  intro _ _ _
  rw [hid]
  exact ⟨by decide, nofun⟩

/-! ## The two gaps -/

theorem malloc_bind {α : Type} {live : Addr → Bool} {a : Addr} (h : live a = false)
    (f : Ptr → Except Fault α) : (malloc live (some a) >>= f) = f (some a) := by
  simp only [malloc, h]
  rfl

/-- A creation for which every allocation succeeds gives the next id, unless the pool is full. -/
theorem State.threadCreate_at {s : State} {n : ℕ} (hi : s.initialised = true) (hid : s.newId = n)
    (hpos : n ≠ 0) (ht : s.threadLive n = false) (hl : s.linkLive n = false)
    (hs : s.slotUsed n = false) :
    s.threadCreate (.at n) = if maxCapacity ≤ n then .error .bounds else
      .ok ((((s.newThread n).fillThread n n n).registerThread n n).linkThread n n, n) := by
  rw [threadCreate, if_neg (by simp [hi])]
  change (malloc s.threadLive (some n) >>= _) = _
  rw [malloc_bind ht]
  change (if s.newId = 0 then _ else if s.slotUsed n = true then _ else
    if maxCapacity ≤ s.newId then _ else (malloc s.linkLive (some n) >>= _)) = _
  rw [malloc_bind hl, hid, if_neg hpos, hs]
  rfl

/-- The pool can be filled up to any id below its capacity, by creating one thread after the
other. -/
theorem exists_newId {n : ℕ} (hn : n < maxCapacity) : ∃ h, Reach lifeRuns h ∧
    h.st.newId = n + 1 ∧ ∀ a, n < a →
      h.st.threadLive a = false ∧ h.st.linkLive a = false ∧ h.st.slotUsed a = false := by
  induction n with
  | zero =>
    refine ⟨_, .init ⟨State.zero, 0, 0, State.zero_blank, rfl⟩, rfl, fun a ha => ⟨?_, ?_, rfl⟩⟩
    · exact Function.update_of_ne ha.ne' ..
    · exact Function.update_of_ne ha.ne' ..
  | succ n ih =>
    obtain ⟨h, hr, hid, hfree⟩ := ih (Nat.lt_of_succ_lt hn)
    obtain ⟨ht, hl, hs⟩ := hfree (n + 1) (Nat.lt_succ_self n)
    have hcreate := threadCreate_at (LifeInv.of_reach hr).initialised hid (Nat.succ_ne_zero n)
      ht hl hs
    rw [if_neg (Nat.not_le_of_lt hn)] at hcreate
    refine ⟨_, .step hr (History.step_create hcreate), congrArg (· + 1) hid, ?_⟩
    intro a ha
    obtain ⟨ht, hl, hs⟩ := hfree a (Nat.lt_of_succ_lt ha)
    refine ⟨?_, ?_, ?_⟩
    · exact (Function.update_of_ne ha.ne' ..).trans ht
    · exact (Function.update_of_ne ha.ne' ..).trans hl
    · exact (Function.update_of_ne ha.ne' ..).trans hs

/-- **Failures that are not reported as such.** A creation whose link cannot be allocated returns 0
with its record registered, and a creation with every slot of `addrs` handed out writes behind
it. -/
theorem create_leaks_and_overruns :
    (∃ h al s', Reach lifeRuns h ∧ h.st.threadCreate al = .ok (s', 0) ∧ s'.addrs ≠ h.st.addrs) ∧
      ∃ h n, Reach lifeRuns h ∧ h.st.threadCreate (.at n) = .error .bounds := by
  constructor
  · refine ⟨_, { Alloc.at 1 with link := none }, _,
      .init ⟨State.zero, 0, 0, State.zero_blank, rfl⟩, rfl, ?_⟩
    intro he
    have hone := congrFun he 1
    cases hone
  · obtain ⟨h, hr, hid, hfree⟩ := exists_newId (n := 1999) (by decide)
    obtain ⟨ht, hl, hs⟩ := hfree 2000 (by decide)
    refine ⟨h, 2000, hr, ?_⟩
    rw [threadCreate_at (LifeInv.of_reach hr).initialised hid (by decide) ht hl hs]
    rfl

end GreenLib
