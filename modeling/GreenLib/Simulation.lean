import GreenLib.Abstract
import GreenLib.Operations

/-!
# The machine refines the abstract machine

`Sim` relates a machine to an abstract one: the memory represents the scheduler, and
the frames, saved under records in one and under ids in the other, agree. Every step
of a *calm* run is matched by a step of the abstract machine (`simulation`).

A run is calm when each `thread_resume` targets a thread of the ready queue, and
thread 0 gets control back by its id only to do nothing more. Without the first, the
walk of `extract_thread` may run into a stale pointer; without the second, thread 0
runs with a `t_running` that is not its own.
-/

namespace GreenLib

open State Sched

variable {U G A E : Type}

/-- A thread that continues at `fr` makes no further step. Thread 0 is like that once it has handed
over. -/
def Program.Idle (P : Program U G A E) (fr : Frame U) : Prop :=
  ∃ u, fr = .user u ∧ ∀ act v g, P.next act v u g = none

/-- **The simulation relation.** The machine `m` is represented by the abstract machine `a`: its
memory represents the scheduler, the frames are saved under the records of their threads, and the
data agrees. -/
structure Sim (P : Program U G A E) (clean : Prop) (m : Mach U G) (a : AMach U G) : Prop where
  repr : Repr clean m.st a.sched
  cpu : ∀ i, a.sched.running = some i → m.cpu = a.frame i
  /-- with nobody running, thread 0 has control and is done -/
  idle : a.sched.running = none → ¬ clean ∧ m.st.coCurrentId = 0 ∧ P.Idle m.cpu
  ctx : ∀ i t, a.sched.place i ≠ .nowhere → a.sched.running ≠ some i →
    m.st.addrs i = some t → m.ctx t = a.frame i
  slot : ∀ i t, a.sched.place i ≠ .nowhere → m.st.addrs i = some t → m.st.slot t = a.slot i
  kind : m.st.kind = a.kind
  helder : m.st.helder = a.helder
  held : m.st.held = a.held
  count : m.st.count = a.count
  slotUsed : m.st.slotUsed = a.slotUsed
  g : m.g = a.g
  created : m.created = a.created
  exited : m.exited = a.exited
  vs : m.vs = a.vs
  ps : m.ps = a.ps
  blocked : m.blocked = a.blocked
  served : m.served = a.served

namespace Core

variable {clean : Prop}

/-- **`thread_initial`** builds the memory of the initial scheduler, on any memory whatsoever. With
`clean` the one field it does not write has to be right by chance. -/
theorem threadInitial {mem : State} (hb : Blank mem) {t link : Addr}
    (hst : clean → mem.status t = .running) :
    Core clean (mem.threadInitial t link) .initial fun _ => link := by
  have hzero : ∀ i, (Sched.initial : Sched Addr).place i ≠ .nowhere → i = 0 := by
    intro i hi
    by_contra hne
    exact hi (initial_place_of_ne hne)
  have hthread : (mem.threadInitial t link).thread link = t := Function.update_self ..
  refine ⟨rfl, rfl, ?_, ?_, fun _ _ => Function.update_self .., IsQueue.nil _, nofun, ?_, ?_, ?_⟩
  · intro i hi
    rw [hzero i hi, hthread]
    rfl
  · intro i r hr
    have hi : i = 0 := by
      by_contra hne
      change Function.update (fun _ => none) 0 (some t) i = some r at hr
      rw [Function.update_of_ne hne] at hr
      cases hr
    subst hi
    obtain rfl : t = r := Option.some.inj hr
    exact ⟨Function.update_self .., Function.update_self .., by decide, Nat.one_pos⟩
  · intro p
    change p ∈ (∅ : Finset Addr) ↔ mem.kind p ≠ none
    simp [hb.kind p]
  · intro i hi
    exact ⟨rfl, Option.some.inj hi⟩
  · intro i hi h0
    obtain rfl := hzero i hi
    rw [hthread]
    exact hst (h0 rfl)

/-- The contents of a freed record do not matter, since no registered thread has it. -/
theorem scribble {s : State} {a : Sched Addr} {link : ℕ → Addr} (h : Core clean s a link)
    {t : Addr} (ht : s.threadLive t = false) (junk : State) :
    Core clean (s.scribble t junk) a link := by
  refine ⟨h.initialised, h.newId, h.addrs, ?_, h.linkLive, h.ready, h.waiting, h.prims, h.running,
    ?_⟩
  · intro k r hr
    have hne := h.ne_of_not_live ht hr
    obtain ⟨hid, hrest⟩ := h.record k r hr
    exact ⟨(Function.update_of_ne hne ..).trans hid, hrest⟩
  · intro i hi h0
    have hne := h.ne_of_not_live ht (h.addrs i hi)
    have hst : (s.scribble t junk).status (s.thread (link i)) = s.status (s.thread (link i)) :=
      Function.update_of_ne hne ..
    change (a.place i).Shows ((s.scribble t junk).status (s.thread (link i)))
    rw [hst]
    exact h.status i hi h0

end Core

namespace Sim

variable {P : Program U G A E} {clean : Prop} {m : Mach U G} {a : AMach U G} {i j : ℕ}

/-! ## Reading through the relation -/

theorem running_addrs (h : Sim P clean m a) (hi : a.sched.place i ≠ .nowhere) :
    ∃ t, m.st.addrs i = some t := by
  obtain ⟨link, c⟩ := h.repr.core
  exact ⟨_, c.addrs i hi⟩

/-- The records of two threads are different. -/
theorem addrs_inj (h : Sim P clean m a) {ti tj : Addr} (hi : m.st.addrs i = some ti)
    (hj : m.st.addrs j = some tj) (hne : i ≠ j) : ti ≠ tj := by
  obtain ⟨link, c⟩ := h.repr.core
  rintro rfl
  exact hne ((c.record i ti hi).1.symm.trans (c.record j ti hj).1)

theorem coCurrentId (h : Sim P clean m a) (hi : a.sched.running = some i) :
    m.st.coCurrentId = i := by
  obtain ⟨link, c⟩ := h.repr.core
  exact (c.running i hi).2

/-- The frame of a thread that does not run is saved under its record. This is what a switch to that
thread will load. -/
theorem ctx_of_ne (h : Sim P clean m a) (hi : a.sched.running = some i) {t : Addr} (hj : j ≠ i)
    (hpj : a.sched.place j ≠ .nowhere) (ht : m.st.addrs j = some t) : m.ctx t = a.frame j := by
  refine h.ctx j t hpj ?_ ht
  rw [hi]
  exact fun he => hj (Option.some.inj he).symm

/-- A thread that a call leaves alone has the record and the slot it had, so its saved frame is
still found. -/
theorem kept_addrs (h : Sim P clean m a) {s' : State} {ids : ℕ → Prop} (hkept : Kept m.st s' ids)
    (hj : ids j) (hpj : a.sched.place j ≠ .nowhere) {t : Addr} (ht : s'.addrs j = some t) :
    m.st.addrs j = some t ∧ s'.slot t = m.st.slot t := by
  obtain ⟨t', ht'⟩ := h.running_addrs hpj
  obtain ⟨hsame, hslot⟩ := hkept.addrs j t' hj ht'
  obtain rfl : t' = t := Option.some.inj (hsame.symm.trans ht)
  exact ⟨ht', hslot⟩

/-- The running thread will continue at the frame that is set for it, which need not be saved
anywhere. -/
theorem cpu_of_running {sched : Sched Addr} (hrun : sched.running = some i) (f : ℕ → Frame U)
    (fr : Frame U) (k : ℕ) (hk : sched.running = some k) : fr = Function.update f i fr k := by
  obtain rfl := Option.some.inj (hrun.symm.trans hk)
  rw [Function.update_self]

/-- User code sees the same on both machines, hence makes the same calls. -/
theorem view (h : Sim P clean m a) (hi : a.sched.running = some i) : m.st.view = a.view i := by
  obtain ⟨link, c⟩ := h.repr.core
  have hpi : a.sched.place i ≠ .nowhere := by simp [place_running hi]
  unfold State.view AMach.view
  rw [(c.running i hi).1]
  simp only
  rw [c.tId hpi, h.slot i _ hpi (c.addrs i hpi), h.kind]

/-! ## Performing a request -/

/-- **The switch.** After the data edits, the scheduler part of a call: the frame of the
acting thread is saved and the frame of the next one is loaded. -/
theorem perform (h : Sim P clean m a) (hi : a.sched.running = some i) {r : Req Addr} {s' : State}
    {tr : Transfer} {sched : Sched Addr} (hd : Done clean m.st a.sched i r s' tr sched)
    (hback : sched.running = none → ¬ clean ∧ s'.coCurrentId = 0 ∧
      ∀ t, m.st.addrs 0 = some t → P.Idle (m.ctx t))
    (fr : Frame U) :
    Sim P clean ({ m with st := s' }.transfer fr tr)
      { a with sched := sched, frame := Function.update a.frame i fr } := by
  have mv := hd.moved
  have hpi : a.sched.place i ≠ .nowhere := by simp [place_running hi]
  have hplaced : ∀ k, sched.place k ≠ .nowhere → a.sched.place k ≠ .nowhere :=
    fun k hk => hd.step.placed hi hk
  have hslot : ∀ k t, sched.place k ≠ .nowhere → s'.addrs k = some t → s'.slot t = a.slot k := by
    intro k t hk ht
    rw [mv.addrs] at ht
    rw [mv.slot]
    exact h.slot k t (hplaced k hk) ht
  -- the frame of `i` is saved under its record, the other frames stay
  have hctx : ∀ {ti : Addr}, m.st.addrs i = some ti → ∀ k t, sched.place k ≠ .nowhere →
      s'.addrs k = some t → Function.update m.ctx ti fr t = Function.update a.frame i fr k := by
    intro ti hti k t hk ht
    rw [mv.addrs] at ht
    by_cases hki : k = i
    · subst hki
      obtain rfl : ti = t := Option.some.inj (hti.symm.trans ht)
      rw [Function.update_self, Function.update_self]
    · rw [Function.update_of_ne (h.addrs_inj ht hti hki), Function.update_of_ne hki]
      exact h.ctx_of_ne hi hki (hplaced k hk) ht
  have hkind : s'.kind = a.kind := mv.kind.trans h.kind
  have hhelder : s'.helder = a.helder := mv.helder.trans h.helder
  have hheld : s'.held = a.held := mv.held.trans h.held
  have hcount : s'.count = a.count := mv.count.trans h.count
  have hused : s'.slotUsed = a.slotUsed := mv.slotUsed.trans h.slotUsed
  have hlands := hd.lands
  generalize hrun : sched.running = run at hlands
  cases hlands with
  | stay =>
    refine ⟨hd.repr, ?_, ?_, ?_, hslot, hkind, hhelder, hheld, hcount, hused, h.g, h.created,
      h.exited, h.vs, h.ps, h.blocked, h.served⟩
    · exact cpu_of_running hrun a.frame fr
    · intro hk
      cases hrun.symm.trans hk
    · intro k t hk hkr ht
      have hki : k ≠ i := fun he => hkr (he ▸ hrun)
      change s'.addrs k = some t at ht
      rw [mv.addrs] at ht
      change m.ctx t = Function.update a.frame i fr k
      rw [Function.update_of_ne hki]
      exact h.ctx_of_ne hi hki (hplaced k hk) ht
  | swap hti htj hne =>
    rename_i j ti tj
    have hcpu : Function.update m.ctx ti fr tj = Function.update a.frame i fr j := by
      refine hctx hti j tj ?_ (by rw [mv.addrs, htj])
      simp [place_running hrun]
    refine ⟨hd.repr, ?_, ?_, fun k t hk _ ht => hctx hti k t hk ht, hslot, hkind, hhelder, hheld,
      hcount, hused, h.g, h.created, h.exited, h.vs, h.ps, h.blocked, h.served⟩
    · intro k hk
      obtain rfl := Option.some.inj (hrun.symm.trans hk)
      exact hcpu
    · intro hk
      cases hrun.symm.trans hk
  | back hti ht₀ hi0 =>
    rename_i ti t₀
    refine ⟨hd.repr, ?_, ?_, fun k t hk _ ht => hctx hti k t hk ht, hslot, hkind, hhelder, hheld,
      hcount, hused, h.g, h.created, h.exited, h.vs, h.ps, h.blocked, h.served⟩
    · intro k hk
      cases hrun.symm.trans hk
    · intro _
      refine ⟨(hback hrun).1, (hback hrun).2.1, ?_⟩
      change P.Idle (Function.update m.ctx ti fr t₀)
      rw [Function.update_of_ne (h.addrs_inj ht₀ hti hi0.symm)]
      exact (hback hrun).2.2 t₀ ht₀

/-! ## Editing the data -/

theorem setG (h : Sim P clean m a) (g : G) :
    Sim P clean { m with g := g } { a with g := g } :=
  ⟨h.repr, h.cpu, h.idle, h.ctx, h.slot, h.kind, h.helder, h.held, h.count, h.slotUsed, rfl,
    h.created, h.exited, h.vs, h.ps, h.blocked, h.served⟩

theorem setLock (h : Sim P clean m a) (l : Addr) (x y : ℤ) :
    Sim P clean { m with st := m.st.setLock l x y } (a.setLock l x y) := by
  refine ⟨h.repr.setLock l x y, h.cpu, h.idle, h.ctx, h.slot, h.kind, ?_, ?_, h.count, h.slotUsed,
    h.g, h.created, h.exited, h.vs, h.ps, h.blocked, h.served⟩
  · exact congrArg (Function.update · l x) h.helder
  · exact congrArg (Function.update · l y) h.held

theorem setCount (h : Sim P clean m a) (l : Addr) (x : ℤ) :
    Sim P clean { m with st := m.st.setCount l x } (a.setCount l x) := by
  refine ⟨h.repr.setCount l x, h.cpu, h.idle, h.ctx, h.slot, h.kind, h.helder, h.held, ?_,
    h.slotUsed, h.g, h.created, h.exited, h.vs, h.ps, h.blocked, h.served⟩
  exact congrArg (Function.update · l x) h.count

theorem setVs (h : Sim P clean m a) (v : Addr → ℕ) :
    Sim P clean { m with vs := v } { a with vs := v } :=
  ⟨h.repr, h.cpu, h.idle, h.ctx, h.slot, h.kind, h.helder, h.held, h.count, h.slotUsed, h.g,
    h.created, h.exited, rfl, h.ps, h.blocked, h.served⟩

theorem setPs (h : Sim P clean m a) (v : Addr → ℕ) :
    Sim P clean { m with ps := v } { a with ps := v } :=
  ⟨h.repr, h.cpu, h.idle, h.ctx, h.slot, h.kind, h.helder, h.held, h.count, h.slotUsed, h.g,
    h.created, h.exited, h.vs, rfl, h.blocked, h.served⟩

theorem setBlocked (h : Sim P clean m a) (v : Addr → List ℕ) :
    Sim P clean { m with blocked := v } { a with blocked := v } :=
  ⟨h.repr, h.cpu, h.idle, h.ctx, h.slot, h.kind, h.helder, h.held, h.count, h.slotUsed, h.g,
    h.created, h.exited, h.vs, h.ps, rfl, h.served⟩

theorem setServed (h : Sim P clean m a) (v : Addr → List ℕ) :
    Sim P clean { m with served := v } { a with served := v } :=
  ⟨h.repr, h.cpu, h.idle, h.ctx, h.slot, h.kind, h.helder, h.held, h.count, h.slotUsed, h.g,
    h.created, h.exited, h.vs, h.ps, h.blocked, rfl⟩

end Sim

/-! ## Calm runs -/

/-- The id `thread_yield` passes to `thread_resume`: the head of the ready queue, and 0 if it is
empty. -/
def State.yieldTarget (s : State) : ℕ :=
  if s.readyNum = 0 then 0
  else
    match s.tReady.start with
    | none => 0
    | some head => s.tId (s.thread head)

/-- The id a turn of `thread_join` passes to `thread_resume`, directly or through `thread_yield`.
There is none in the last turn. -/
def State.joinTarget (s : State) (cur new : Addr) (id : ℕ) : Option ℕ :=
  match s.join cur with
  | none => none
  | some b =>
    if s.joinable b then none
    else
      match s.status new with
      | .ready => some id
      | .waiting => some s.yieldTarget
      | .running => none

/-- The id the step passes to `thread_resume`, in whatever call. A condition on it is a condition on
everybody who resumes. -/
def Mach.target (P : Program U G A E) (m : Mach U G) : Label A E → Option ℕ
  | .call act _ =>
    match m.cpu with
    | .user u =>
      match P.next act m.st.view u m.g with
      | some (.resume id, _, _) => some id
      | some (.yield, _, _) => some m.st.yieldTarget
      | _ => none
    | _ => none
  | .turn =>
    match m.cpu with
    | .join cur new id _ => m.st.joinTarget cur new id
    | _ => none
  | _ => none

/-- Which steps resume a thread: the calls of `thread_resume` and `thread_yield`, and turns of
`thread_join`. -/
theorem Mach.target_cases {P : Program U G A E} {m : Mach U G} {l : Label A E} {id : ℕ}
    (h : m.target P l = some id) :
    m.Calls P l (.resume id) ∨ m.Calls P l .yield ∨ ∃ cur new j u, m.cpu = .join cur new j u := by
  rcases l with ⟨act, al⟩ | _ | _ | _
  · rcases hcpu : m.cpu with u | _ | _ | _ | _ | _ | _ <;> simp only [Mach.target, hcpu] at h
    · rcases hn : P.next act m.st.view u m.g with _ | ⟨c, ret, g⟩ <;> simp only [hn] at h
      · cases h
      · cases c <;> simp only at h <;> try cases h
        · exact .inr (.inl ⟨act, al, u, ret, g, rfl, hcpu, hn⟩)
        · exact .inl ⟨act, al, u, ret, g, rfl, hcpu, hn⟩
    all_goals cases h
  · rcases hcpu : m.cpu with u | _ | _ | _ | _ | _ | ⟨cur, new, j, u⟩ <;>
      simp only [Mach.target, hcpu] at h <;> try cases h
    exact .inr (.inr ⟨cur, new, j, u, rfl⟩)
  · cases h
  · cases h

/-- Thread 0 may get control back: nobody relies on its status and it will do nothing. -/
def Mach.Back (P : Program U G A E) (clean : Prop) (m : Mach U G) : Prop :=
  ¬ clean ∧ ∀ t, m.st.addrs 0 = some t → P.Idle (m.ctx t)

/-- **A calm step** resumes nobody but ready threads, and gives control back to thread 0 only when
it will do nothing with it. Calm runs are those that the abstract machine can follow. -/
structure Calm (P : Program U G A E) (clean : Prop) (m : Mach U G) (l : Label A E) : Prop where
  /-- only ready threads are resumed, or thread 0 for good -/
  target : ∀ id, m.target P l = some id →
    id ≠ 0 ∧ id ∈ m.st.readyIds ∨ id = 0 ∧ m.Back P clean
  exit : m.Calls P l .exit → m.st.readyNum = 0 → m.Back P clean

/-! ## One step -/

/-- The data a new primitive begins with. A plain one has none. -/
def State.fillPrim (s : State) : PrimKind → Addr → State
  | .plain, _ => s
  | .lock, p => s.setLock p (-1) 0
  | .semaphore, p => s.setCount p 0

theorem Repr.yieldTarget {clean : Prop} {s : State} {a : Sched Addr} (h : Repr clean s a) :
    s.yieldTarget = a.ready.headD 0 := by
  obtain ⟨link, c⟩ := h.core
  unfold State.yieldTarget
  rcases hr : a.ready with _ | ⟨j, tl⟩
  · rw [if_pos (h.readyNum_eq_zero.mpr hr)]
    rfl
  · have hstart : s.tReady.start = some (link j) := by
      rw [c.ready.start, hr]
      rfl
    rw [if_neg (by rw [h.readyNum_eq_zero, hr]; simp), hstart]
    exact c.tId (c.ready_placed j (by simp [hr]))

namespace Sim

variable {P : Program U G A E} {clean : Prop} {m m' : Mach U G} {a : AMach U G} {i : ℕ}

/-- What a step of the machine has to be matched with: a step of the abstract machine with the same
label, to a state that represents the result. -/
def Matched (P : Program U G A E) (clean : Prop) (a : AMach U G) (l : Label A E)
    (m' : Mach U G) : Prop :=
  ∃ a', Sim P clean m' a' ∧ AStep P a l a'

/-- An action, with its data already edited on both sides, and the switch behind it. -/
theorem act {l : Label A E} {m₀ : Mach U G} {b : AMach U G} (h : Sim P clean m₀ b)
    (hs : b.sched = a.sched) (hfr : b.frame = a.frame) (hi : a.sched.running = some i)
    {fr : Frame U} {r : Req Addr}
    (hact : Act P a i l b fr r) {s' : State} {tr : Transfer} {sched : Sched Addr}
    (hd : Done clean m₀.st a.sched i r s' tr sched)
    (hback : sched.running = none → ¬ clean ∧ s'.coCurrentId = 0 ∧
      ∀ t, m₀.st.addrs 0 = some t → P.Idle (m₀.ctx t)) :
    Matched P clean a l ({ m₀ with st := s' }.transfer fr tr) := by
  refine ⟨{ b with sched := sched, frame := Function.update b.frame i fr }, ?_, ?_⟩
  · exact h.perform (hs ▸ hi) (hs ▸ hd) hback fr
  · rw [hfr]
    exact .act hi hact hd.step

/-- An action that neither resumes a thread nor exits hands control to no idle thread. -/
theorem act_switch {l : Label A E} {m₀ : Mach U G} {b : AMach U G} (h : Sim P clean m₀ b)
    (hs : b.sched = a.sched) (hfr : b.frame = a.frame) (hi : a.sched.running = some i)
    {fr : Frame U} {r : Req Addr} (hact : Act P a i l b fr r) {s' : State} {tr : Transfer}
    {sched : Sched Addr} (hd : Done clean m₀.st a.sched i r s' tr sched) (hr : r ≠ .resume 0)
    (he : r ≠ .exit) : Matched P clean a l ({ m₀ with st := s' }.transfer fr tr) :=
  h.act hs hfr hi hact hd fun hn => absurd hn (hd.step.running_ne_none hi hr he)

/-- An action without a switch: the acting thread runs on, at its new frame. -/
theorem act_stay {l : Label A E} {m₀ : Mach U G} {b : AMach U G} (h : Sim P clean m₀ b)
    (hs : b.sched = a.sched) (hfr : b.frame = a.frame) (hi : a.sched.running = some i)
    {fr : Frame U} (hact : Act P a i l b fr .stay) :
    Matched P clean a l { m₀ with cpu := fr } := by
  have hd : Done clean m₀.st a.sched i .stay m₀.st .stay a.sched := by
    refine ⟨.stay, hs ▸ h.repr, Moved.refl _, ?_⟩
    rw [hi]
    exact .stay
  exact h.act_switch hs hfr hi hact hd (by simp) (by simp)

/-- A `thread_resume` of a calm step, of a ready thread or of a thread 0 that is done. -/
theorem act_resume {l : Label A E} {m₀ : Mach U G} {b : AMach U G} (h : Sim P clean m₀ b)
    (hs : b.sched = a.sched) (hfr : b.frame = a.frame) (hi : a.sched.running = some i)
    {fr : Frame U} {id : ℕ} (hact : Act P a i l b fr (.resume id)) {s' : State} {tr : Transfer}
    (he : m₀.st.threadResume id = .ok (s', tr))
    (hcalm : id ≠ 0 ∧ id ∈ m₀.st.readyIds ∨ id = 0 ∧ m₀.Back P clean) :
    Matched P clean a l ({ m₀ with st := s' }.transfer fr tr) := by
  have hrepr : Repr clean m₀.st a.sched := hs ▸ h.repr
  rw [hrepr.readyIds] at hcalm
  obtain ⟨sched, hd⟩ := hrepr.threadResume hi
    (fun h0 => (hcalm.resolve_right fun hz => h0 hz.1).2)
    (fun h0 => (hcalm.resolve_left fun hz => hz.1 h0).2.1) he
  rcases hcalm with ⟨h0, _⟩ | ⟨rfl, hb⟩
  · exact h.act_switch hs hfr hi hact hd (by simpa using h0) (by simp)
  · exact h.act hs hfr hi hact hd fun _ => ⟨hb.1, Repr.coCurrentId_of_threadResume he, hb.2⟩

/-- `thread_exit`. The frame of the caller is not saved, and its record is gone. -/
theorem exit (h : Sim P clean m a) (hi : a.sched.running = some i) {u : U} {act : A}
    {ret : Option ℕ → U} {g : G} (hf : a.frame i = .user u)
    (hn : P.next act (a.view i) u a.g = some (.exit, ret, g))
    (hback : m.st.readyNum = 0 → m.Back P clean) {s' : State} {tr : Transfer}
    (he : m.st.threadExit = .ok (s', tr)) (fr : Frame U) (al : Alloc) :
    Matched P clean a (.call act al)
      ({ m with g := g, exited := Function.update m.exited i true, st := s' }.transfer fr tr) := by
  obtain ⟨sched, hx⟩ := h.repr.threadExit hi
    (fun hr => (hback (h.repr.readyNum_eq_zero.mpr hr)).1) he
  refine ⟨_, ?_, .exit hi hf hn hx.step⟩
  have hk := hx.kept
  -- nothing is left of the thread that exits
  have hne : ∀ k, sched.place k ≠ .nowhere → k ≠ i := by
    rintro k hpk rfl
    cases hx.step with
    | exit hr hb =>
      rename_i j tl
      have hj : j ∈ a.sched.ready := by simp [hr]
      have hji : k ≠ j := (ne_running_of_place hi (place_ready hj) (by simp)).symm
      rw [hb.place, Function.update_of_ne hji, Function.update_self] at hpk
      exact hpk rfl
    | exitLast hr hb =>
      rw [hb.place, Function.update_self] at hpk
      exact hpk rfl
  have haddrs : ∀ k t, sched.place k ≠ .nowhere → s'.addrs k = some t →
      m.st.addrs k = some t ∧ s'.slot t = m.st.slot t := by
    intro k t hpk ht
    exact h.kept_addrs hk (hne k hpk) (hx.step.placed hi hpk) ht
  have hctx : ∀ k t, sched.place k ≠ .nowhere → m.st.addrs k = some t → m.ctx t = a.frame k := by
    intro k t hpk ht
    exact h.ctx_of_ne hi (hne k hpk) (hx.step.placed hi hpk) ht
  have hsim : ∀ {t : Addr}, (∀ j, sched.running = some j → m.ctx t = a.frame j) →
      (sched.running = none → ¬ clean ∧ s'.coCurrentId = 0 ∧ P.Idle (m.ctx t)) →
      Sim P clean
        { m with
          g := g, exited := Function.update m.exited i true, st := s', cpu := m.ctx t }
        { a with sched := sched, g := g, exited := Function.update a.exited i true } := by
    intro t hcpu hidle
    refine ⟨hx.repr, hcpu, hidle, ?_, ?_, hk.kind.trans h.kind, hk.helder.trans h.helder,
      hk.held.trans h.held, hk.count.trans h.count, hx.slotUsed.trans h.slotUsed, rfl, h.created,
      ?_, h.vs, h.ps, h.blocked, h.served⟩
    · intro k t hpk _ ht
      exact hctx k t hpk (haddrs k t hpk ht).1
    · intro k t hpk ht
      obtain ⟨ht', hsl⟩ := haddrs k t hpk ht
      exact hsl.trans (h.slot k t (hx.step.placed hi hpk) ht')
    · exact congrArg (Function.update · i true) h.exited
  rcases hrun : sched.running with _ | j
  · obtain ⟨_, hzero, t, ht, rfl⟩ := hx.back hrun
    refine hsim (fun j hj => ?_) fun _ => ?_
    · cases hrun.symm.trans hj
    · have hr : a.sched.ready = [] := by
        cases hx.step with
        | exit hr hb => cases hb.running.symm.trans hrun
        | exitLast hr hb => exact hr
      obtain ⟨hc, hidle⟩ := hback (h.repr.readyNum_eq_zero.mpr hr)
      exact ⟨hc, hzero, hidle t ht⟩
  · obtain ⟨t, ht, rfl⟩ := hx.next j hrun
    refine hsim (fun k hk' => ?_) fun hn => ?_
    · obtain rfl := Option.some.inj (hrun.symm.trans hk')
      exact hctx j t (by simp [place_running hrun]) ht
    · cases hrun.symm.trans hn

/-- A `thread_create` that succeeded: the new thread is ready and will begin at `v`. -/
theorem createdThread (h : Sim P clean m a) (hi : a.sched.running = some i) {u v : U} {act : A}
    {ret : Option ℕ → U} {g : G} (hf : a.frame i = .user u)
    (hn : P.next act (a.view i) u a.g = some (.create v, ret, g)) {al : Alloc} {s' : State}
    {id : ℕ} {t : Addr} {sched : Sched Addr}
    (hc : Repr.Created clean m.st a.sched al s' id t sched) :
    Matched P clean a (.call act al)
      { m with
        g := g
        st := s'
        cpu := .user (ret (some id))
        ctx := Function.update m.ctx t (.user v)
        created := Function.update m.created id true } := by
  refine ⟨_, ?_, .create hi hf hn hc.id_eq hc.pos hc.newId hc.prims hc.running hc.ready hc.waiting
    hc.place (h.slotUsed ▸ hc.fresh)⟩
  obtain ⟨link, c⟩ := h.repr.core
  have hrun : sched.running = some i := hc.running.trans hi
  have hnow : a.sched.place id = .nowhere := by
    rw [hc.id_eq]
    exact place_newId
  have hii : i ≠ id := by
    rintro rfl
    simp [place_running hi] at hnow
  have hplaced : ∀ k, k ≠ id → sched.place k ≠ .nowhere → a.sched.place k ≠ .nowhere := by
    intro k hk hpk
    rwa [hc.place, Function.update_of_ne hk] at hpk
  refine ⟨hc.repr, ?_, ?_, ?_, ?_, hc.kept.kind.trans h.kind, hc.kept.helder.trans h.helder,
    hc.kept.held.trans h.held, hc.kept.count.trans h.count, ?_, rfl,
    congrArg (Function.update · id true) h.created, h.exited, h.vs, h.ps, h.blocked, h.served⟩
  · intro k hk
    obtain rfl := Option.some.inj (hrun.symm.trans hk)
    simp [Function.update_of_ne hii]
  · intro hk
    cases hrun.symm.trans hk
  · intro k r hpk hkr hr
    by_cases hk : k = id
    · subst hk
      obtain rfl : t = r := Option.some.inj (hc.addrs.symm.trans hr)
      simp
    · have hki : k ≠ i := fun he => hkr (he ▸ hrun)
      obtain ⟨hr', -⟩ := h.kept_addrs hc.kept hk (hplaced k hk hpk) hr
      have hrt : r ≠ t := c.ne_of_not_live hc.record.2 hr'
      simp only [Function.update_of_ne hrt, Function.update_of_ne hk, Function.update_of_ne hki]
      exact h.ctx_of_ne hi hki (hplaced k hk hpk) hr'
  · intro k r hpk hr
    change s'.slot r = Function.update a.slot id (s'.slot t) k
    by_cases hk : k = id
    · subst hk
      obtain rfl : t = r := Option.some.inj (hc.addrs.symm.trans hr)
      rw [Function.update_self]
    · obtain ⟨hr', hsl⟩ := h.kept_addrs hc.kept hk (hplaced k hk hpk) hr
      rw [hsl, Function.update_of_ne hk]
      exact h.slot k r (hplaced k hk hpk) hr'
  · change s'.slotUsed = Function.update a.slotUsed (s'.slot t) true
    rw [hc.slotUsed, h.slotUsed]

/-- A `thread_create` that failed leaves the threads as they were. It may have taken an id and a
slot. -/
theorem noThread (h : Sim P clean m a) (hi : a.sched.running = some i) {u v : U} {act : A}
    {ret : Option ℕ → U} {g : G} (hf : a.frame i = .user u)
    (hn : P.next act (a.view i) u a.g = some (.create v, ret, g)) {al : Alloc} {s' : State}
    {sched : Sched Addr} (hc : Repr.NotCreated clean m.st a.sched s' sched) :
    Matched P clean a (.call act al) { m with g := g, st := s', cpu := .user (ret (some 0)) } := by
  have hused : ∀ sl, a.slotUsed sl = true → s'.slotUsed sl = true := by
    intro sl hsl
    rw [← h.slotUsed] at hsl
    rcases hc.slotUsed with hu | ⟨sl', -, hu⟩
    · rw [hu, hsl]
    · rw [hu, Function.update_apply, hsl]
      simp
  refine ⟨_, ?_, .notCreated hi hf hn hc.sched hused⟩
  obtain ⟨hplace, hrun⟩ : sched.place = a.sched.place ∧ sched.running = some i := by
    rcases hc.sched with rfl | rfl <;> exact ⟨rfl, hi⟩
  refine ⟨hc.repr, cpu_of_running hrun _ _, ?_, ?_, ?_, hc.kept.kind.trans h.kind,
    hc.kept.helder.trans h.helder, hc.kept.held.trans h.held, hc.kept.count.trans h.count, rfl, rfl,
    h.created, h.exited, h.vs, h.ps, h.blocked, h.served⟩
  · intro hk
    cases hrun.symm.trans hk
  · intro k r hpk hkr hr
    change sched.place k ≠ _ at hpk
    rw [hplace] at hpk
    have hki : k ≠ i := fun he => hkr (he ▸ hrun)
    change _ = Function.update a.frame i _ k
    rw [Function.update_of_ne hki]
    exact h.ctx_of_ne hi hki hpk (h.kept_addrs hc.kept hpk hpk hr).1
  · intro k r hpk hr
    change sched.place k ≠ _ at hpk
    rw [hplace] at hpk
    obtain ⟨hr', hsl⟩ := h.kept_addrs hc.kept hpk hpk hr
    exact hsl.trans (h.slot k r hpk hr')

/-- `thread_create`, in both cases: the caller runs on and learns the id or 0. -/
theorem create (h : Sim P clean m a) (hi : a.sched.running = some i) {u v : U} {act : A}
    {ret : Option ℕ → U} {g : G} (hf : a.frame i = .user u)
    (hn : P.next act (a.view i) u a.g = some (.create v, ret, g)) {al : Alloc} {s' : State}
    {id : ℕ} (he : m.st.threadCreate al = .ok (s', id)) :
    Matched P clean a (.call act al)
      { m with
        g := g
        st := s'
        cpu := .user (ret (some id))
        ctx := match al.thread with
          | none => m.ctx
          | some t => if id = 0 then m.ctx else Function.update m.ctx t (.user v)
        created := if id = 0 then m.created else Function.update m.created id true } := by
  rcases h.repr.threadCreate he with ⟨t, sched, hc⟩ | ⟨rfl, sched, hc⟩
  · simp only [hc.record.1, if_neg hc.pos]
    exact h.createdThread hi hf hn hc
  · have hctx : (match al.thread with
        | none => m.ctx
        | some t => if (0 : ℕ) = 0 then m.ctx else Function.update m.ctx t (.user v)) = m.ctx := by
      split <;> simp
    rw [hctx]
    exact h.noThread hi hf hn hc

/-- A new primitive of kind `k`, with the data the source gives it. -/
theorem primMade (h : Sim P clean m a) (hi : a.sched.running = some i) {u : U} {act : A}
    {c : Call U} {ret : Option ℕ → U} {g : G} (hf : a.frame i = .user u)
    (hn : P.next act (a.view i) u a.g = some (c, ret, g)) {k : PrimKind}
    (hc : c.makes = some k) {al : Alloc} {p : Addr} {s₁ s' : State}
    (hm : Repr.PrimMade clean m.st a.sched k al p s₁) (hs' : s' = s₁.fillPrim k p) :
    Matched P clean a (.call act al)
      ({ m with g := g, st := s', cpu := .user (ret (some p)) }.forget (some p)) := by
  refine ⟨_, ?_, .primMade hi hf hn hc hm.prim hm.fresh⟩
  have hrepr : Repr clean s' (a.sched.addPrim p) := by
    rcases k with _ | _ | _
    · exact hs' ▸ hm.repr
    · exact hs' ▸ hm.repr.setLock p (-1) 0
    · exact hs' ▸ hm.repr.setCount p 0
  have haddrs : s'.addrs = m.st.addrs := by
    rcases k with _ | _ | _ <;> exact hs' ▸ hm.addrs
  have hslot : s'.slot = m.st.slot := by
    rcases k with _ | _ | _ <;> exact hs' ▸ hm.slot
  have hhist : ∀ {f f' : Addr → List ℕ}, f = f' →
      Function.update f p [] = Function.update f' p [] := fun hf => by rw [hf]
  refine ⟨hrepr, ?_, ?_, ?_, ?_, ?_, ?_, ?_, ?_, ?_, rfl, h.created, h.exited,
    congrArg (Function.update · p 0) h.vs, congrArg (Function.update · p 0) h.ps,
    hhist h.blocked, hhist h.served⟩
  · exact cpu_of_running hi a.frame _
  · intro hj
    cases hi.symm.trans hj
  · intro j t hpj hjr ht
    change s'.addrs j = some t at ht
    rw [haddrs] at ht
    have hji : j ≠ i := fun he => hjr (he ▸ hi)
    change m.ctx t = Function.update a.frame i _ j
    rw [Function.update_of_ne hji]
    exact h.ctx j t hpj hjr ht
  · intro j t hpj ht
    change s'.addrs j = some t at ht
    rw [haddrs] at ht
    change s'.slot t = _
    rw [hslot]
    exact h.slot j t hpj ht
  · change s'.kind = Function.update a.kind p (some k)
    rw [← h.kind, ← hm.kind]
    rcases k with _ | _ | _ <;> rw [hs'] <;> rfl
  · change s'.helder = if k = .lock then Function.update a.helder p (-1) else a.helder
    rw [hs']
    rcases k with _ | _ | _
    · exact hm.helder.trans h.helder
    · exact congrArg (Function.update · p (-1)) (hm.helder.trans h.helder)
    · exact hm.helder.trans h.helder
  · change s'.held = if k = .lock then Function.update a.held p 0 else a.held
    rw [hs']
    rcases k with _ | _ | _
    · exact hm.held.trans h.held
    · exact congrArg (Function.update · p 0) (hm.held.trans h.held)
    · exact hm.held.trans h.held
  · change s'.count = if k = .semaphore then Function.update a.count p 0 else a.count
    rw [hs']
    rcases k with _ | _ | _
    · exact hm.count.trans h.count
    · exact hm.count.trans h.count
    · exact congrArg (Function.update · p 0) (hm.count.trans h.count)
  · change s'.slotUsed = a.slotUsed
    rw [← h.slotUsed, ← hm.slotUsed]
    rcases k with _ | _ | _ <;> rw [hs'] <;> rfl

/-- A primitive is destroyed, and disappears from the scheduler and from the table of kinds
together. -/
theorem primGone (h : Sim P clean m a) (hi : a.sched.running = some i) {u : U} {act : A}
    {al : Alloc} {c : Call U} {ret : Option ℕ → U} {g : G} {p : Addr} (hf : a.frame i = .user u)
    (hn : P.next act (a.view i) u a.g = some (c, ret, g))
    (hc : c = .lockDestory p ∧ a.kind p = some .lock ∨
      c = .semDestory p ∧ a.kind p = some .semaphore)
    {s' : State} (hg : Repr.PrimGone clean m.st a.sched p s') :
    Matched P clean a (.call act al) { m with g := g, st := s', cpu := .user (ret none) } := by
  refine ⟨_, ?_, .primGone hi hf hn hc hg.unused⟩
  refine ⟨hg.repr, ?_, ?_, ?_, ?_, ?_, hg.helder.trans h.helder, hg.held.trans h.held,
    hg.count.trans h.count, hg.slotUsed.trans h.slotUsed, rfl, h.created, h.exited, h.vs, h.ps,
    h.blocked, h.served⟩
  · exact cpu_of_running hi a.frame _
  · intro hj
    cases hi.symm.trans hj
  · intro j t hpj hjr ht
    change s'.addrs j = some t at ht
    rw [hg.addrs] at ht
    have hji : j ≠ i := fun he => hjr (he ▸ hi)
    change m.ctx t = Function.update a.frame i _ j
    rw [Function.update_of_ne hji]
    exact h.ctx j t hpj hjr ht
  · intro j t hpj ht
    change s'.addrs j = some t at ht
    rw [hg.addrs] at ht
    change s'.slot t = _
    rw [hg.slot]
    exact h.slot j t hpj ht
  · exact hg.kind.trans (congrArg (Function.update · p none) h.kind)

/-- `allocman_cspace_alloc` into the slot of the running thread. -/
theorem cspaceAlloc (h : Sim P clean m a) (hi : a.sched.running = some i) {al : Alloc} {s' : State}
    (he : m.st.cspaceAlloc al = .ok s') :
    ∃ sl, al.slot = some sl ∧ a.slotUsed sl = false ∧
      Sim P clean { m with st := s' }
        { a with
          slot := Function.update a.slot i sl
          slotUsed := Function.update a.slotUsed sl true } := by
  obtain ⟨link, c⟩ := h.repr.core
  have hpi : a.sched.place i ≠ .nowhere := by simp [place_running hi]
  unfold State.cspaceAlloc at he
  obtain ⟨run, hrun, he⟩ := bind_eq_ok he
  obtain rfl : link i = run := Option.some.inj ((c.running i hi).1.symm.trans (deref_eq_ok hrun))
  obtain ⟨sl, hal, he⟩ := bind_eq_ok he
  split at he
  · cases he
  rename_i hfree
  obtain rfl := Except.ok.inj he
  refine ⟨sl, deref_eq_ok hal, ?_, ⟨⟨⟨link, ?_⟩, h.repr.counted.ready, h.repr.counted.waiting⟩,
    h.cpu, h.idle, h.ctx, ?_, h.kind, h.helder, h.held, h.count, ?_, h.g, h.created, h.exited, h.vs,
    h.ps, h.blocked, h.served⟩⟩
  · rw [← h.slotUsed]
    exact Bool.eq_false_iff.mpr hfree
  · exact ⟨c.initialised, c.newId, c.addrs, c.record, c.linkLive, c.ready, c.waiting, c.prims,
      c.running, c.status⟩
  · intro j t hpj ht
    change Function.update m.st.slot (m.st.thread (link i)) sl t = Function.update a.slot i sl j
    by_cases hji : j = i
    · subst hji
      obtain rfl : m.st.thread (link j) = t := Option.some.inj ((c.addrs j hpi).symm.trans ht)
      rw [Function.update_self, Function.update_self]
    · have hne : t ≠ m.st.thread (link i) := h.addrs_inj ht (c.addrs i hpi) hji
      rw [Function.update_of_ne hne, Function.update_of_ne hji]
      exact h.slot j t hpj ht
  · exact congrArg (Function.update · sl true) h.slotUsed

theorem checkKind_eq_ok {s : State} {k : PrimKind} {p : Addr} {x : Unit}
    (he : s.checkKind k p = .ok x) : s.kind p = some k := by
  unfold State.checkKind at he
  split at he
  · assumption
  · cases he

theorem destroyPrim_kind {s s' : State} {k : PrimKind} {p : Addr}
    (he : s.destroyPrim k p = .ok s') : s.kind p = some k := by
  unfold State.destroyPrim at he
  split at he
  · cases he
  · rename_i hk
    exact not_not.mp hk

/-- The assertions at the beginning of `thread_lock_acquire_intern`, read on the abstract
machine. -/
theorem acquireEnter (h : Sim P clean m a) (hi : a.sched.running = some i) {l : Addr} {x : Unit}
    (he : m.st.threadLockAcquireEnter l = .ok x) :
    a.kind l = some .lock ∧ a.helder l ≠ i := by
  obtain ⟨_, hk, he⟩ := bind_eq_ok he
  have hne := check_eq_ok he
  rw [h.coCurrentId hi, h.helder] at hne
  exact ⟨h.kind ▸ checkKind_eq_ok hk, by simpa using hne⟩

/-- A call that creates a primitive or fails to. In the second case nothing changes but what the
program learns. -/
theorem makes (h : Sim P clean m a) (hi : a.sched.running = some i) {u : U} {act : A}
    {c : Call U} {ret : Option ℕ → U} {g : G} (hf : a.frame i = .user u)
    (hn : P.next act (a.view i) u a.g = some (c, ret, g)) {k : PrimKind}
    (hc : c.makes = some k) {al : Alloc} {s₁ s' : State} {q : Ptr}
    (he : m.st.createPrim k al = .ok (s₁, q))
    (hs' : s' = q.elim s₁ (s₁.fillPrim k)) :
    Matched P clean a (.call act al)
      ({ m with g := g, st := s', cpu := .user (ret q) }.forget q) := by
  rcases h.repr.createPrim he with ⟨rfl, rfl, hal⟩ | ⟨p, rfl, hm⟩
  · rw [hs']
    exact (h.setG g).act_stay (a := a) rfl rfl hi (.primFail hf hn hc hal)
  · exact h.primMade hi hf hn hc hm hs'

/-- `thread_lock_create` and `thread_semaphore_create` are `sync_prim_initial` and the data. -/
theorem threadLockCreate_eq_ok {s s' : State} {al : Alloc} {q : Ptr}
    (he : s.threadLockCreate al = .ok (s', q)) :
    ∃ s₁, s.createPrim .lock al = .ok (s₁, q) ∧ s' = q.elim s₁ (s₁.fillPrim .lock) := by
  obtain ⟨⟨s₁, _ | p⟩, hs₁, he⟩ := bind_eq_ok he
  · obtain ⟨rfl, rfl⟩ := Prod.mk.inj (Except.ok.inj he)
    exact ⟨_, hs₁, rfl⟩
  · obtain ⟨rfl, rfl⟩ := Prod.mk.inj (Except.ok.inj he)
    exact ⟨_, hs₁, rfl⟩

theorem threadSemaphoreCreate_eq_ok {s s' : State} {al : Alloc} {q : Ptr}
    (he : s.threadSemaphoreCreate al = .ok (s', q)) :
    ∃ s₁, s.createPrim .semaphore al = .ok (s₁, q) ∧ s' = q.elim s₁ (s₁.fillPrim .semaphore) := by
  obtain ⟨⟨s₁, _ | p⟩, hs₁, he⟩ := bind_eq_ok he
  · obtain ⟨rfl, rfl⟩ := Prod.mk.inj (Except.ok.inj he)
    exact ⟨_, hs₁, rfl⟩
  · obtain ⟨rfl, rfl⟩ := Prod.mk.inj (Except.ok.inj he)
    exact ⟨_, hs₁, rfl⟩

/-- `thread_lock_release_intern` frees the lock and wakes a waiter. It does not look at who holds
the lock. -/
theorem releaseIntern (h : Sim P clean m a) (hi : a.sched.running = some i) {l : Addr} {s' : State}
    {tr : Transfer} (he : m.st.threadLockReleaseIntern l = .ok (s', tr)) :
    a.kind l = some .lock ∧
      ∃ sched, Done clean (m.st.setLock l (-1) 0) a.sched i (.wakeup l) s' tr sched := by
  obtain ⟨_, hk, he⟩ := bind_eq_ok he
  exact ⟨h.kind ▸ checkKind_eq_ok hk, ((h.repr.setLock l (-1) 0).threadWakeup hi he).2⟩

/-- `thread_semaphore_V`: the counter stays positive, otherwise the assertion had failed. -/
theorem semV (h : Sim P clean m a) (hi : a.sched.running = some i) {u : U} {act : A} {al : Alloc}
    {ret : Option ℕ → U} {g : G} {p : Addr} (hf : a.frame i = .user u)
    (hn : P.next act (a.view i) u a.g = some (.semV p, ret, g))
    (he : { m with g := g }.call al ret (.semV p) = .ok m') :
    Matched P clean a (.call act al) m' := by
  obtain ⟨s', tr, hs, rfl⟩ := Mach.finish_eq_ok he
  obtain ⟨_, hk, hs⟩ := bind_eq_ok hs
  obtain ⟨_, hpos, hs⟩ := bind_eq_ok hs
  have hcount : m.st.count p = a.count p := congrFun h.count p
  have h₁ := ((h.setG g).setVs (Function.update a.vs p (a.vs p + 1))).setCount p
    (wrap32 (a.count p + 1))
  have hpos' : 0 < wrap32 (a.count p + 1) := by
    have hp := check_eq_ok hpos
    simpa [State.setCount, hcount] using hp
  rw [hcount] at hs
  obtain ⟨_, sched, hd⟩ := h₁.repr.threadWakeup hi hs
  have hm := h₁.act_switch (a := a) (l := .call act al) rfl rfl hi
    (.semV hf hn (h.kind ▸ checkKind_eq_ok hk) hpos') hd (by simp) (by simp)
  rw [← h.vs] at hm
  exact hm

/-- The lines of `thread_join` in front of its loop touch what belongs to the joins only. -/
theorem joinEnter (h : Sim P clean m a) (hi : a.sched.running = some i) {u : U} {act : A}
    {al : Alloc} {ret : Option ℕ → U} {g : G} {id : ℕ} (hf : a.frame i = .user u)
    (hn : P.next act (a.view i) u a.g = some (.join id, ret, g))
    (he : { m with g := g }.call al ret (.join id) = .ok m') :
    Matched P clean a (.call act al) m' := by
  obtain ⟨⟨s', q⟩, hs, he⟩ := bind_eq_ok he
  have hd := (Repr.threadJoinEnter_joinsOnly hs).done (h.setG g).repr hi
  rcases q with _ | ⟨cur, new⟩
  · obtain rfl := Except.ok.inj he
    exact (h.setG g).act_switch (a := a) rfl rfl hi (.join hf hn (.inl rfl)) hd (by simp) (by simp)
  · obtain rfl := Except.ok.inj he
    exact (h.setG g).act_switch (a := a) rfl rfl hi (.join hf hn (.inr ⟨cur, new, rfl⟩)) hd
      (by simp) (by simp)

/-- **A call of user code** in a calm run is matched. One case for each call, each of them settled
by the lemma about the function it calls. -/
theorem call (h : Sim P clean m a) (hi : a.sched.running = some i) {u : U} {act : A} {c : Call U}
    {ret : Option ℕ → U} {g : G} {al : Alloc} (hcpu : m.cpu = .user u)
    (hnext : P.next act m.st.view u m.g = some (c, ret, g))
    (hcalm : Calm P clean m (.call act al))
    (he : { m with g := g }.call al ret c = .ok m') : Matched P clean a (.call act al) m' := by
  have hf : a.frame i = .user u := (h.cpu i hi).symm.trans hcpu
  have hn : P.next act (a.view i) u a.g = some (c, ret, g) := by
    rw [← h.view hi, ← h.g, hnext]
  have h₀ := h.setG g
  have hlock : ∀ l, Sim P clean { m with g := g, st := m.st.setLock l (-1) 0 }
      ({ a with g := g }.setLock l (-1) 0) := fun l => h₀.setLock l (-1) 0
  cases c with
  | pause =>
    obtain rfl := Except.ok.inj he
    exact h₀.act_stay (a := a) rfl rfl hi (.plain hf hn rfl)
  | create v =>
    obtain ⟨⟨s', id⟩, hs, he⟩ := bind_eq_ok he
    obtain rfl := Except.ok.inj he
    exact h.create hi hf hn hs
  | yield =>
    obtain ⟨s', tr, hs, rfl⟩ := Mach.finish_eq_ok he
    rw [h₀.repr.threadYield_eq] at hs
    have htarget := hcalm.target (a.sched.ready.headD 0) (by
      simp only [Mach.target, hcpu, hnext]
      rw [h.repr.yieldTarget])
    exact h₀.act_resume (a := a) rfl rfl hi (.plain hf hn rfl) hs htarget
  | resume id =>
    obtain ⟨s', tr, hs, rfl⟩ := Mach.finish_eq_ok he
    have htarget := hcalm.target id (by simp only [Mach.target, hcpu, hnext])
    exact h₀.act_resume (a := a) rfl rfl hi (.plain hf hn rfl) hs htarget
  | exit =>
    obtain ⟨s', tr, hs, rfl⟩ := Mach.finish_eq_ok he
    have hback := hcalm.exit ⟨act, al, u, ret, g, rfl, hcpu, hnext⟩
    have hm := h.exit hi hf hn hback hs (.user (ret none)) al
    rwa [← h.coCurrentId hi] at hm
  | sleep p =>
    obtain ⟨s', tr, hs, rfl⟩ := Mach.finish_eq_ok he
    obtain ⟨sched, hd⟩ := h₀.repr.threadSleep hi hs
    exact h₀.act_switch (a := a) rfl rfl hi (.plain hf hn rfl) hd (by simp) (by simp)
  | wakeup p | cvSignal p =>
    obtain ⟨s', tr, hs, rfl⟩ := Mach.finish_eq_ok he
    obtain ⟨_, sched, hd⟩ := h₀.repr.threadWakeup hi hs
    exact h₀.act_switch (a := a) rfl rfl hi (.plain hf hn rfl) hd (by simp) (by simp)
  | wakeupWait p =>
    obtain ⟨s', tr, hs, rfl⟩ := Mach.finish_eq_ok he
    obtain ⟨_, sched, hd⟩ := h₀.repr.threadWakeupWait hi hs
    exact h₀.act_switch (a := a) rfl rfl hi (.plain hf hn rfl) hd (by simp) (by simp)
  | primInit =>
    obtain ⟨⟨s', q⟩, hs, he⟩ := bind_eq_ok he
    obtain rfl := Except.ok.inj he
    exact h.makes hi hf hn rfl hs (by cases q <;> rfl)
  | lockCreate =>
    obtain ⟨⟨s', q⟩, hs, he⟩ := bind_eq_ok he
    obtain rfl := Except.ok.inj he
    obtain ⟨s₁, hs₁, hs⟩ := threadLockCreate_eq_ok hs
    exact h.makes hi hf hn rfl hs₁ hs
  | semCreate =>
    obtain ⟨⟨s', q⟩, hs, he⟩ := bind_eq_ok he
    obtain rfl := Except.ok.inj he
    obtain ⟨s₁, hs₁, hs⟩ := threadSemaphoreCreate_eq_ok hs
    exact h.makes hi hf hn rfl hs₁ hs
  | lockDestory l =>
    obtain ⟨s', hs, he⟩ := bind_eq_ok he
    obtain rfl := Except.ok.inj he
    exact h.primGone hi hf hn (.inl ⟨rfl, h.kind ▸ destroyPrim_kind hs⟩) (h.repr.destroyPrim hs)
  | semDestory p =>
    obtain ⟨s', hs, he⟩ := bind_eq_ok he
    obtain rfl := Except.ok.inj he
    exact h.primGone hi hf hn (.inr ⟨rfl, h.kind ▸ destroyPrim_kind hs⟩) (h.repr.destroyPrim hs)
  | acquire l =>
    obtain ⟨_, hs, he⟩ := bind_eq_ok he
    obtain rfl := Except.ok.inj he
    obtain ⟨hk, hh⟩ := h₀.acquireEnter hi hs
    exact h₀.act_stay (a := a) rfl rfl hi (.acquire hf hn hk hh)
  | release l =>
    obtain ⟨s', tr, hs, rfl⟩ := Mach.finish_eq_ok he
    obtain ⟨hk, sched, hd⟩ := h.releaseIntern hi hs
    exact (hlock l).act_switch (a := a) rfl rfl hi (.release hf hn hk) hd (by simp) (by simp)
  | cvWait cv l =>
    obtain ⟨s', tr, hs, rfl⟩ := Mach.finish_eq_ok he
    obtain ⟨hk, sched, hd⟩ := h.releaseIntern hi hs
    exact (hlock l).act_switch (a := a) rfl rfl hi (.cvWait hf hn hk) hd (by simp) (by simp)
  | releaseAcquire l =>
    obtain ⟨s', tr, hs, rfl⟩ := Mach.finish_eq_ok he
    obtain ⟨_, hk, hs⟩ := bind_eq_ok hs
    obtain ⟨_, sched, hd⟩ := (hlock l).repr.threadWakeupWait hi hs
    exact (hlock l).act_switch (a := a) rfl rfl hi
      (.releaseAcquire hf hn (h.kind ▸ checkKind_eq_ok hk)) hd (by simp) (by simp)
  | semP p =>
    obtain rfl := Except.ok.inj he
    exact h₀.act_stay (a := a) rfl rfl hi (.semP hf hn)
  | semV p => exact h.semV hi hf hn he
  | join id => exact h.joinEnter hi hf hn he
  | cspaceAlloc =>
    obtain ⟨s', hs, he⟩ := bind_eq_ok he
    obtain rfl := Except.ok.inj he
    obtain ⟨sl, hal, hfree, h₁⟩ := h₀.cspaceAlloc hi hs
    rw [hal]
    exact h₁.act_stay (a := a) rfl rfl hi (.cspaceAlloc hf hn hfree)

/-- One turn of a waiting loop that goes on: it tests again, or the thread sleeps. -/
theorem loop_again (h : Sim P clean m a) (hi : a.sched.running = some i) {p : Addr}
    (hp : a.kind p ≠ none) {fr : Bool → Frame U} {b : Bool} {u : U} {s' : State} {tr : Transfer}
    (hspin : a.sched.ready = [] → Act P a i .turn a (fr b) .stay)
    (hsleep : a.sched.ready ≠ [] → Act P a i .turn (a.block p i) (fr true) (.sleep p))
    (he : m.st.threadSleep p = .ok (s', tr)) :
    Matched P clean a .turn (m.loop p fr b u (s', .again tr)) := by
  rcases hr : a.sched.ready with _ | ⟨j, tl⟩
  · obtain ⟨heq, -⟩ := h.repr.threadSleep_none hi hr
    obtain ⟨rfl, rfl⟩ := Prod.mk.inj (Except.ok.inj (heq.symm.trans he))
    exact h.act_stay (a := a) rfl rfl hi (hspin hr)
  · obtain ⟨link, c⟩ := h.repr.core
    have hprim : p ∈ a.sched.prims := (c.prims p).mpr (h.kind ▸ hp)
    obtain ⟨s'', ti, tj, sched, heq, hd⟩ := h.repr.threadSleep_ready hi hprim hr
    obtain ⟨rfl, rfl⟩ := Prod.mk.inj (Except.ok.inj (heq.symm.trans he))
    have h₁ := h.setBlocked (Function.update a.blocked p (a.blocked p ++ [i]))
    have hm := h₁.act_switch (a := a) rfl rfl hi (hsleep (by simp [hr])) hd (by simp) (by simp)
    have hco := h.coCurrentId hi
    simp only [← h.blocked] at hm
    unfold Mach.loop
    rw [hco]
    exact hm

/-- One turn of the loop of `thread_lock_acquire_intern`: the lock is taken, or the thread sleeps,
or it spins. -/
theorem acquireTurn (h : Sim P clean m a) (hi : a.sched.running = some i) {b : Bool} {l : Addr}
    {u : U} (hf : a.frame i = .acquire b l u) (he : m.turn = .ok m') :
    Matched P clean a .turn m' := by
  rw [Mach.turn, (h.cpu i hi).trans hf] at he
  obtain ⟨r, hs, he⟩ := bind_eq_ok he
  obtain rfl := Except.ok.inj he
  obtain ⟨_, hk, hs⟩ := bind_eq_ok hs
  have hk' : a.kind l = some .lock := h.kind ▸ checkKind_eq_ok hk
  rw [h.held] at hs
  split at hs
  · rename_i hh
    obtain ⟨⟨s', tr⟩, hsl, hs⟩ := bind_eq_ok hs
    obtain rfl := Except.ok.inj hs
    exact h.loop_again hi (by simp [hk']) (.acquireSpin hf hk' hh) (.acquireSleep hf hk' hh) hsl
  · rename_i hh
    obtain ⟨link, c⟩ := h.repr.core
    have hpi : a.sched.place i ≠ .nowhere := by simp [place_running hi]
    rw [(c.running i hi).1, deref_some] at hs
    obtain ⟨_, hrun, hs⟩ := bind_eq_ok hs
    obtain rfl := Except.ok.inj hrun
    obtain rfl := Except.ok.inj hs
    rw [c.tId hpi]
    have h₁ := (h.setServed (if b then Function.update a.served l (a.served l ++ [i])
      else a.served)).setLock l i 1
    have hm := h₁.act_stay (a := a) rfl rfl hi (.acquireDone hf hk' (not_not.mp hh))
    simp only [← h.served] at hm
    unfold Mach.loop
    rw [h.coCurrentId hi]
    exact hm

/-- One turn of the loop of `thread_semaphore_P`: a unit is taken, or the thread sleeps, or it
spins. -/
theorem semPTurn (h : Sim P clean m a) (hi : a.sched.running = some i) {b : Bool} {p : Addr}
    {u : U} (hf : a.frame i = .semP b p u) (he : m.turn = .ok m') :
    Matched P clean a .turn m' := by
  rw [Mach.turn, (h.cpu i hi).trans hf] at he
  obtain ⟨r, hs, he⟩ := bind_eq_ok he
  obtain rfl := Except.ok.inj he
  obtain ⟨_, hk, hs⟩ := bind_eq_ok hs
  have hk' : a.kind p = some .semaphore := h.kind ▸ checkKind_eq_ok hk
  have hcount : m.st.count p = a.count p := congrFun h.count p
  rw [hcount] at hs
  split at hs
  · rename_i hc
    obtain ⟨⟨s', tr⟩, hsl, hs⟩ := bind_eq_ok hs
    obtain rfl := Except.ok.inj hs
    exact h.loop_again hi (by simp [hk']) (.semPSpin hf hk' hc) (.semPSleep hf hk' hc) hsl
  · obtain ⟨_, hpos, hs⟩ := bind_eq_ok hs
    obtain rfl := Except.ok.inj hs
    have hpos' : 0 < a.count p := by simpa using check_eq_ok hpos
    have h₁ := ((h.setPs (Function.update a.ps p (a.ps p + 1))).setServed
      (if b then Function.update a.served p (a.served p ++ [i]) else a.served)).setCount p
      (wrap32 (a.count p - 1))
    have hm := h₁.act_stay (a := a) rfl rfl hi (.semPDone hf hk' hpos')
    simp only [← h.served, ← h.ps] at hm
    simp only [Mach.loop, h.coCurrentId hi]
    exact hm

/-- One turn of the loop of `thread_join`: the join is over, or another thread is resumed. -/
theorem joinTurn (h : Sim P clean m a) (hi : a.sched.running = some i) {cur new : Addr} {id : ℕ}
    {u : U} (hf : a.frame i = .join cur new id u) (hcalm : Calm P clean m (.turn : Label A E))
    (he : m.turn = .ok m') : Matched P clean a .turn m' := by
  have hcpu : m.cpu = .join cur new id u := (h.cpu i hi).trans hf
  rw [Mach.turn, hcpu] at he
  obtain ⟨⟨s', t⟩, hs, he⟩ := bind_eq_ok he
  obtain ⟨bl, hb, hs⟩ := bind_eq_ok hs
  split at hs
  · obtain ⟨s₁, hs₁, hs⟩ := bind_eq_ok hs
    obtain ⟨rfl, rfl⟩ := Prod.mk.inj (Except.ok.inj hs)
    obtain rfl := Except.ok.inj he
    have hj : Repr.JoinsOnly m.st { s₁ with join := Function.update s₁.join cur none } := by
      obtain ⟨_, _, _, _, _, _, _, _, rfl⟩ := Repr.deleteJoinBlock_joinsOnly hs₁
      exact ⟨_, _, _, _, _, _, _, _, rfl⟩
    exact h.act_switch (a := a) rfl rfl hi (.joinDone hf) (hj.done h.repr hi) (by simp) (by simp)
  · rename_i hnj
    have htarget : m.target P (.turn : Label A E) = match m.st.status new with
        | .ready => some id
        | .waiting => some m.st.yieldTarget
        | .running => none := by
      simp only [Mach.target, hcpu, State.joinTarget, deref_eq_ok hb, hnj, if_false,
        Bool.false_eq_true]
    split at hs
    · rename_i hst
      obtain ⟨⟨s₁, tr⟩, hs₁, hs⟩ := bind_eq_ok hs
      obtain ⟨rfl, rfl⟩ := Prod.mk.inj (Except.ok.inj hs)
      obtain rfl := Except.ok.inj he
      have hc := hcalm.target id (by rw [htarget, hst])
      exact h.act_resume (a := a) rfl rfl hi (.joinAgain id hf) hs₁ hc
    · rename_i hst
      obtain ⟨⟨s₁, tr⟩, hs₁, hs⟩ := bind_eq_ok hs
      obtain ⟨rfl, rfl⟩ := Prod.mk.inj (Except.ok.inj hs)
      obtain rfl := Except.ok.inj he
      have hc := hcalm.target _ (by rw [htarget, hst])
      rw [h.repr.threadYield_eq] at hs₁
      rw [h.repr.yieldTarget] at hc
      exact h.act_resume (a := a) rfl rfl hi (.joinAgain _ hf) hs₁ hc
    · cases hs

/-- **A turn inside the library** in a calm run is matched, whichever function the thread is in. -/
theorem turn (h : Sim P clean m a) (hi : a.sched.running = some i)
    (hcalm : Calm P clean m (.turn : Label A E)) (he : m.turn = .ok m') :
    Matched P clean a .turn m' := by
  cases hf : a.frame i with
  | user u =>
    rw [Mach.turn, (h.cpu i hi).trans hf] at he
    cases he
  | acquire b l u => exact h.acquireTurn hi hf he
  | relAcq l u =>
    rw [Mach.turn, (h.cpu i hi).trans hf] at he
    obtain rfl := Except.ok.inj he
    exact h.act_stay (a := a) rfl rfl hi (.relAcq hf)
  | semP b p u => exact h.semPTurn hi hf he
  | cvSleep cv l u =>
    rw [Mach.turn, (h.cpu i hi).trans hf] at he
    obtain ⟨s', tr, hs, rfl⟩ := Mach.finish_eq_ok he
    obtain ⟨sched, hd⟩ := h.repr.threadSleep hi hs
    exact h.act_switch (a := a) rfl rfl hi (.cvSleep hf) hd (by simp) (by simp)
  | cvAcquire cv l u =>
    rw [Mach.turn, (h.cpu i hi).trans hf] at he
    obtain ⟨_, hs, he⟩ := bind_eq_ok he
    obtain rfl := Except.ok.inj he
    obtain ⟨hk, hh⟩ := h.acquireEnter hi hs
    exact h.act_stay (a := a) rfl rfl hi (.cvAcquire hf hk hh)
  | join cur new id u => exact h.joinTurn hi hf hcalm he

/-- A freed record is read by nobody, so its contents may change at any time. -/
theorem scribble (h : Sim P clean m a) {t : Addr} (ht : m.st.threadLive t = false) (junk : State) :
    Sim P clean { m with st := m.st.scribble t junk } a := by
  obtain ⟨link, c⟩ := h.repr.core
  have hne : ∀ k r, m.st.addrs k = some r → r ≠ t := fun k r hr => c.ne_of_not_live ht hr
  refine ⟨h.repr.of_core (c.scribble ht junk) rfl rfl rfl rfl rfl, h.cpu, h.idle, h.ctx, ?_, h.kind,
    h.helder, h.held, h.count, h.slotUsed, h.g, h.created, h.exited, h.vs, h.ps, h.blocked,
    h.served⟩
  intro k r hpk hr
  change Function.update m.st.slot t _ r = a.slot k
  rw [Function.update_of_ne (hne k r hr)]
  exact h.slot k r hpk hr

/-- **One step of a calm run** is a step of the abstract machine, unless a freed record changes. In
that case the abstract machine stands still. -/
theorem step_of_ne (h : Sim P clean m a) {l : Label A E} (hcalm : Calm P clean m l)
    (he : m.step P l = .ok m') (hl : ∀ t junk, l ≠ .scribble t junk) : Matched P clean a l m' := by
  rcases l with ⟨act, al⟩ | _ | e | ⟨t, junk⟩
  · obtain ⟨u, hcpu⟩ : ∃ u, m.cpu = .user u := by
      cases hcpu : m.cpu <;> simp only [Mach.step, hcpu] at he <;> first | exact ⟨_, rfl⟩ | cases he
    simp only [Mach.step, hcpu] at he
    rcases hnext : P.next act m.st.view u m.g with _ | ⟨c, ret, g⟩
    · simp only [hnext] at he
      cases he
    simp only [hnext] at he
    rcases hi : a.sched.running with _ | i
    · obtain ⟨_, _, u', hu', hno⟩ := h.idle hi
      obtain rfl : u = u' := Frame.user.inj (hcpu.symm.trans hu')
      cases hnext.symm.trans (hno act m.st.view m.g)
    exact h.call hi hcpu hnext hcalm he
  · rcases hi : a.sched.running with _ | i
    · obtain ⟨_, _, u, hu, -⟩ := h.idle hi
      simp only [Mach.step, Mach.turn, hu] at he
      cases he
    exact h.turn hi hcalm he
  · rcases hg : P.env e m.g with _ | g
    · simp only [Mach.step, hg] at he
      cases he
    simp only [Mach.step, hg] at he
    obtain rfl := Except.ok.inj he
    exact ⟨_, h.setG g, .env (h.g ▸ hg)⟩
  · exact absurd rfl (hl t junk)

/-- **One step of a calm run** is a step of the abstract machine, or none. -/
theorem step (h : Sim P clean m a) {l : Label A E} (hcalm : Calm P clean m l)
    (he : m.step P l = .ok m') : ∃ a', Sim P clean m' a' ∧ (a' = a ∨ AStep P a l a') := by
  by_cases hl : ∃ t junk, l = .scribble t junk
  · obtain ⟨t, junk, rfl⟩ := hl
    simp only [Mach.step] at he
    split at he
    · cases he
    rename_i ht
    obtain rfl := Except.ok.inj he
    exact ⟨a, h.scribble (Bool.eq_false_iff.mpr ht) junk, .inl rfl⟩
  · obtain ⟨a', h', hs⟩ := h.step_of_ne hcalm he fun t junk hl' => hl ⟨t, junk, hl'⟩
    exact ⟨a', h', .inr hs⟩

/-- The machine after `thread_initial` is represented by an initial abstract machine. -/
theorem boot {mem : State} (hb : Blank mem) {t link : Addr} {g : G} (hg : P.init g)
    (hst : clean → mem.status t = .running) :
    ∃ a : AMach U G, a.Init P ∧ Sim P clean (Mach.boot P mem t link g) a := by
  refine ⟨{
    sched := .initial, frame := fun _ => .user P.main, kind := mem.kind, helder := mem.helder,
    held := mem.held, count := mem.count, slot := fun _ => mem.slot t, slotUsed := mem.slotUsed,
    g := g, created := fun i => i == 0, exited := fun _ => false, vs := fun _ => 0,
    ps := fun _ => 0, blocked := fun _ => [], served := fun _ => [] }, ?_, ?_⟩
  · exact ⟨rfl, rfl, rfl, rfl, fun i hi => initial_place_of_ne hi, rfl, hb.kind, hg,
      fun _ => rfl, fun _ => rfl, fun _ => rfl, fun _ => rfl, fun _ => rfl, fun _ => rfl⟩
  · refine ⟨⟨⟨fun _ => link, Core.threadInitial hb hst⟩, rfl, rfl⟩, fun _ _ => rfl, nofun,
      fun _ _ _ _ _ => rfl, ?_, rfl, rfl, rfl, rfl, rfl, rfl, rfl, rfl, rfl, rfl, rfl, rfl⟩
    intro i r hi hr
    have hi0 : i = 0 := by
      by_contra hne
      exact hi (initial_place_of_ne hne)
    subst hi0
    obtain rfl : t = r := Option.some.inj hr
    rfl

end Sim

/-- **Refinement.** Runs of the machine, all of whose steps are calm, are runs of the abstract
machine. That the steps are calm may be shown from what the abstract machine keeps up so far; a
condition `ok` on abstract steps can be carried over from the concrete steps. -/
theorem simulation {P : Program U G A E} {clean : Prop} {T : Lts (Mach U G) (Label A E)}
    {ok : AMach U G → Label A E → Prop}
    (h₀ : ∀ m, T.init m → P.runs.init m ∧
      (clean → ∀ t, m.st.addrs 0 = some t → m.st.status t = .running))
    (h₁ : ∀ m l m' a, Reach (P.aruns.guard ok) a → Sim P clean m a → T.step m l m' →
      P.runs.step m l m' ∧ Calm P clean m l ∧ ok a l) :
    Simulation T (P.aruns.guard ok) (Sim P clean) := by
  constructor
  · intro m hm
    obtain ⟨⟨mem, t, link, g, hb, hg, rfl⟩, hst⟩ := h₀ m hm
    exact Sim.boot hb hg fun hc => hst hc t rfl
  · intro m l m' a ha hs hstep
    obtain ⟨he, hcalm, hok⟩ := h₁ m l m' a ha hs hstep
    obtain ⟨a', hs', rfl | hstep'⟩ := hs.step hcalm he
    · exact ⟨_, hs', .inl rfl⟩
    · exact ⟨a', hs', .inr ⟨l, hok, hstep'⟩⟩

end GreenLib
