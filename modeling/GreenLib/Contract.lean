import GreenLib.Join
import GreenLib.Registry
import GreenLib.Semaphore

/-!
# What the library asks of its callers

The functions of the library check little. They assert that a lock is not acquired twice by the same
thread and that a primitive is destroyed with nobody waiting on it; beyond that they follow whatever
pointer they are given, and `addrs` has room for `MAX_CAPACITY` threads only. `Call.Contract` states
what a caller has to see to, function by function: pass primitives of the right kind, resume ready
threads, destroy a primitive only when no thread is going to look at it again, and so on.
`thread_join` cannot be called at all, because its last lines read the record of the thread it has
waited for, which has been freed by then.

The contract is enough. In a run of a program that hands over and whose threads keep the contract,
every call and every turn of a waiting loop goes through: no assertion fails, no null or dangling
pointer is followed, nothing is read behind `addrs` and no walk over a list is endless
(`library_faultless`). What is left to prove for a program is then only that its calls keep the
contract.

The waiting loops are the reason why this is a statement about runs. A thread that has kept the
contract when it called `thread_lock_acquire` looks at the lock again each time it is woken, and by
then other threads have made other calls. What its frame relies on is `Frame.Sound`, and the rest of
the module shows that no call of another thread takes it away.
-/

namespace GreenLib

open State Sched

variable {U G A E : Type}

/-! ## The contract -/

/-- A thread that continues at this frame is going to look at `p`, so `p` must not be destroyed
before. -/
def Frame.uses (p : Addr) : Frame U → Bool
  | .acquire _ l _ => l == p
  | .semP _ sem _ => sem == p
  | .cvSleep cv l _ => cv == p || l == p
  | .cvAcquire _ l _ => l == p
  | _ => false

/-- What a contract can speak of: what a caller can know about the library before the call. -/
structure Terms : Type where
  newId : ℕ
  ready : List ℕ
  kind : Addr → Option PrimKind
  helder : Addr → ℤ
  count : Addr → ℤ
  caller : ℕ
  /-- nobody waits on the primitive or is going to look at it -/
  unused : Addr → Prop

/-- **The contract** of each function of the library: what a caller has to see to, since the
function does not check it or aborts if it does not hold. -/
def Call.Contract (t : Terms) : Call U → Prop
  | .create _ => t.newId < maxCapacity
  | .resume id => id ∈ t.ready ∨ id = 0 ∧ t.caller ≠ 0
  | .sleep p => t.kind p ≠ none
  | .wakeup p => t.kind p ≠ none
  | .wakeupWait p => t.kind p ≠ none
  | .cvSignal cv => t.kind cv ≠ none
  | .lockDestory l => t.kind l = some .lock ∧ t.unused l
  | .acquire l => t.kind l = some .lock ∧ t.helder l ≠ t.caller
  | .release l => t.kind l = some .lock
  | .releaseAcquire l => t.kind l = some .lock
  | .semDestory sem => t.kind sem = some .semaphore ∧ t.unused sem
  | .semP sem => t.kind sem = some .semaphore
  | .semV sem => t.kind sem = some .semaphore ∧ t.count sem < 2 ^ 31 - 1
  | .cvWait cv l => t.kind cv ≠ none ∧ t.kind l = some .lock
  | .join _ => False
  | .pause => True
  | .yield => True
  | .exit => True
  | .primInit => True
  | .lockCreate => True
  | .semCreate => True
  | .cspaceAlloc => True

instance (m : Mach U G) (i : ℕ) : Decidable (m.Live i) := inferInstanceAs (Decidable (_ ∧ _ ∧ _))

/-- The primitive is not in use: nobody is in its queue, and no live thread is inside a function
that is going to look at it. -/
def Mach.Unused (m : Mach U G) (p : Addr) : Prop :=
  m.st.waitingIds p = [] ∧
    ∀ j < m.st.newId, m.Live j → ∀ fr ∈ m.frameOf j, fr.uses p = false

instance (m : Mach U G) (p : Addr) : Decidable (m.Unused p) := inferInstanceAs (Decidable (_ ∧ _))

/-- What the running thread of a machine can make sure of before it calls. -/
def Mach.terms (m : Mach U G) : Terms where
  newId := m.st.newId
  ready := m.st.readyIds
  kind := m.st.kind
  helder := m.st.helder
  count := m.st.count
  caller := m.st.coCurrentId
  unused := m.Unused

instance (m : Mach U G) (c : Call U) : Decidable (c.Contract m.terms) :=
  match c with
  | .create _ => inferInstanceAs (Decidable (m.st.newId < maxCapacity))
  | .resume id => inferInstanceAs (Decidable (id ∈ m.st.readyIds ∨ id = 0 ∧ m.st.coCurrentId ≠ 0))
  | .sleep p => inferInstanceAs (Decidable (m.st.kind p ≠ none))
  | .wakeup p => inferInstanceAs (Decidable (m.st.kind p ≠ none))
  | .wakeupWait p => inferInstanceAs (Decidable (m.st.kind p ≠ none))
  | .cvSignal p => inferInstanceAs (Decidable (m.st.kind p ≠ none))
  | .lockDestory p => inferInstanceAs (Decidable (m.st.kind p = some .lock ∧ m.Unused p))
  | .acquire p =>
    inferInstanceAs (Decidable (m.st.kind p = some .lock ∧ m.st.helder p ≠ m.st.coCurrentId))
  | .release p => inferInstanceAs (Decidable (m.st.kind p = some .lock))
  | .releaseAcquire p => inferInstanceAs (Decidable (m.st.kind p = some .lock))
  | .semDestory p => inferInstanceAs (Decidable (m.st.kind p = some .semaphore ∧ m.Unused p))
  | .semP p => inferInstanceAs (Decidable (m.st.kind p = some .semaphore))
  | .semV p =>
    inferInstanceAs (Decidable (m.st.kind p = some .semaphore ∧ m.st.count p < 2 ^ 31 - 1))
  | .cvWait cv l => inferInstanceAs (Decidable (m.st.kind cv ≠ none ∧ m.st.kind l = some .lock))
  | .join _ => inferInstanceAs (Decidable False)
  | .pause | .yield | .exit | .primInit | .lockCreate | .semCreate | .cspaceAlloc =>
    inferInstanceAs (Decidable True)

/-- If the step is a call, it keeps the contract. Turns of the waiting loops are no calls and owe
nothing. -/
def KeepsContract (P : Program U G A E) (m : Mach U G) (l : Label A E) : Prop :=
  ∀ c ∈ m.callOf P l, c.Contract m.terms

instance (P : Program U G A E) (m : Mach U G) (l : Label A E) : Decidable (KeepsContract P m l) :=
  inferInstanceAs (Decidable (∀ c ∈ m.callOf P l, c.Contract m.terms))

/-! ## The contract on the abstract machine -/

/-- What thread `i` of the abstract machine can make sure of before it calls. -/
def AMach.terms (a : AMach U G) (i : ℕ) : Terms where
  newId := a.sched.newId
  ready := a.sched.ready
  kind := a.kind
  helder := a.helder
  count := a.count
  caller := i
  unused p := a.sched.waiting p = [] ∧
    ∀ j, j ≠ 0 → a.sched.place j ≠ .nowhere → (a.frame j).uses p = false

/-- If the step is a call, it keeps the contract, in the terms of the abstract machine. -/
def AMach.KeepsContract (P : Program U G A E) (a : AMach U G) (l : Label A E) : Prop :=
  ∀ i c, a.sched.running = some i → a.Calls P l c → c.Contract (a.terms i)

section Abstract

variable {P : Program U G A E} {m : Mach U G} {a a' : AMach U G} {l : Label A E} {i j : ℕ}

theorem Sim.unused_iff (h : Sim P False m a) (hok : a.Ok) {p : Addr} (hp : m.st.kind p ≠ none) :
    m.Unused p ↔ (a.terms i).unused p := by
  obtain ⟨link, c⟩ := h.repr.core
  change _ ∧ _ ↔ _ ∧ _
  rw [h.repr.waitingIds ((c.prims p).mpr hp)]
  refine and_congr_right fun _ => ⟨fun hall j h0 hj => ?_, fun hall j _ hj fr hfr => ?_⟩
  · refine hall j ?_ ((h.live_iff hok).mpr ⟨h0, hj⟩) _ (h.frameOf h0 hj)
    rw [c.newId]
    exact a.sched.place_lt hj
  · obtain ⟨h0, hplace⟩ := (h.live_iff hok).mp hj
    rw [h.frameOf h0 hplace] at hfr
    exact Option.some.inj hfr ▸ hall j h0 hplace

/-- The contract says the same on both machines, so a program may be shown to keep it on the simpler
one. -/
theorem Sim.contract_iff (h : Sim P False m a) (hok : a.Ok) (hi : a.sched.running = some i)
    (c : Call U) : c.Contract m.terms ↔ c.Contract (a.terms i) := by
  obtain ⟨link, core⟩ := h.repr.core
  have hunused : ∀ p k, m.st.kind p = some k ∧ m.Unused p ↔
      a.kind p = some k ∧ (a.terms i).unused p := by
    intro p k
    rw [h.kind]
    refine and_congr_right fun hp => h.unused_iff hok ?_
    rw [h.kind, hp]
    nofun
  cases c with
  | lockDestory p => exact hunused p .lock
  | semDestory p => exact hunused p .semaphore
  | _ =>
    simp only [Call.Contract, Mach.terms, AMach.terms, h.kind, h.helder, h.count, h.repr.readyIds,
      h.coCurrentId hi, core.newId]

/-! ## What a frame relies on -/

/-- What thread `i` relies on when it continues at this frame. Nobody can rely on anything inside
`thread_join`. -/
def Frame.Sound (kind : Addr → Option PrimKind) (helder : Addr → ℤ) (i : ℕ) : Frame U → Prop
  | .user _ => True
  | .acquire _ l _ => kind l = some .lock
  | .relAcq _ _ => True
  | .semP _ sem _ => kind sem = some .semaphore
  | .cvSleep cv l _ => kind cv ≠ none ∧ kind l = some .lock ∧ helder l ≠ i
  | .cvAcquire _ l _ => kind l = some .lock ∧ helder l ≠ i
  | .join _ _ _ _ => False

/-- A frame relies on the primitives it uses only, and on not holding the lock it is about to
acquire. -/
theorem Frame.Sound.mono {fr : Frame U} {kind kind' : Addr → Option PrimKind}
    {helder helder' : Addr → ℤ} (h : fr.Sound kind helder i)
    (hkind : ∀ p, fr.uses p = true → kind' p = kind p)
    (hhelder : ∀ p, helder' p = i → helder p = i) : fr.Sound kind' helder' i := by
  cases fr with
  | user u => trivial
  | acquire b l u =>
    change kind' l = _
    rw [hkind l (by simp [Frame.uses])]
    exact h
  | relAcq l u => trivial
  | semP b sem u =>
    change kind' sem = _
    rw [hkind sem (by simp [Frame.uses])]
    exact h
  | cvSleep cv l u =>
    obtain ⟨hcv, hl, hh⟩ := h
    refine ⟨?_, ?_, fun he => hh (hhelder l he)⟩
    · rwa [hkind cv (by simp [Frame.uses])]
    · rwa [hkind l (by simp [Frame.uses])]
  | cvAcquire cv l u =>
    obtain ⟨hl, hh⟩ := h
    refine ⟨?_, fun he => hh (hhelder l he)⟩
    rwa [hkind l (by simp [Frame.uses])]
  | join cur new id u => exact h

/-- What a frame uses is allocated, so a new primitive is none of those in use. -/
theorem Frame.Sound.kind_ne_none {fr : Frame U} {kind : Addr → Option PrimKind} {helder : Addr → ℤ}
    (h : fr.Sound kind helder i) {p : Addr} (hp : fr.uses p = true) : kind p ≠ none := by
  cases fr with
  | acquire b l u =>
    obtain rfl : l = p := by simpa [Frame.uses] using hp
    simp [show kind l = _ from h]
  | semP b sem u =>
    obtain rfl : sem = p := by simpa [Frame.uses] using hp
    simp [show kind sem = _ from h]
  | cvSleep cv l u =>
    obtain rfl | rfl : cv = p ∨ l = p := by simpa [Frame.uses] using hp
    · exact h.1
    · simp [h.2.1]
  | cvAcquire cv l u =>
    obtain rfl : l = p := by simpa [Frame.uses] using hp
    simp [h.1]
  | _ => cases hp

/-- **What the library relies on** between two steps: all threads but thread 0 can go on where they
are, and no counter has overflowed. -/
structure AMach.Sound (a : AMach U G) : Prop where
  frame : ∀ i, i ≠ 0 → a.sched.place i ≠ .nowhere → (a.frame i).Sound a.kind a.helder i
  count : ∀ p, a.kind p = some .semaphore → 0 ≤ a.count p ∧ a.count p < 2 ^ 31

/-- Where the acting thread continues is sound, by the contract if it makes a call and by its frame
if it makes a turn. -/
theorem Act.sound {b : AMach U G} {fr : Frame U} {r : Req Addr} (hact : Act P a i l b fr r)
    (hi : a.sched.running = some i) (hkeep : a.KeepsContract P l)
    (hfr : (a.frame i).Sound a.kind a.helder i) : fr.Sound b.kind b.helder i := by
  have hcontract : ∀ {act al u c ret g}, l = .call act al → a.frame i = .user u →
      P.next act (a.view i) u a.g = some (c, ret, g) → c.Contract (a.terms i) := by
    intro act al u c ret g hl hf hn
    exact hkeep i c hi ⟨i, act, al, u, ret, g, hl, hi, hf, hn⟩
  cases hact with
  | acquire hf hn hk => exact hk
  | semP hf hn => exact hcontract rfl hf hn
  | @cvWait _ _ _ cv lk _ _ hf hn hk =>
    refine ⟨(hcontract rfl hf hn).1, hk, ?_⟩
    change Function.update a.helder lk (-1) lk ≠ i
    rw [Function.update_self]
    omega
  | join hf hn => exact (hcontract rfl hf hn).elim
  | acquireSpin hf hk => exact hk
  | acquireSleep hf hk => exact hk
  | semPSpin hf hk => exact hk
  | semPSleep hf hk => exact hk
  | cvSleep hf =>
    rw [hf] at hfr
    exact hfr.2
  | cvAcquire hf hk => exact hk
  | joinAgain _ hf =>
    rw [hf] at hfr
    exact hfr.elim
  | _ => trivial

/-- Whom a lock names: the same thread as before, or the acting one, which has just acquired it. -/
theorem Act.helder_cases {b : AMach U G} {fr : Frame U} {r : Req Addr} (hact : Act P a i l b fr r)
    {p : Addr} (hp : b.helder p = j) : a.helder p = j ∨
      j = i ∧ ∃ slept u, a.frame i = .acquire slept p u ∧ fr = .user u := by
  have hset : ∀ (lk : Addr) (x : ℤ), Function.update a.helder lk x p = j →
      a.helder p = j ∨ p = lk ∧ x = j := by
    intro lk x he
    rcases eq_or_ne p lk with rfl | hne
    · rw [Function.update_self] at he
      exact .inr ⟨rfl, he⟩
    · rw [Function.update_of_ne hne] at he
      exact .inl he
  cases hact with
  | release | releaseAcquire | cvWait => exact (hset _ _ hp).imp_right fun hne => by omega
  | @acquireDone slept lk u hf =>
    refine (hset _ _ hp).imp_right fun ⟨he, hij⟩ => ?_
    subst he
    exact ⟨by exact_mod_cast hij.symm, slept, u, hf, rfl⟩
  | _ => exact .inl hp

/-- The counts of semaphores stay in range: V asserts that the new one is positive, and P decrements
a positive one. -/
theorem Act.count_range {b : AMach U G} {fr : Frame U} {r : Req Addr} (hact : Act P a i l b fr r)
    (h : ∀ p, a.kind p = some .semaphore → 0 ≤ a.count p ∧ a.count p < 2 ^ 31) {p : Addr}
    (hp : b.kind p = some .semaphore) : 0 ≤ b.count p ∧ b.count p < 2 ^ 31 := by
  have hset : ∀ (sem : Addr) (x : ℤ), a.kind p = some .semaphore → 0 ≤ x ∧ x < 2 ^ 31 →
      0 ≤ Function.update a.count sem x p ∧ Function.update a.count sem x p < 2 ^ 31 := by
    intro sem x hk hx
    rcases eq_or_ne p sem with rfl | hne
    · rwa [Function.update_self]
    · rw [Function.update_of_ne hne]
      exact h p hk
  cases hact with
  | @semV _ _ _ sem _ _ hf hn hk hpos =>
    obtain ⟨h₀, h₁⟩ := h sem hk
    obtain ⟨hinc, hlt⟩ := wrap32_succ_of_pos h₀ h₁ hpos
    refine hset sem _ hp ?_
    rw [hinc]
    omega
  | @semPDone _ sem _ hf hk hc =>
    obtain ⟨h₀, h₁⟩ := h sem hk
    refine hset sem _ hp ?_
    rw [wrap32_of_lt (by omega) (by omega)]
    omega
  | _ => exact h p hp

namespace AMach.Sound

theorem initial (h : a.Init P) : a.Sound := by
  refine ⟨fun i h0 hp => absurd (h.place i h0) hp, fun p hp => ?_⟩
  cases (h.kind p).symm.trans hp

/-- The threads that do not act keep their frames, and new ones begin in user code. -/
theorem frame_next (h : a.Sound) (hs : AStep P a l a') (hi : a.sched.running = some i)
    (hself : i ≠ 0 → a'.sched.place i ≠ .nowhere → (a'.frame i).Sound a'.kind a'.helder i)
    (hkind : ∀ j, j ≠ 0 → a.sched.place j ≠ .nowhere → ∀ p, (a.frame j).uses p = true →
      a'.kind p = a.kind p)
    (hhelder : ∀ j, j ≠ i → ∀ p, a'.helder p = j → a.helder p = j) :
    ∀ j, j ≠ 0 → a'.sched.place j ≠ .nowhere → (a'.frame j).Sound a'.kind a'.helder j := by
  intro j h0 hp
  rcases eq_or_ne j i with rfl | hne
  · exact hself h0 hp
  by_cases hpj : a.sched.place j = .nowhere
  · obtain ⟨v, -, hv⟩ := hs.new_thread hpj hp
    rw [hv]
    trivial
  · have hrun : a.sched.running ≠ some j := fun he => hne (Option.some.inj (he.symm.trans hi))
    rw [(hs.others hpj hrun).1]
    exact (h.frame j h0 hpj).mono (hkind j h0 hpj) (hhelder j hne)

/-- The acting thread comes back to its own code, where it relies on nothing. -/
theorem back (h : a.Sound) (hs : AStep P a l a') (hi : a.sched.running = some i)
    (hback : ∃ u, a'.frame i = .user u)
    (hkind : ∀ j, j ≠ 0 → a.sched.place j ≠ .nowhere → ∀ p, (a.frame j).uses p = true →
      a'.kind p = a.kind p)
    (hhelder : ∀ j : ℕ, ∀ p, a'.helder p = j → a.helder p = j)
    (hcount : ∀ p, a'.kind p = some .semaphore → 0 ≤ a'.count p ∧ a'.count p < 2 ^ 31) :
    a'.Sound := by
  refine ⟨h.frame_next hs hi (fun _ _ => ?_) hkind fun j _ => hhelder j, hcount⟩
  obtain ⟨u, hu⟩ := hback
  rw [hu]
  trivial

/-- **A new primitive**, in a block that was none. A lock has no owner, and a semaphore counts
zero. -/
theorem made (h : a.Sound) (hs : AStep P a l a') (hi : a.sched.running = some i)
    (hback : ∃ u, a'.frame i = .user u) {q : Addr} {k : PrimKind} (hq : a.kind q = none)
    (hkind : a'.kind = Function.update a.kind q (some k))
    (hhelder : a'.helder = if k = .lock then Function.update a.helder q (-1) else a.helder)
    (hcount : a'.count = if k = .semaphore then Function.update a.count q 0 else a.count) :
    a'.Sound := by
  refine h.back hs hi hback (fun j hj hp p hu => ?_) (fun j p he => ?_) fun p hp => ?_
  · rw [hkind, Function.update_of_ne]
    rintro rfl
    exact (h.frame j hj hp).kind_ne_none hu hq
  · rw [hhelder] at he
    rcases eq_or_ne p q with rfl | hpq
    · split at he
      · rw [Function.update_self] at he
        omega
      · exact he
    · rwa [apply_ite (fun f : Addr → ℤ => f p), Function.update_of_ne hpq, ite_self] at he
  · rw [hkind] at hp
    rw [hcount, apply_ite (fun f : Addr → ℤ => f p)]
    rcases eq_or_ne p q with rfl | hpq
    · rw [Function.update_self] at hp
      rw [if_pos (Option.some.inj hp), Function.update_self]
      decide
    · rw [Function.update_of_ne hpq] at hp
      rw [Function.update_of_ne hpq, ite_self]
      exact h.count p hp

/-- **A primitive is destroyed** that no thread uses, so nobody misses it. -/
theorem gone (h : a.Sound) (hs : AStep P a l a') (hi : a.sched.running = some i)
    (hback : ∃ u, a'.frame i = .user u) {q : Addr}
    (hunused : ∀ j, j ≠ 0 → a.sched.place j ≠ .nowhere → (a.frame j).uses q = false)
    (hkind : a'.kind = Function.update a.kind q none) (hhelder : a'.helder = a.helder)
    (hcount : a'.count = a.count) : a'.Sound := by
  refine h.back hs hi hback (fun j hj hp p hu => ?_) (fun j p he => ?_) fun p hp => ?_
  · rw [hkind, Function.update_of_ne]
    rintro rfl
    cases (hunused j hj hp).symm.trans hu
  · rwa [hhelder] at he
  · rw [hkind] at hp
    rw [hcount]
    rcases eq_or_ne p q with rfl | hpq
    · rw [Function.update_self] at hp
      cases hp
    · rw [Function.update_of_ne hpq] at hp
      exact h.count p hp

/-- **Every step that keeps the contract keeps what the library relies on**, for all threads, not
only for the one that makes the step. -/
theorem next (h : a.Sound) (hok : a.Ok) (hkeep : a.KeepsContract P l) (hs : AStep P a l a') :
    a'.Sound := by
  have hs' := hs
  cases hs with
  | @act i _ b fr r sched hi hact hstep =>
    refine ⟨h.frame_next hs' hi (fun h0 _ => ?_) (fun _ _ _ p _ => congrFun hact.data.2.2.1 p)
      fun _ hne _ hp => (hact.helder_cases hp).resolve_right fun he => hne he.1,
      fun p hp => hact.count_range h.count hp⟩
    change (Function.update a.frame i fr i).Sound b.kind b.helder i
    rw [Function.update_self]
    exact hact.sound hi hkeep (h.frame i h0 (by simp [place_running hi]))
  | exit hi _ _ hstep => exact ⟨fun j h0 hp => h.frame j h0 (hstep.placed hi hp), h.count⟩
  | @create sl i u v act al ret g id sched hi =>
    refine h.back hs' hi ?_ (fun _ _ _ _ _ => rfl) (fun _ _ he => he) h.count
    change ∃ w, Function.update (Function.update a.frame i (.user (ret (some id)))) id (.user v) i =
      .user w
    rcases eq_or_ne i id with rfl | hne
    · exact ⟨v, Function.update_self ..⟩
    · exact ⟨_, (Function.update_of_ne hne ..).trans (Function.update_self ..)⟩
  | notCreated hi =>
    exact h.back hs' hi ⟨_, Function.update_self ..⟩ (fun _ _ _ _ _ => rfl) (fun _ _ he => he)
      h.count
  | @primMade i _ _ _ c ret g k q hi hf hn hc hal hq =>
    have hkq : a.kind q = none := by
      by_contra hne
      exact hq ((hok.prims q).mpr hne)
    exact h.made hs' hi ⟨_, Function.update_self ..⟩ hkq rfl rfl rfl
  | @primGone i u act al c ret g q hi hf hn hc hw =>
    refine h.gone hs' hi ⟨_, Function.update_self ..⟩ ?_ rfl rfl rfl
    have hcontract := hkeep i c hi ⟨i, act, al, u, ret, g, rfl, hi, hf, hn⟩
    rcases hc with ⟨rfl, -⟩ | ⟨rfl, -⟩
    · exact hcontract.2.2
    · exact hcontract.2.2
  | env => exact ⟨h.frame, h.count⟩

theorem of_reach (ha : Reach (P.aruns.guard (AMach.KeepsContract P)) a) : a.Sound := by
  induction ha with
  | init h₀ => exact .initial h₀
  | step hr hs ih => exact ih.next hr.of_guard.ok hs.1 hs.2

end AMach.Sound

end Abstract

/-! ## The runs that keep the contract -/

section Runs

variable {P : Program U G A E} {main idle : U → Prop} {m m' : Mach U G} {a : AMach U G}
  {l : Label A E} {i : ℕ}

theorem AMach.Zero.placed (hz : a.Zero main idle) : a.sched.place 0 ≠ .nowhere := by
  rcases hz with ⟨_, hi, -⟩ | ⟨hpark, -⟩
  · simp [place_running hi]
  · simp [hpark]

/-- Whoever runs is in user code, or in a frame it can rely on. Thread 0 is always in user code when
it runs. -/
theorem AMach.Sound.running (h : a.Sound) (hz : a.Zero main idle) (hi : a.sched.running = some i) :
    (a.frame i).Sound a.kind a.helder i := by
  rcases eq_or_ne i 0 with rfl | h0
  · rcases hz with ⟨u, -, hf, -⟩ | ⟨hpark, -⟩
    · rw [hf]
      trivial
    · cases (place_running hi).symm.trans hpark
  · exact h.frame i h0 (by simp [place_running hi])

/-- The running thread is not inside `thread_join`, since the contract forbids the call. -/
theorem AMach.Sound.not_join (h : a.Sound) (hz : a.Zero main idle) (hsim : Sim P False m a) :
    m.cpu.waits = none := by
  rcases hr : a.sched.running with _ | i
  · obtain ⟨-, -, u, hu, -⟩ := hsim.idle hr
    rw [hu]
    rfl
  · have hsound := h.running hz hr
    rw [hsim.cpu i hr]
    cases hf : a.frame i with
    | join cur new id u =>
      rw [hf] at hsound
      exact hsound.elim
    | _ => rfl

/-- Under the contract ready threads only are resumed, apart from thread 0. -/
theorem KeepsContract.resumesReady (hkeep : KeepsContract P m l) (h : Sim P False m a)
    (hframe : m.cpu.waits = none) : ResumesReady P m l := by
  intro id hid h0
  rcases Mach.target_cases hid with hc | hc | ⟨cur, new, j, u, hcpu⟩
  · exact (hkeep _ (Mach.calls_iff.mp hc)).resolve_right fun hz => h0 hz.1
  · obtain ⟨act, al, u, ret, g, rfl, hcpu, hn⟩ := hc
    have htarget : m.st.yieldTarget = id := by simpa [Mach.target, hcpu, hn] using hid
    rw [h.repr.yieldTarget] at htarget
    rw [h.repr.readyIds]
    rcases hr : a.sched.ready with _ | ⟨j, tl⟩
    · rw [hr] at htarget
      exact absurd htarget.symm h0
    · rw [hr] at htarget
      exact htarget ▸ List.mem_cons_self
  · rw [hcpu] at hframe
    cases hframe

/-- Every run that keeps the contract is one of the abstract machine that keeps it. The two
contracts agree in each state, so the simulation carries over. -/
theorem Program.Handover.reach_contract (hP : P.Handover main idle)
    (hm : Reach (P.runs.guard (KeepsContract P)) m) :
    ∃ a, Reach (P.aruns.guard (AMach.KeepsContract P)) a ∧ Sim P False m a := by
  have hsim : Simulation (P.runs.guard (KeepsContract P)) (P.aruns.guard (AMach.KeepsContract P))
      (Sim P False) := by
    apply hP.simulation
    · exact fun m hm => hm
    · intro m l m' a ha h hs
      have hz := hP.zero ha.of_guard
      have hsound := AMach.Sound.of_reach ha
      refine ⟨hs.2, hs.1.resumesReady h (hsound.not_join hz h), fun i c hi hc => ?_⟩
      exact (h.contract_iff ha.of_guard.ok hi c).mp (hs.1 c (Mach.calls_iff.mp (h.calls hc)))
  exact hsim.reach hm

/-! ## Nobody is joined -/

/-- Nobody waits in `thread_join` for a created thread: its list of blocks is empty, so
`thread_exit` walks over nothing. -/
def Unjoined (m : Mach U G) : Prop :=
  ∀ i t, i ≠ 0 → m.st.addrs i = some t → (m.st.joined t).start = none

namespace Unjoined

theorem keeps (h : Unjoined m) (hk : KeepsJoins m.st m'.st) : Unjoined m' := by
  intro i t h0 ht
  rw [hk.addrs] at ht
  rw [hk.joined]
  exact h i t h0 ht

/-- A record is written that is not registered. If it is registered then, its list begins empty. -/
theorem rewrites (h : Unjoined m) (hsim : Sim P False m a) {t : Addr}
    (hlive : m.st.threadLive t = false) (hw : Rewrites m.st m'.st t) : Unjoined m' := by
  obtain ⟨link, c⟩ := hsim.repr.core
  have hold : ∀ i r, i ≠ 0 → m.st.addrs i = some r → (m'.st.joined r).start = none := by
    intro i r h0 hr
    rw [hw.joined r (c.ne_of_not_live hlive hr)]
    exact h i r h0 hr
  intro i r h0 hr
  rcases hw.addrs with hsame | ⟨hnew, -, -, -, hjoined, -⟩
  · exact hold i r h0 (hsame ▸ hr)
  · rw [hnew] at hr
    rcases eq_or_ne i m.st.newId with rfl | hne
    · rw [Function.update_self] at hr
      obtain rfl := Option.some.inj hr
      rw [hjoined]
    · rw [Function.update_of_ne hne] at hr
      exact hold i r h0 hr

/-- The caller of `thread_exit` is removed, and the others keep their empty lists. -/
theorem exit (h : Unjoined m) {tr : Transfer} {s : State} (hx : m.st.threadExit = .ok (s, tr))
    (hs : m'.st = s) : Unjoined m' := by
  subst hs
  obtain ⟨cur, s₁, -, hmark, hswitch⟩ := State.threadExit_marks hx
  obtain ⟨jb, rfl⟩ := State.markJoinable_eq hmark
  have hk := (Schedules.exitSwitch hswitch).keepsJoins
  intro i t h0 ht
  have haddrs : Function.update m.st.addrs (m.st.tId cur) none i = some t := by
    rw [hk.addrs] at ht
    exact ht
  rw [hk.joined]
  change (m.st.joined t).start = none
  rcases eq_or_ne i (m.st.tId cur) with rfl | hne
  · rw [Function.update_self] at haddrs
    cases haddrs
  · rw [Function.update_of_ne hne] at haddrs
    exact h i t h0 haddrs

/-- As long as nobody calls `thread_join`, no list gets a block. -/
theorem next (h : Unjoined m) (hsim : Sim P False m a) (hzero : a.sched.place 0 ≠ .nowhere)
    (hframe : m.cpu.waits = none) (hcall : ∀ id, ¬ m.Calls P l (.join id))
    (hs : m.step P l = .ok m') : Unjoined m' := by
  cases l with
  | call act al =>
    rcases hcpu : m.cpu with u | _ | _ | _ | _ | _ | _
    case user =>
      rcases hn : P.next act m.st.view u m.g with _ | ⟨cl, ret, g⟩
      · simp only [Mach.step, hcpu, hn] at hs
        cases hs
      rw [Mach.step_call hcpu hn] at hs
      cases cl with
      | join id => exact absurd ⟨act, al, u, ret, g, rfl, hcpu, hn⟩ (hcall id)
      | create w =>
        obtain ⟨⟨s, id⟩, hc, hs⟩ := bind_eq_ok hs
        obtain rfl := Except.ok.inj hs
        have hpos : 0 < m.st.newId := by
          obtain ⟨link, c⟩ := hsim.repr.core
          rw [c.newId]
          exact a.sched.place_lt hzero
        rcases State.threadCreate_rewrites hc hpos with ⟨rfl, -⟩ | ⟨t, -, hlive, hw, -⟩
        · exact h
        · exact h.rewrites hsim hlive hw
      | exit =>
        obtain ⟨s, tr, hx, rfl⟩ := Mach.finish_eq_ok hs
        exact h.exit hx (Mach.transfer_st ..)
      | _ => exact h.keeps (Mach.call_keepsJoins rfl hs)
    all_goals
      simp only [Mach.step, hcpu] at hs
      cases hs
  | turn => exact h.keeps (Mach.turn_keepsJoins hframe hs)
  | env e =>
    simp only [Mach.step] at hs
    split at hs
    · cases hs
    · obtain rfl := Except.ok.inj hs
      exact h
  | scribble t junk =>
    simp only [Mach.step] at hs
    split at hs
    · cases hs
    · rename_i hlive
      obtain rfl := Except.ok.inj hs
      exact h.rewrites hsim (Bool.eq_false_iff.mpr hlive) (State.scribble_rewrites ..)

theorem initial (hm : P.runs.init m) : Unjoined m := by
  obtain ⟨mem, t, link, g, -, -, rfl⟩ := hm
  intro i r h0 hr
  change Function.update (fun _ => none) 0 (some t) i = some r at hr
  rw [Function.update_of_ne h0] at hr
  cases hr

/-- A run that keeps the contract joins nobody, in any of its states. -/
theorem of_reach (hP : P.Handover main idle) (hm : Reach (P.runs.guard (KeepsContract P)) m) :
    Unjoined m := by
  induction hm with
  | init h₀ => exact .initial h₀
  | step hr hs ih =>
    obtain ⟨a, ha, h⟩ := hP.reach_contract hr
    have hz := hP.zero ha.of_guard
    refine ih.next h hz.placed ((AMach.Sound.of_reach ha).not_join hz h) (fun id hc => ?_) hs.2
    exact hs.1 _ (Mach.calls_iff.mp hc)

end Unjoined

end Runs

/-! ## Functions that succeed -/

namespace Repr

variable {clean : Prop} {s : State} {a : Sched Addr} {i j : ℕ} {p : Addr}

theorem threadSleep_ok (h : Repr clean s a) (hi : a.running = some i) (hp : p ∈ a.prims) :
    ∃ r, s.threadSleep p = .ok r := by
  rcases hr : a.ready with _ | ⟨j, tl⟩
  · exact ⟨_, (h.threadSleep_none hi hr).1⟩
  · obtain ⟨s', ti, tj, _, hs, -⟩ := h.threadSleep_ready hi hp hr
    exact ⟨_, hs⟩

theorem threadWakeup_ok (h : Repr clean s a) (hi : a.running = some i) (hp : p ∈ a.prims) :
    ∃ r, s.threadWakeup p = .ok r := by
  rcases hw : a.waiting p with _ | ⟨j, tl⟩
  · exact ⟨_, (h.threadWakeup_none hi hp hw).1⟩
  · obtain ⟨s', tr, _, hs, -⟩ := h.threadWakeup_waiting hi hw
    exact ⟨_, hs⟩

theorem threadWakeupWait_ok (h : Repr clean s a) (hi : a.running = some i) (hp : p ∈ a.prims) :
    ∃ r, s.threadWakeupWait p = .ok r := by
  rcases hw : a.waiting p with _ | ⟨j, tl⟩
  · exact ⟨_, (h.threadWakeupWait_none hi hp hw).1⟩
  · obtain ⟨s', tr, _, hs, -⟩ := h.threadWakeupWait_waiting hi hw
    exact ⟨_, hs⟩

/-- A ready thread can be resumed, and so can thread 0 by another one. -/
theorem threadResume_ok (h : Repr clean s a) (hclean : ¬ clean) (hi : a.running = some i)
    (h0 : a.place 0 ≠ .nowhere) (hj : j ∈ a.ready ∨ j = 0 ∧ i ≠ 0) :
    ∃ r, s.threadResume j = .ok r := by
  rcases hj with hj | ⟨rfl, hi0⟩
  · rcases eq_or_ne i 0 with rfl | hi0
    · obtain ⟨s', tr, _, hs, -⟩ := h.threadResume_zero hi hj
      exact ⟨_, hs⟩
    · rcases eq_or_ne j 0 with rfl | hj0
      · obtain ⟨link, c⟩ := h.core
        obtain ⟨s', tr, _, hs, -⟩ := h.threadResume_back hclean hi hi0 (c.addrs 0 h0)
        exact ⟨_, hs⟩
      · obtain ⟨s', tr, _, hs, -⟩ := h.threadResume_ready hi hi0 hj hj0
        exact ⟨_, hs⟩
  · obtain ⟨link, c⟩ := h.core
    obtain ⟨s', tr, _, hs, -⟩ := h.threadResume_back hclean hi hi0 (c.addrs 0 h0)
    exact ⟨_, hs⟩

end Repr

/-- The allocators answer with what is not in use. Each `malloc` may fail, but
`allocman_cspace_alloc` has a slot left, as its callers assert. -/
structure Alloc.Fresh (s : State) (al : Alloc) : Prop where
  thread : ∀ t ∈ al.thread, s.threadLive t = false
  link : ∀ k ∈ al.link, s.linkLive k = false
  prim : ∀ p ∈ al.prim, s.kind p = none
  slot : ∃ sl, al.slot = some sl ∧ s.slotUsed sl = false

namespace Alloc.Fresh

variable {s : State} {al : Alloc}

theorem malloc_ok {live : Addr → Bool} {q : Ptr} (h : ∀ x ∈ q, live x = false) :
    malloc live q = .ok q := by
  cases q with
  | none => rfl
  | some x => rw [malloc, h x rfl]; rfl

/-- `thread_create` has room for the thread. It may still report that there is no memory, but it
does not fault. -/
theorem threadCreate_ok (h : al.Fresh s) (hid : s.newId < maxCapacity) :
    ∃ r, s.threadCreate al = .ok r := by
  rw [State.threadCreate, malloc_ok h.thread]
  split
  · exact ⟨_, rfl⟩
  cases al.thread with
  | none => exact ⟨_, rfl⟩
  | some t =>
    obtain ⟨sl, hal, hfree⟩ := h.slot
    have hslot : (s.newThread t).slotUsed sl = false := hfree
    have hlink : malloc (((s.newThread t).fillThread t s.newId sl).registerThread s.newId
        t).linkLive al.link = .ok al.link := malloc_ok h.link
    simp only [bind, Except.bind, hal, deref_some, hslot, hlink, if_neg (not_le.mpr hid)]
    split
    · exact ⟨_, rfl⟩
    cases al.context <;> cases al.stack <;> cases al.link <;> exact ⟨_, rfl⟩

/-- A new primitive is linked behind the registry, or there is no memory for it. -/
theorem createPrim_ok (h : al.Fresh s) {order : List Addr} (hreg : Registered s order)
    (k : PrimKind) : ∃ r, s.createPrim k al = .ok r := by
  have hmalloc : malloc (fun p => (s.kind p).isSome) al.prim = .ok al.prim :=
    malloc_ok fun p hp => by rw [h.prim p hp]; rfl
  rw [State.createPrim, hmalloc]
  cases hal : al.prim with
  | none => exact ⟨_, rfl⟩
  | some p =>
    obtain ⟨s', hs', -⟩ := hreg.initial (k := k) (h.prim p hal)
    simp only [bind, Except.bind, hs']
    exact ⟨_, rfl⟩

end Alloc.Fresh

/-- A registered primitive that nobody waits on can be destroyed: the assertions hold. -/
theorem Registered.destroyPrim_ok {s : State} {order : List Addr} (h : Registered s order)
    {k : PrimKind} {p : Addr} (hk : s.kind p = some k) (hw : (s.waiting p).start = none) :
    ∃ s', s.destroyPrim k p = .ok s' := by
  obtain ⟨s', hs', -⟩ := h.destroy ((h.live p).mpr (by simp [hk]))
  rw [State.destroyPrim, if_neg (not_not.mpr hk), hw]
  simp only [bind, Except.bind, hs', beq_self_eq_true, check_true]
  exact ⟨_, rfl⟩

/-- In every run of every program the registry lists the primitives. -/
theorem Reach.registered {P : Program U G A E} {m : Mach U G} (hm : Reach P.runs m) :
    ∃ order, Registered m.st order := by
  induction hm with
  | @init m h₀ =>
    have hx : Reach (registryRuns P) (m, []) := .init ⟨h₀, rfl⟩
    exact ⟨[], Registered.of_reach hx⟩
  | step _ hs ih =>
    obtain ⟨order, h⟩ := ih
    exact ⟨_, h.step hs⟩

/-! ## No step goes wrong -/

section Faultless

variable {P : Program U G A E} {main idle : U → Prop} {m : Mach U G} {a : AMach U G}
  {l : Label A E} {i : ℕ}

/-- The step is there to be made: the running thread is in user code and makes a call, and the
allocators hand out what is not in use, or it is inside the library, and so on. -/
def Mach.Admits (P : Program U G A E) (m : Mach U G) : Label A E → Prop
  | .call act al => al.Fresh m.st ∧ ∃ c, m.callOf P (.call act al) = some c
  | .turn => ∀ u, m.cpu ≠ .user u
  | .env e => ∃ g, P.env e m.g = some g
  | .scribble t _ => m.st.threadLive t = false

theorem Mach.finish_ok {fr : Frame U} {r : Except Fault (State × Transfer)}
    (hr : ∃ x, r = .ok x) : ∃ m', m.finish fr r = .ok m' := by
  obtain ⟨⟨s, tr⟩, rfl⟩ := hr
  exact ⟨_, rfl⟩

section Running

variable (h : Sim P False m a) (hi : a.sched.running = some i)
include h hi

omit hi in
/-- The assertions on the kind of a primitive hold, because both machines have the same kinds. -/
theorem Sim.checkKind_ok {p : Addr} {k : PrimKind} (hk : a.kind p = some k) :
    m.st.checkKind k p = .ok () := by
  rw [State.checkKind, h.kind, if_pos hk]

omit hi in
/-- A primitive that nobody waits on can be destroyed, seen from the abstract machine. -/
theorem Sim.destroyPrim_ok (hok : a.Ok) {order : List Addr} (hreg : Registered m.st order)
    {p : Addr} {k : PrimKind} (hk : a.kind p = some k) (hw : a.sched.waiting p = []) :
    ∃ s, m.st.destroyPrim k p = .ok s := by
  obtain ⟨link, core⟩ := h.repr.core
  refine hreg.destroyPrim_ok (h.kind ▸ hk) ?_
  rw [(core.waiting p ((hok.prims p).mpr (by simp [hk]))).start_eq_none, hw]
  rfl

/-- A thread that does not hold the lock may ask for it. The assertion of `thread_lock_acquire` is
about this. -/
theorem Sim.acquireEnter_ok {p : Addr} (hk : a.kind p = some .lock) (hne : a.helder p ≠ i) :
    m.st.threadLockAcquireEnter p = .ok () := by
  have hh : m.st.helder p ≠ m.st.coCurrentId := by
    rw [h.helder, h.coCurrentId hi]
    exact hne
  simp only [State.threadLockAcquireEnter, h.checkKind_ok hk, bind, Except.bind, check,
    bne_iff_ne, if_pos hh]

/-- Release, also the one inside `thread_cv_wait`: it wakes the first waiter if there is one, and
goes through in either case. -/
theorem Sim.release_ok (hok : a.Ok) {p : Addr} (hk : a.kind p = some .lock) :
    ∃ r, m.st.threadLockReleaseIntern p = .ok r := by
  simp only [State.threadLockReleaseIntern, h.checkKind_ok hk, bind, Except.bind]
  exact (h.repr.setLock p (-1) 0).threadWakeup_ok hi ((hok.prims p).mpr (by simp [hk]))

/-- V, if the counter does not overflow, goes through whether or not somebody waits. -/
theorem Sim.semV_ok (hok : a.Ok) (hsound : a.Sound) {sem : Addr}
    (hk : a.kind sem = some .semaphore) (hlt : a.count sem < 2 ^ 31 - 1) :
    ∃ r, m.st.threadSemaphoreV sem = .ok r := by
  have hlt : m.st.count sem < 2 ^ 31 - 1 := h.count ▸ hlt
  have hnonneg : 0 ≤ m.st.count sem := h.count ▸ (hsound.count sem hk).1
  have hinc : 0 < (m.st.setCount sem (wrap32 (m.st.count sem + 1))).count sem := by
    change 0 < Function.update m.st.count sem (wrap32 (m.st.count sem + 1)) sem
    rw [Function.update_self, wrap32_of_lt (by omega) (by omega)]
    omega
  simp only [State.threadSemaphoreV, h.checkKind_ok hk, bind, Except.bind, check,
    decide_eq_true hinc, if_true]
  exact (h.repr.setCount sem _).threadWakeup_ok hi ((hok.prims sem).mpr (by simp [hk]))

/-- **Calls go through.** Each case is a lemma about one function, with the contract as its
hypothesis. -/
theorem Sim.call_ok (hok : a.Ok) (hz : a.Zero main idle) (hsound : a.Sound) (hjoin : Unjoined m)
    {order : List Addr} (hreg : Registered m.st order) {al : Alloc} (hal : al.Fresh m.st)
    {ret : Option ℕ → U} {c : Call U} (hc : c.Contract (a.terms i))
    (hzero : i = 0 → c.Setup ∨ ∃ id, c = .resume id) (g : G) :
    ∃ m', { m with g := g }.call al ret c = .ok m' := by
  obtain ⟨link, core⟩ := h.repr.core
  have hprim : ∀ {p}, a.kind p ≠ none → p ∈ a.sched.prims := fun hk => (hok.prims _).mpr hk
  -- the calls that thread 0 does not make
  have hpos : (¬ c.Setup) → (∀ id, c ≠ .resume id) → i ≠ 0 := by
    rintro hs hr rfl
    rcases hzero rfl with hc | ⟨id, hc⟩
    · exact hs hc
    · exact hr id hc
  cases c with
  | pause => exact ⟨_, rfl⟩
  | create u =>
    obtain ⟨r, hr⟩ := hal.threadCreate_ok (core.newId ▸ hc)
    simp only [Mach.call, hr, bind, Except.bind]
    exact ⟨_, rfl⟩
  | yield =>
    refine Mach.finish_ok ?_
    change ∃ r, m.st.threadYield = .ok r
    rw [h.repr.threadYield_eq]
    refine h.repr.threadResume_ok not_false hi hz.placed ?_
    rcases a.sched.ready with _ | ⟨j, tl⟩
    · exact .inr ⟨rfl, hpos id (by simp)⟩
    · exact .inl List.mem_cons_self
  | resume id => exact Mach.finish_ok (h.repr.threadResume_ok not_false hi hz.placed hc)
  | exit =>
    have h0 := hpos id (by simp)
    exact Mach.finish_ok (h.repr.threadExit_ok hi h0 hz.placed fun t => hjoin i t h0)
  | sleep p => exact Mach.finish_ok (h.repr.threadSleep_ok hi (hprim hc))
  | wakeup p => exact Mach.finish_ok (h.repr.threadWakeup_ok hi (hprim hc))
  | wakeupWait p => exact Mach.finish_ok (h.repr.threadWakeupWait_ok hi (hprim hc))
  | cvSignal p => exact Mach.finish_ok (h.repr.threadWakeup_ok hi (hprim hc))
  | primInit =>
    obtain ⟨r, hr⟩ := hal.createPrim_ok hreg .plain
    simp only [Mach.call, hr, bind, Except.bind]
    exact ⟨_, rfl⟩
  | lockCreate =>
    obtain ⟨⟨s, q⟩, hr⟩ := hal.createPrim_ok hreg .lock
    simp only [Mach.call, State.threadLockCreate, hr, bind, Except.bind]
    cases q <;> exact ⟨_, rfl⟩
  | semCreate =>
    obtain ⟨⟨s, q⟩, hr⟩ := hal.createPrim_ok hreg .semaphore
    simp only [Mach.call, State.threadSemaphoreCreate, hr, bind, Except.bind]
    cases q <;> exact ⟨_, rfl⟩
  | lockDestory p =>
    obtain ⟨s, hs⟩ := h.destroyPrim_ok hok hreg hc.1 hc.2.1
    simp only [Mach.call, State.threadLockDestory, hs, bind, Except.bind]
    exact ⟨_, rfl⟩
  | semDestory p =>
    obtain ⟨s, hs⟩ := h.destroyPrim_ok hok hreg hc.1 hc.2.1
    simp only [Mach.call, State.threadSemaphoreDestory, hs, bind, Except.bind]
    exact ⟨_, rfl⟩
  | acquire p =>
    simp only [Mach.call, h.acquireEnter_ok hi hc.1 hc.2, bind, Except.bind]
    exact ⟨_, rfl⟩
  | release p => exact Mach.finish_ok (h.release_ok hi hok hc)
  | releaseAcquire p =>
    refine Mach.finish_ok ?_
    have hk : a.kind p = some .lock := hc
    simp only [State.threadLockReleaseAcquire, h.checkKind_ok hk, bind, Except.bind]
    exact (h.repr.setLock p (-1) 0).threadWakeupWait_ok hi (hprim (by simp [hk]))
  | cvWait cv p => exact Mach.finish_ok (h.release_ok hi hok hc.2)
  | semP sem => exact ⟨_, rfl⟩
  | semV sem => exact Mach.finish_ok (h.semV_ok hi hok hsound hc.1 hc.2)
  | join id => exact hc.elim
  | cspaceAlloc =>
    obtain ⟨sl, hsl, hfree⟩ := hal.slot
    simp only [Mach.call, State.cspaceAlloc, (core.running i hi).1, deref_some, hsl, hfree, bind,
      Except.bind]
    exact ⟨_, rfl⟩

/-- **Turns of the waiting loops go through**, by what the frame of the running thread relies on. -/
theorem Sim.turn_ok (hok : a.Ok) (hsound : a.Sound) (hz : a.Zero main idle)
    (hcpu : ∀ u, m.cpu ≠ .user u) : ∃ m', m.turn = .ok m' := by
  obtain ⟨link, core⟩ := h.repr.core
  have hfr := hsound.running hz hi
  have hsleep : ∀ {p}, a.kind p ≠ none → ∃ r, m.st.threadSleep p = .ok r :=
    fun hk => h.repr.threadSleep_ok hi ((hok.prims _).mpr hk)
  rw [← h.cpu i hi] at hfr
  cases hf : m.cpu with
  | user u => exact absurd hf (hcpu u)
  | acquire b l u =>
    have hk : a.kind l = some .lock := by rwa [hf] at hfr
    obtain ⟨r, hr⟩ : ∃ r, m.st.threadLockAcquireTurn l = .ok r := by
      rw [State.threadLockAcquireTurn, h.checkKind_ok hk]
      obtain ⟨r, hr⟩ := hsleep (p := l) (by simp [hk])
      simp only [hr, (core.running i hi).1, deref_some, bind, Except.bind]
      split <;> exact ⟨_, rfl⟩
    simp only [Mach.turn, hf, hr, bind, Except.bind]
    exact ⟨_, rfl⟩
  | relAcq l u =>
    simp only [Mach.turn, hf]
    exact ⟨_, rfl⟩
  | semP b sem u =>
    have hk : a.kind sem = some .semaphore := by rwa [hf] at hfr
    exact h.semP_goesOn (h.kind ▸ hk) (h.count ▸ (hsound.count sem hk).1) hf
  | cvSleep cv l u =>
    rw [hf] at hfr
    simp only [Mach.turn, hf]
    exact Mach.finish_ok (hsleep hfr.1)
  | cvAcquire cv l u =>
    rw [hf] at hfr
    simp only [Mach.turn, hf, h.acquireEnter_ok hi hfr.1 hfr.2, bind, Except.bind]
    exact ⟨_, rfl⟩
  | join cur new id u =>
    rw [hf] at hfr
    exact hfr.elim

end Running

namespace Program.Handover

variable (hP : P.Handover main idle) (hm : Reach (P.runs.guard (KeepsContract P)) m)
include hP hm

theorem call_ok {act : A} {al : Alloc} (hal : al.Fresh m.st) {c : Call U}
    (hc : m.Calls P (.call act al) c) (hcontract : c.Contract m.terms) :
    ∃ m', m.step P (.call act al) = .ok m' := by
  obtain ⟨a, ha, h⟩ := hP.reach_contract hm
  have hok := ha.of_guard.ok
  have hz := hP.zero ha.of_guard
  obtain ⟨i, hi⟩ := h.running_of_calls hc
  obtain ⟨order, hreg⟩ := hm.of_guard.registered
  have hzero : i = 0 → c.Setup ∨ ∃ id, c = .resume id := by
    rintro rfl
    exact hP.calls_zero hz h hi hc
  obtain ⟨_, _, u, ret, g, hlab, hcpu, hn⟩ := hc
  cases hlab
  rw [Mach.step_call hcpu hn]
  exact h.call_ok hi hok hz (.of_reach ha) (.of_reach hP hm) hreg hal
    ((h.contract_iff hok hi c).mp hcontract) hzero g

theorem turn_ok (hcpu : ∀ u, m.cpu ≠ .user u) : ∃ m', m.step P .turn = .ok m' := by
  obtain ⟨a, ha, h⟩ := hP.reach_contract hm
  obtain ⟨i, hi⟩ := h.running_of_cpu hcpu
  exact h.turn_ok hi ha.of_guard.ok (.of_reach ha) (hP.zero ha.of_guard) hcpu

end Program.Handover

/-- **A program that keeps the contract does not go wrong.** In every run of a program that hands
over and whose calls keep the contract, every step that is there to be made and keeps the contract
can be made: no assertion of the library fails, and it follows no bad pointer and no endless
list. -/
theorem library_faultless (hP : P.Handover main idle) (m : Mach U G)
    (hm : Reach (P.runs.guard (KeepsContract P)) m) (l : Label A E) (hl : m.Admits P l)
    (hkeep : KeepsContract P m l) : ∃ m', m.step P l = .ok m' := by
  cases l with
  | call act al =>
    obtain ⟨hal, c, hc⟩ := hl
    exact hP.call_ok hm hal (Mach.calls_iff.mpr hc) (hkeep c hc)
  | turn => exact hP.turn_ok hm hl
  | env e =>
    obtain ⟨g, hg⟩ := hl
    exact ⟨{ m with g := g }, by simp only [Mach.step, hg]⟩
  | scribble t junk =>
    have hlive : m.st.threadLive t = false := hl
    exact ⟨{ m with st := m.st.scribble t junk }, by simp [Mach.step, hlive]⟩

/-- Two threads that want the same lock; the first one lets the second one run while it holds
it. -/
def Script.contended : Script :=
  .call .lockCreate <|
  .call (.create (.call (.acquire 5) (.call .yield (.call (.release 5) .done)))) <|
  .call (.create (.call (.acquire 5) (.call (.release 5) .done))) <|
  .call (.resume 1) .done

/-- Thread 2 has been woken inside `thread_lock_acquire` and can go on. -/
theorem library_faultless_contended : ∃ m m' : Mach Script Unit, m.st.coCurrentId = 2 ∧
    m.cpu.uses 5 = true ∧ m.step Script.contended.program .turn = .ok m' := by
  obtain ⟨m, hm, hco, huses⟩ := Mach.exists_of_reaches (P := Script.contended.program)
    (T := Script.contended.program.runs.guard (KeepsContract Script.contended.program))
    (KeepsContract Script.contended.program) (fun _ _ _ hok hs => ⟨hok, hs⟩)
    (.init Script.contended.boot_init)
    [.go 5, .go 1, .go 2, .go 0, .go 0, .turn, .go 0, .go 0, .turn, .go 0]
    (fun m => m.st.coCurrentId = 2 ∧ m.cpu.uses 5 = true) (by decide)
  have hmain : Script.contended.HandsOver := ⟨trivial, trivial, trivial, rfl⟩
  have hcpu : m.Admits Script.contended.program .turn := by
    intro u hu
    rw [hu] at huses
    cases huses
  have hkeep : KeepsContract Script.contended.program m .turn := by
    intro c hc
    cases hc
  obtain ⟨m', hm'⟩ := library_faultless (Script.handover hmain) m hm .turn hcpu hkeep
  exact ⟨m, m', hco, huses, hm'⟩

end Faultless

end GreenLib
