import GreenLib.Waiters

/-!
# Who holds a lock

The threads of a program release what they hold and acquire what they do not hold.
What a thread holds is a function `held` of its user state (`Program.Balanced`); inside
a library call it is read off the frame (`Frame.holds`).

`Owners` relates this to the two fields of `thread_lock_t`: `held` is 1 and `helder` is
the id of the one thread that holds the lock, or `held` is 0 and `helder` is -1. Every
step keeps it but one, the return from `thread_lock_release_acquire`.
-/

namespace GreenLib

open Sched

variable {U G A E : Type}

/-- All locks, as a set to watch. -/
def Watch.locks : Watch where
  on _ k := k = .lock
  not_plain _ := nofun

/-! ## Discipline -/

/-- What a thread holds when it continues at a frame. A lock that the thread is about to acquire
is in the user state behind the call already. -/
def Frame.holds (held : U → Finset Addr) : Frame U → Finset Addr
  | .user u => held u
  | .acquire _ l u => (held u).erase l
  | .relAcq l u => (held u).erase l
  | .semP _ _ u => held u
  | .cvSleep _ l u => (held u).erase l
  | .cvAcquire _ l u => (held u).erase l
  | .join _ _ _ u => held u

/-- The call keeps track of what the thread holds: acquire adds a lock, release takes one away, and
all others leave the set alone. It is a condition on the program, not on the library. -/
def Call.Balanced (held : U → Finset Addr) (u : U) (ret : Option ℕ → U) : Call U → Prop
  | .acquire l => l ∉ held u ∧ held (ret none) = insert l (held u)
  | .release l => l ∈ held u ∧ held (ret none) = (held u).erase l
  | .releaseAcquire l => l ∈ held u ∧ held (ret none) = held u
  | .cvWait _ l => l ∈ held u ∧ held (ret none) = held u
  | .create v => held v = ∅ ∧ ∀ r, held (ret r) = held u
  | .exit => held u = ∅
  | .lockDestory _ => False
  | _ => ∀ r, held (ret r) = held u

/-- The threads of the program release only what they hold, acquire only what they do not hold,
hold nothing when they begin or exit, and destroy no lock. -/
structure Program.Balanced (P : Program U G A E) (held : U → Finset Addr) : Prop where
  main : held P.main = ∅
  next : ∀ {act v u g c ret g'}, P.next act v u g = some (c, ret, g') → c.Balanced held u ret

/-- The step is the return of a thread from `thread_lock_release_acquire`. The lock's fields do
not say that it is held then. -/
def AMach.RelAcqReturns (a : AMach U G) (l : Label A E) : Prop :=
  l = .turn ∧ ∃ i lk u, a.sched.running = some i ∧ a.frame i = .relAcq lk u

/-- A thread inside `thread_lock_release_acquire` was there, or has just called it. So a run without
such calls has no such threads. -/
theorem AStep.relAcq {P : Program U G A E} {a a' : AMach U G} {l : Label A E} {j : ℕ} {lk : Addr}
    {u : U} (hs : AStep P a l a') (hj : a'.sched.place j ≠ .nowhere)
    (hf : a'.frame j = .relAcq lk u) :
    a.sched.place j ≠ .nowhere ∧ a.frame j = .relAcq lk u ∨
      a.Calls P l (.releaseAcquire lk) ∧ a.kind lk = some .lock := by
  by_cases hp : a.sched.place j = .nowhere
  · obtain ⟨v, _, hv⟩ := hs.new_thread hp hj
    cases hv.symm.trans hf
  by_cases hrun : a.sched.running = some j
  · cases hs with
    | act hi hact hstep =>
      obtain rfl := Option.some.inj (hrun.symm.trans hi)
      have hfr := (Function.update_self j _ a.frame).symm.trans hf
      cases hact with
      | releaseAcquire hu hn hk =>
        obtain ⟨rfl, -⟩ := Frame.relAcq.inj hfr
        exact .inr ⟨⟨j, _, _, _, _, _, rfl, hi, hu, hn⟩, hk⟩
      | join _ _ hor => rcases hor with rfl | ⟨_, _, rfl⟩ <;> cases hfr
      | _ => cases hfr
    | exit hi hu => exact .inl ⟨hp, hf⟩
    | create hi hu hn hid =>
      obtain rfl := Option.some.inj (hrun.symm.trans hi)
      subst hid
      have hne : j ≠ a.sched.newId := fun he => hp (he ▸ place_newId)
      simp [Function.update_of_ne hne] at hf
    | env => exact .inl ⟨hp, hf⟩
    | _ hi =>
      obtain rfl := Option.some.inj (hrun.symm.trans hi)
      simp at hf
  · exact .inl ⟨hp, (hs.frame_of_ne hp hrun).symm.trans hf⟩

/-- If `thread_lock_release_acquire` is never called, no thread is ever inside it. -/
theorem Reach.no_relAcq {P : Program U G A E} {a : AMach U G}
    (h : Reach (P.aruns.guard fun a l =>
      ∀ lk, a.kind lk = some .lock → ¬ a.Calls P l (.releaseAcquire lk)) a) :
    ∀ j, a.sched.place j ≠ .nowhere → ∀ lk u, a.frame j ≠ .relAcq lk u := by
  induction h with
  | init h₀ =>
    intro j hj lk u hf
    obtain rfl : j = 0 := by
      by_contra hne
      exact hj (h₀.place j hne)
    cases h₀.frame.symm.trans hf
  | step _ hs ih =>
    intro j hj lk u hf
    rcases hs.2.relAcq hj hf with ⟨hp, hf⟩ | ⟨hc, hk⟩
    · exact ih j hp lk u hf
    · exact hs.1 lk hk hc

theorem Reach.no_relAcqReturns {P : Program U G A E} {a : AMach U G}
    (h : Reach (P.aruns.guard fun a l =>
      ∀ lk, a.kind lk = some .lock → ¬ a.Calls P l (.releaseAcquire lk)) a) :
    Reach (P.aruns.guard fun a l => ¬ a.RelAcqReturns l) a := by
  refine h.reguard ?_
  rintro a l ha _ ⟨-, i, lk, u, hi, hf⟩
  exact ha.no_relAcq i (by simp [place_running hi]) lk u hf

/-- A program that leaves the queues of locks to acquire does not call it, so the exception in the
invariant does not arise. -/
theorem Program.Leaves.guard_relAcq {P : Program U G A E} (hL : P.Leaves .locks) {a : AMach U G}
    (h : Reach P.aruns a) : Reach (P.aruns.guard fun a l => ¬ a.RelAcqReturns l) a := by
  refine Reach.no_relAcqReturns (h.guard ?_)
  rintro a l a' _ _ lk hk ⟨i, act, al, v, ret, g, rfl, hi, hv, hn⟩
  exact hL hn _ hk rfl

/-! ## Ownership -/

/-- The lock that a frame is going to acquire exists and will be held when the thread is back in
user code. -/
def Frame.Wants (held : U → Finset Addr) (kind : Addr → Option PrimKind) : Frame U → Prop
  | .acquire _ l u => l ∈ held u ∧ kind l = some .lock
  | .relAcq l u => l ∈ held u ∧ kind l = some .lock
  | .cvSleep _ l u => l ∈ held u ∧ kind l = some .lock
  | .cvAcquire _ l u => l ∈ held u ∧ kind l = some .lock
  | _ => True

/-- **The fields of a lock say who holds it.** A lock in the set of a thread names this thread, and
a lock that names nobody is in nobody's set. -/
structure Owners (held : U → Finset Addr) (a : AMach U G) : Prop where
  owner : ∀ j l, a.sched.place j ≠ .nowhere → l ∈ (a.frame j).holds held →
    a.kind l = some .lock ∧ a.held l = 1 ∧ a.helder l = j
  owned : ∀ l, a.kind l = some .lock → a.held l = 0 ∧ a.helder l = -1 ∨
    ∃ j, a.sched.place j ≠ .nowhere ∧ l ∈ (a.frame j).holds held
  wants : ∀ j, a.sched.place j ≠ .nowhere → (a.frame j).Wants held a.kind

theorem Frame.Wants.mono {held : U → Finset Addr} {kind kind' : Addr → Option PrimKind}
    {fr : Frame U} (h : fr.Wants held kind)
    (hk : ∀ l, kind l = some .lock → kind' l = some .lock) : fr.Wants held kind' := by
  cases fr with
  | acquire b l u => exact ⟨h.1, hk l h.2⟩
  | cvSleep c l u => exact ⟨h.1, hk l h.2⟩
  | cvAcquire c l u => exact ⟨h.1, hk l h.2⟩
  | relAcq l u => exact ⟨h.1, hk l h.2⟩
  | user u => trivial
  | semP b p u => trivial
  | join c n j u => trivial

section Steps

variable {P : Program U G A E} {held : U → Finset Addr} {a a' : AMach U G} {l : Label A E} {i : ℕ}

namespace Owners

/-- **A step of a running thread.** It may take and drop locks for itself; the locks of the other
threads it leaves alone. -/
theorem change (hB : P.Balanced held) (ho : Owners held a) (hs : AStep P a l a')
    (hi : a.sched.running = some i)
    (hkind : ∀ l, a.kind l = some .lock → a'.kind l = some .lock)
    (hkind' : ∀ l, a'.kind l = some .lock →
      a.kind l = some .lock ∨ a'.held l = 0 ∧ a'.helder l = -1)
    (hwants : a'.sched.place i ≠ .nowhere → (a'.frame i).Wants held a.kind)
    (hown : a'.sched.place i ≠ .nowhere → ∀ l ∈ (a'.frame i).holds held,
      a.kind l = some .lock ∧ a'.held l = 1 ∧ a'.helder l = i)
    (hkeep : ∀ j l, j ≠ i → a.sched.place j ≠ .nowhere → l ∈ (a.frame j).holds held →
      a'.held l = a.held l ∧ a'.helder l = a.helder l)
    (hdrop : ∀ l ∈ (a.frame i).holds held, a'.held l = 0 ∧ a'.helder l = -1 ∨
      a'.sched.place i ≠ .nowhere ∧ l ∈ (a'.frame i).holds held)
    (hfree : ∀ l, a.kind l = some .lock → a.held l = 0 → a.helder l = -1 →
      a'.held l = 0 ∧ a'.helder l = -1 ∨
        a'.sched.place i ≠ .nowhere ∧ l ∈ (a'.frame i).holds held) :
    Owners held a' := by
  have hne : ∀ {j}, j ≠ i → a.sched.running ≠ some j := by
    intro j hj
    rw [hi]
    exact fun he => hj (Option.some.inj he).symm
  -- a thread that is new holds nothing
  have hnew : ∀ {j}, a.sched.place j = .nowhere → a'.sched.place j ≠ .nowhere →
      (a'.frame j).holds held = ∅ ∧ (a'.frame j).Wants held a.kind := by
    intro j hj hj'
    obtain ⟨v, ⟨_, _, _, _, _, _, _, _, _, hn⟩, hf⟩ := hs.new_thread hj hj'
    rw [hf]
    exact ⟨(hB.next hn).1, trivial⟩
  refine ⟨?_, ?_, ?_⟩
  · intro j l hj hl
    by_cases hji : j = i
    · subst hji
      obtain ⟨hk, hrest⟩ := hown hj l hl
      exact ⟨hkind l hk, hrest⟩
    · by_cases hp : a.sched.place j = .nowhere
      · rw [(hnew hp hj).1] at hl
        cases hl
      · rw [(hs.others hp (hne hji)).1] at hl
        obtain ⟨hk, h₁, h₂⟩ := ho.owner j l hp hl
        obtain ⟨e₁, e₂⟩ := hkeep j l hji hp hl
        exact ⟨hkind l hk, e₁.trans h₁, e₂.trans h₂⟩
  · intro l hl
    rcases hkind' l hl with hl | hl
    · rcases ho.owned l hl with ⟨h₁, h₂⟩ | ⟨j, hj, hjl⟩
      · rcases hfree l hl h₁ h₂ with h | h
        · exact .inl h
        · exact .inr ⟨i, h⟩
      · by_cases hji : j = i
        · subst hji
          rcases hdrop l hjl with h | h
          · exact .inl h
          · exact .inr ⟨j, h⟩
        · obtain ⟨hf, hp⟩ := hs.others hj (hne hji)
          exact .inr ⟨j, hp, hf ▸ hjl⟩
    · exact .inl hl
  · intro j hj
    refine Frame.Wants.mono ?_ hkind
    by_cases hji : j = i
    · subst hji
      exact hwants hj
    · by_cases hp : a.sched.place j = .nowhere
      · exact (hnew hp hj).2
      · rw [(hs.others hp (hne hji)).1]
        exact ho.wants j hp

/-- **A step that works on no lock there was**, after which the thread holds what it held. A
primitive may be new, and one that is no lock may disappear. -/
theorem kept (hB : P.Balanced held) (ho : Owners held a) (hs : AStep P a l a')
    (hi : a.sched.running = some i)
    (hkind : ∀ l, a.kind l = some .lock → a'.kind l = some .lock)
    (hkind' : ∀ l, a'.kind l = some .lock →
      a.kind l = some .lock ∨ a'.held l = 0 ∧ a'.helder l = -1)
    (hdata : ∀ l, a.kind l = some .lock → a'.held l = a.held l ∧ a'.helder l = a.helder l)
    (hwants : (a'.frame i).Wants held a.kind) (hpi : a'.sched.place i ≠ .nowhere)
    (hholds : (a'.frame i).holds held = (a.frame i).holds held) : Owners held a' := by
  have hp : a.sched.place i ≠ .nowhere := by simp [place_running hi]
  refine ho.change hB hs hi hkind hkind' (fun _ => hwants) ?_ ?_ ?_ ?_
  · intro _ l hl
    obtain ⟨hk, h₁, h₂⟩ := ho.owner i l hp (hholds ▸ hl)
    obtain ⟨e₁, e₂⟩ := hdata l hk
    exact ⟨hk, e₁.trans h₁, e₂.trans h₂⟩
  · intro j l _ hj hl
    exact hdata l (ho.owner j l hj hl).1
  · intro l hl
    exact .inr ⟨hpi, hholds ▸ hl⟩
  · intro l hl h₁ h₂
    obtain ⟨e₁, e₂⟩ := hdata l hl
    exact .inl ⟨e₁.trans h₁, e₂.trans h₂⟩

/-- The same if all primitives and the fields of all locks stay as they are, which is the common
case. -/
theorem same (hB : P.Balanced held) (ho : Owners held a) (hs : AStep P a l a')
    (hi : a.sched.running = some i) (hkind : a'.kind = a.kind) (hheld : a'.held = a.held)
    (hhelder : a'.helder = a.helder) (hwants : (a'.frame i).Wants held a.kind)
    (hpi : a'.sched.place i ≠ .nowhere)
    (hholds : (a'.frame i).holds held = (a.frame i).holds held) : Owners held a' :=
  ho.kept hB hs hi (fun _ hl => hkind ▸ hl) (fun _ hl => .inl (hkind ▸ hl))
    (fun l _ => ⟨congrFun hheld l, congrFun hhelder l⟩) hwants hpi hholds

/-- A step that releases the lock `lk`, which the thread holds. No other thread can hold it, since
the lock names one thread only. -/
theorem drop (hB : P.Balanced held) (ho : Owners held a) (hs : AStep P a l a')
    (hi : a.sched.running = some i) (hkind : a'.kind = a.kind) {lk : Addr}
    (hlk : lk ∈ (a.frame i).holds held) (hheld : a'.held = Function.update a.held lk 0)
    (hhelder : a'.helder = Function.update a.helder lk (-1))
    (hwants : (a'.frame i).Wants held a.kind) (hpi : a'.sched.place i ≠ .nowhere)
    (hholds : (a'.frame i).holds held = ((a.frame i).holds held).erase lk) : Owners held a' := by
  have hp : a.sched.place i ≠ .nowhere := by simp [place_running hi]
  have hdata : ∀ {l}, l ≠ lk → a'.held l = a.held l ∧ a'.helder l = a.helder l := by
    intro l hl
    rw [hheld, hhelder, Function.update_of_ne hl, Function.update_of_ne hl]
    exact ⟨rfl, rfl⟩
  have hzero : a'.held lk = 0 ∧ a'.helder lk = -1 := by
    rw [hheld, hhelder, Function.update_self, Function.update_self]
    exact ⟨rfl, rfl⟩
  refine ho.change hB hs hi (fun l hl => hkind ▸ hl) (fun l hl => .inl (hkind ▸ hl))
    (fun _ => hwants) ?_ ?_ ?_ ?_
  · intro _ l hl
    rw [hholds, Finset.mem_erase] at hl
    obtain ⟨e₁, e₂⟩ := hdata hl.1
    rw [e₁, e₂]
    exact ho.owner i l hp hl.2
  · -- nobody else holds `lk`
    intro j l hji hj hl
    apply hdata
    rintro rfl
    have h₁ := (ho.owner j l hj hl).2.2
    have h₂ := (ho.owner i l hp hlk).2.2
    exact hji (by exact_mod_cast h₁.symm.trans h₂)
  · intro l hl
    by_cases he : l = lk
    · exact .inl (he ▸ hzero)
    · exact .inr ⟨hpi, by rw [hholds]; exact Finset.mem_erase.mpr ⟨he, hl⟩⟩
  · intro l _ h₁ h₂
    by_cases he : l = lk
    · exact .inl (he ▸ hzero)
    · obtain ⟨e₁, e₂⟩ := hdata he
      exact .inl ⟨e₁.trans h₁, e₂.trans h₂⟩

/-- A step that takes the lock `lk`, which is free. A lock that somebody holds is not free, so no
other set has it. -/
theorem take (hB : P.Balanced held) (ho : Owners held a) (hs : AStep P a l a')
    (hi : a.sched.running = some i) (hkind : a'.kind = a.kind) {lk : Addr}
    (hk : a.kind lk = some .lock) (hfree : a.held lk = 0)
    (hheld : a'.held = Function.update a.held lk 1)
    (hhelder : a'.helder = Function.update a.helder lk (i : ℤ))
    (hwants : (a'.frame i).Wants held a.kind) (hpi : a'.sched.place i ≠ .nowhere)
    (hholds : (a'.frame i).holds held = insert lk ((a.frame i).holds held)) : Owners held a' := by
  have hp : a.sched.place i ≠ .nowhere := by simp [place_running hi]
  have hdata : ∀ {l}, l ≠ lk → a'.held l = a.held l ∧ a'.helder l = a.helder l := by
    intro l hl
    rw [hheld, hhelder, Function.update_of_ne hl, Function.update_of_ne hl]
    exact ⟨rfl, rfl⟩
  have hmine : a'.sched.place i ≠ .nowhere ∧ lk ∈ (a'.frame i).holds held :=
    ⟨hpi, by rw [hholds]; exact Finset.mem_insert_self ..⟩
  refine ho.change hB hs hi (fun l hl => hkind ▸ hl) (fun l hl => .inl (hkind ▸ hl))
    (fun _ => hwants) ?_ ?_ ?_ ?_
  · intro _ l hl
    rw [hholds, Finset.mem_insert] at hl
    by_cases he : l = lk
    · subst he
      rw [hheld, hhelder, Function.update_self, Function.update_self]
      exact ⟨hk, rfl, rfl⟩
    · obtain ⟨e₁, e₂⟩ := hdata he
      rw [e₁, e₂]
      exact ho.owner i l hp (hl.resolve_left he)
  · -- a lock that somebody holds is not free
    intro j l _ hj hl
    apply hdata
    rintro rfl
    have h₁ := (ho.owner j l hj hl).2.1
    omega
  · intro l hl
    exact .inr ⟨hpi, by rw [hholds]; exact Finset.mem_insert_of_mem hl⟩
  · intro l _ h₁ h₂
    by_cases he : l = lk
    · exact .inr (he ▸ hmine)
    · obtain ⟨e₁, e₂⟩ := hdata he
      exact .inl ⟨e₁.trans h₁, e₂.trans h₂⟩

section Actions

variable {b : AMach U G} {fr : Frame U} {r : Req Addr} {sched : Sched Addr}

/-- The acting thread does not disappear by an action: exit is a step of its own. -/
theorem act_placed (hi : a.sched.running = some i) (hact : Act P a i l b fr r)
    (hstep : Step a.sched i r sched) : sched.place i ≠ .nowhere :=
  fun hn => hact.data.2.2.2.2.2 ((hstep.self hi).1.mp hn)

/-- **An action that works on no lock**: the new frame holds what the old one held. -/
theorem act_same (hB : P.Balanced held) (ho : Owners held a) (hi : a.sched.running = some i)
    (hact : Act P a i l b fr r) (hstep : Step a.sched i r sched) (hheld : b.held = a.held)
    (hhelder : b.helder = a.helder) (hwants : fr.Wants held a.kind)
    (hholds : fr.holds held = (a.frame i).holds held) :
    Owners held { b with sched := sched, frame := Function.update a.frame i fr } := by
  refine ho.same hB (.act hi hact hstep) hi hact.data.2.2.1 hheld hhelder ?_
    (act_placed hi hact hstep) ?_
  · simpa using hwants
  · simpa using hholds

/-- **An action that releases `lk`**: release, and the first half of the calls that release a lock
and take it again later. -/
theorem act_drop (hB : P.Balanced held) (ho : Owners held a) (hi : a.sched.running = some i)
    {lk : Addr} {g : G} (hact : Act P a i l ({ a with g := g }.setLock lk (-1) 0) fr r)
    (hstep : Step a.sched i r sched) (hlk : lk ∈ (a.frame i).holds held)
    (hwants : fr.Wants held a.kind) (hholds : fr.holds held = ((a.frame i).holds held).erase lk) :
    Owners held { ({ a with g := g }.setLock lk (-1) 0) with
      sched := sched, frame := Function.update a.frame i fr } := by
  refine ho.drop hB (.act hi hact hstep) hi rfl hlk rfl rfl ?_ (act_placed hi hact hstep) ?_
  · simpa using hwants
  · simpa using hholds

end Actions

/-- Every action keeps the invariant, except a return from `thread_lock_release_acquire`: there the
set has the lock and the fields say that it is free. -/
theorem act (hB : P.Balanced held) (ho : Owners held a) (hi : a.sched.running = some i)
    (hret : ¬ a.RelAcqReturns l) {b : AMach U G} {fr : Frame U} {r : Req Addr}
    {sched : Sched Addr} (hact : Act P a i l b fr r) (hstep : Step a.sched i r sched) :
    Owners held { b with sched := sched, frame := Function.update a.frame i fr } := by
  have hw := ho.wants i (by simp [place_running hi])
  -- what the acting thread holds before the step
  have hold : ∀ {f : Frame U} {ls}, a.frame i = f → ls = f.holds held →
      ls = (a.frame i).holds held := by
    rintro f ls rfl hls
    exact hls
  have hact' := hact
  cases hact with
  | plain hf hn hr =>
    rename_i u act al c ret g
    refine ho.act_same hB hi hact' hstep rfl rfl trivial (hold hf ?_)
    have hbal := hB.next hn
    cases c <;> simp only [Call.req, reduceCtorEq] at hr <;> exact hbal none
  | primFail hf hn hc =>
    rename_i c ret g k _
    refine ho.act_same hB hi hact' hstep rfl rfl trivial (hold hf ?_)
    have hbal := hB.next hn
    cases c <;> simp only [Call.makes, reduceCtorEq] at hc <;> exact hbal none
  | acquire hf hn hk =>
    obtain ⟨hnot, hins⟩ := hB.next hn
    refine ho.act_same hB hi hact' hstep rfl rfl ⟨?_, hk⟩ (hold hf ?_)
    · rw [hins]
      exact Finset.mem_insert_self ..
    · change Finset.erase _ _ = held _
      rw [hins, Finset.erase_insert hnot]
  | release hf hn hk =>
    obtain ⟨hmem, her⟩ := hB.next hn
    refine ho.act_drop hB hi hact' hstep (by rw [hf]; exact hmem) trivial ?_
    rw [hf]
    exact her
  | releaseAcquire hf hn hk =>
    obtain ⟨hmem, hsm⟩ := hB.next hn
    refine ho.act_drop hB hi hact' hstep (by rw [hf]; exact hmem) ⟨hsm ▸ hmem, hk⟩ ?_
    rw [hf]
    exact congrArg (Finset.erase · _) hsm
  | semP hf hn => exact ho.act_same hB hi hact' hstep rfl rfl trivial (hold hf (hB.next hn none))
  | semV hf hn hk hpos =>
    exact ho.act_same hB hi hact' hstep rfl rfl trivial (hold hf (hB.next hn none))
  | cvWait hf hn hk =>
    obtain ⟨hmem, hsm⟩ := hB.next hn
    refine ho.act_drop hB hi hact' hstep (by rw [hf]; exact hmem) ⟨hsm ▸ hmem, hk⟩ ?_
    rw [hf]
    exact congrArg (Finset.erase · _) hsm
  | join hf hn hor =>
    rcases hor with rfl | ⟨cur, new, rfl⟩
    · exact ho.act_same hB hi hact' hstep rfl rfl trivial (hold hf (hB.next hn none))
    · exact ho.act_same hB hi hact' hstep rfl rfl trivial (hold hf (hB.next hn none))
  | cspaceAlloc hf hn hsl =>
    exact ho.act_same hB hi hact' hstep rfl rfl trivial (hold hf (hB.next hn _))
  | acquireSpin hf hk hh hr =>
    exact ho.act_same hB hi hact' hstep rfl rfl (hf ▸ hw) (hold hf rfl)
  | acquireSleep hf hk hh hr =>
    rw [hf] at hw
    exact ho.act_same hB hi hact' hstep rfl rfl hw (hold hf rfl)
  | acquireDone hf hk hh =>
    rw [hf] at hw
    refine ho.take hB (.act hi hact' hstep) hi rfl hk hh rfl rfl ?_
      (act_placed hi hact' hstep) ?_
    · simp [Frame.Wants]
    · simp only [Function.update_self, hf]
      exact (Finset.insert_erase hw.1).symm
  | relAcq hf => exact absurd ⟨rfl, i, _, _, hi, hf⟩ hret
  | semPSpin hf => exact ho.act_same hB hi hact' hstep rfl rfl trivial (hold hf rfl)
  | semPSleep hf => exact ho.act_same hB hi hact' hstep rfl rfl trivial (hold hf rfl)
  | semPDone hf => exact ho.act_same hB hi hact' hstep rfl rfl trivial (hold hf rfl)
  | cvSleep hf =>
    rw [hf] at hw
    exact ho.act_same hB hi hact' hstep rfl rfl hw (hold hf rfl)
  | cvAcquire hf hk hh =>
    rw [hf] at hw
    exact ho.act_same hB hi hact' hstep rfl rfl hw (hold hf rfl)
  | joinAgain j hf => exact ho.act_same hB hi hact' hstep rfl rfl trivial (hold hf rfl)
  | joinDone hf => exact ho.act_same hB hi hact' hstep rfl rfl trivial (hold hf rfl)

/-- **Thread exit.** The thread holds nothing, so no lock loses its owner. -/
theorem exit (hB : P.Balanced held) (ho : Owners held a) (hs : AStep P a l a')
    (hi : a.sched.running = some i) (hempty : (a.frame i).holds held = ∅)
    (hnow : a'.sched.place i = .nowhere) (hkind : a'.kind = a.kind) (hheld : a'.held = a.held)
    (hhelder : a'.helder = a.helder) : Owners held a' := by
  refine ho.change hB hs hi (fun _ hl => hkind ▸ hl) (fun _ hl => .inl (hkind ▸ hl))
    (fun h => absurd hnow h) (fun h => absurd hnow h) ?_ ?_ ?_
  · intro _ l _ _ _
    exact ⟨congrFun hheld l, congrFun hhelder l⟩
  · intro l hl
    rw [hempty] at hl
    cases hl
  · intro l _ h₁ h₂
    exact .inl ⟨(congrFun hheld l).trans h₁, (congrFun hhelder l).trans h₂⟩

/-- **A primitive is made** by the thread in user code. A new lock is free, and no lock there was
has the address of the new primitive. -/
theorem made (hB : P.Balanced held) (ho : Owners held a) (hs : AStep P a l a')
    (hi : a.sched.running = some i) {p : Addr} {k : PrimKind} (hnone : a.kind p = none)
    (hkind : a'.kind = Function.update a.kind p (some k))
    (hheld : a'.held = if k = .lock then Function.update a.held p 0 else a.held)
    (hhelder : a'.helder = if k = .lock then Function.update a.helder p (-1) else a.helder)
    (hwants : (a'.frame i).Wants held a.kind) (hpi : a'.sched.place i ≠ .nowhere)
    (hholds : (a'.frame i).holds held = (a.frame i).holds held) : Owners held a' := by
  have hne : ∀ {l}, a.kind l = some .lock → l ≠ p := by
    rintro l hl rfl
    cases hnone.symm.trans hl
  refine ho.kept hB hs hi ?_ ?_ ?_ hwants hpi hholds
  · intro l hl
    rw [hkind, Function.update_of_ne (hne hl)]
    exact hl
  · intro l hl
    rw [hkind] at hl
    by_cases hlp : l = p
    · subst hlp
      obtain rfl : k = .lock := by simpa using hl
      rw [hheld, hhelder]
      exact .inr (by simp)
    · rw [Function.update_of_ne hlp] at hl
      exact .inl hl
  · intro l hl
    rw [hheld, hhelder]
    by_cases hk : k = .lock
    · simp [hk, Function.update_of_ne (hne hl)]
    · simp [hk]

/-- **Every step keeps the invariant**, except a return from `thread_lock_release_acquire`. -/
theorem step (hB : P.Balanced held) (hok : a.Ok) (ho : Owners held a)
    (hret : ¬ a.RelAcqReturns l) (hs : AStep P a l a') : Owners held a' := by
  have hs' := hs
  cases hs with
  | act hi hact hstep => exact ho.act hB hi hret hact hstep
  | exit hi hf hn hstep =>
    refine ho.exit hB hs' hi ?_ ((hstep.self hi).1.mpr rfl) rfl rfl rfl
    rw [hf]
    exact hB.next hn
  | create hi hf hn hid h0 hnew hprims hrun hready hwait hplace hsl =>
    rename_i i u v act al ret g id sched
    have hp : a.sched.place i ≠ .nowhere := by simp [place_running hi]
    have hii : i ≠ id := by
      rintro rfl
      exact hp (hid ▸ place_newId)
    refine ho.same hB hs' hi rfl rfl rfl ?_ ?_ ?_
    · simp [Function.update_of_ne hii, Frame.Wants]
    · rw [hplace, Function.update_of_ne hii]
      exact hp
    · rw [hf]
      simp only [Function.update_of_ne hii, Function.update_self]
      exact (hB.next hn).2 _
  | notCreated hi hf hn hsched hused =>
    rename_i i u v act al ret g sched used
    have hpi : a.sched.place i ≠ .nowhere := by simp [place_running hi]
    refine ho.same hB hs' hi rfl rfl rfl (by simp [Frame.Wants]) ?_ ?_
    · rcases hsched with rfl | rfl <;> exact hpi
    · rw [hf]
      simp only [Function.update_self]
      exact (hB.next hn).2 _
  | primMade hi hf hn hc hal hp =>
    rename_i i u act al c ret g k p
    have hnone : a.kind p = none := by
      by_contra hne
      exact hp ((hok.prims p).mpr hne)
    have hpi : a.sched.place i ≠ .nowhere := by simp [place_running hi]
    refine ho.made hB hs' hi hnone rfl rfl rfl (by simp [Frame.Wants]) hpi ?_
    have hb := hB.next hn
    rw [hf]
    simp only [Function.update_self]
    cases c <;> simp only [Call.makes, reduceCtorEq] at hc <;> exact hb _
  | primGone hi hf hn hc hq =>
    rename_i i u act al c ret g p
    -- a lock is not destroyed, so it was a semaphore
    obtain ⟨rfl, hsem⟩ : c = .semDestory p ∧ a.kind p = some .semaphore := by
      rcases hc with ⟨rfl, _⟩ | h
      · exact (hB.next hn).elim
      · exact h
    have hpi : a.sched.place i ≠ .nowhere := by simp [place_running hi]
    refine ho.kept hB hs' hi ?_ ?_ (fun _ _ => ⟨rfl, rfl⟩) (by simp [Frame.Wants]) hpi ?_
    · intro l hl
      refine (Function.update_of_ne ?_ ..).trans hl
      rintro rfl
      cases hsem.symm.trans hl
    · intro l hl
      have hlp : l ≠ p := by
        rintro rfl
        cases (Function.update_self l none a.kind).symm.trans hl
      exact .inl ((Function.update_of_ne hlp none a.kind).symm.trans hl)
    · rw [hf]
      simp only [Function.update_self]
      exact hB.next hn none
  | env he => exact ⟨ho.owner, ho.owned, ho.wants⟩

theorem init (hB : P.Balanced held) (h : a.Init P) : Owners held a := by
  have hzero : ∀ {j}, a.sched.place j ≠ .nowhere → a.frame j = .user P.main := by
    intro j hj
    have h0 : j = 0 := by
      by_contra hne
      exact hj (h.place j hne)
    rw [h0, h.frame]
  refine ⟨?_, fun l hl => by simp [h.kind] at hl, ?_⟩
  · intro j l hj hl
    rw [hzero hj] at hl
    change l ∈ held P.main at hl
    rw [hB.main] at hl
    cases hl
  · intro j hj
    rw [hzero hj]
    trivial

theorem reach (hB : P.Balanced held)
    (h : Reach (P.aruns.guard fun a l => ¬ a.RelAcqReturns l) a) : Owners held a :=
  Reach.invariant (T := P.aruns.guard fun a l => ¬ a.RelAcqReturns l) (P := Owners held)
    (fun _ h₀ => .init hB h₀) (fun _ _ _ hr ho hs => ho.step hB hr.of_guard.ok hs.1 hs.2) h

end Owners

end Steps

end GreenLib
