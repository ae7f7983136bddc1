import GreenLib.Contract
import GreenLib.GreenRouting

/-!
# The green server does not fail

The green server, in either version, calls the library as it should: thread 0 creates as many
threads as there is room for and resumes one that is ready, the handlers pass locks that exist, and
no handler acquires `lock_global` while it has it (`Owned`). So it keeps the contract of the
library, and with what is known of the buffer and of the ids of the clients the assertions of its
own code hold as well.

Together this is `server_unfailing`: in every run of the server each thread can go on from wherever
it is. The two exceptions are in the set-up, where a failed allocation is caught by an assertion:
the one behind `thread_lock_create`, and the one in `thread_resume`, to which `main_continued`
passes 0 when its last `thread_create` has failed.
-/

namespace GreenLib

namespace GreenServer

open Sched

variable {n : ℕ} {S : GreenServer n} {a a' : AMach (GreenPc n) (Shared n)}
  {m : Mach (GreenPc n) (Shared n)} {l : Label (Option (Fin n)) (Fin n × Request)} {i : ℕ}

/-! ## Room for the threads -/

/-- There is an id for every thread that has still to be created. A creation that fails late uses up
an id as well. -/
def Room (S : GreenServer n) (a : AMach (GreenPc n) (Shared n)) : Prop :=
  ∀ left res, a.frame 0 = .user (.creating left res) → a.sched.newId + left ≤ S.threads + 1

namespace Room

/-- Thread 0 is about to create a thread, and `left` more behind it. -/
theorem of_sets (h : Room S a) (hset : SetUp a) {u : GreenPc n} {ret : Option ℕ → GreenPc n}
    {g : Shared n} (hf : a.frame 0 = .user u) (hd : Sets S a.g u (.create .recv) ret g) :
    ∃ left, a.sched.newId + left ≤ S.threads ∧ ret = fun r => .creating left (r.getD 0) := by
  obtain ⟨w, hw, hat⟩ := hset.main
  obtain rfl := Frame.user.inj (hw.symm.trans hf)
  cases hd with
  | @start _ k _ hk =>
    have hnew := hat.1
    exact ⟨k, by omega, rfl⟩
  | @create k res =>
    have hle := h (k + 1) res hf
    exact ⟨k, by omega, rfl⟩

theorem next (h : Room S a) (hset : SetUp a) (hs : AStep S.program a l a') : Room S a' := by
  intro left res hf'
  have hle := hs.newId_le
  have hcreate : ∀ {u k g}, a.frame 0 = .user u →
      Sets S a.g u (.create .recv) (fun r => .creating k (r.getD 0)) g →
      a.sched.newId + k ≤ S.threads := by
    intro u k g hf hd
    obtain ⟨k', hk', hret⟩ := h.of_sets hset hf hd
    obtain ⟨rfl, -⟩ : k = k' ∧ _ := GreenPc.creating.inj (congrFun hret none)
    exact hk'
  -- when a server thread acts, thread 0 is done
  have hdone : ∀ {j}, a.sched.running = some j → j ≠ 0 → a'.frame 0 = a.frame 0 → False := by
    intro j hj h0 hframe
    have hmain := (hset.assigned (by rw [hj]; simpa using h0)).1
    cases hf'.symm.trans (hframe.trans hmain)
  cases hset.shape.steps hs with
  | lock hi hf hgot hq hframe =>
    rw [hframe, Function.update_self] at hf'
    cases hf'
  | create hi hf hd hid h0 _ _ _ _ _ hframe =>
    rw [hframe, Function.update_of_ne h0.symm, Function.update_self] at hf'
    cases hf'
    have hk := hcreate hf hd
    omega
  | notCreated hi hf hd hq hframe =>
    rw [hframe, Function.update_self] at hf'
    cases hf'
    have hk := hcreate hf hd
    omega
  | resume hi hf hq hframe =>
    rw [hframe, Function.update_self] at hf'
    cases hf'
  | act hi h0 _ _ hframe =>
    exact (hdone hi h0 (by rw [hframe, Function.update_of_ne h0.symm])).elim
  | exit hi h0 _ _ hframe => exact (hdone hi h0 (by rw [hframe])).elim
  | env _ hsched hframe =>
    rw [hframe] at hf'
    rw [hsched]
    exact h left res hf'

theorem of_reach (ha : Reach S.program.aruns a) : Room S a := by
  induction ha with
  | init h₀ =>
    intro left res hf
    cases hf.symm.trans h₀.frame
  | step hr hs ih => exact ih.next (.of_reach hr) hs

end Room

/-! ## The owner of the lock -/

/-- The thread is between `thread_lock_acquire` and `thread_lock_release`, in the code of the
server. -/
def inside : Frame (GreenPc n) → Bool
  | .user (.serve .test _ _ _) => true
  | .user (.serve .woke _ _ _) => true
  | _ => false

/-- A lock names a thread only if it is `lock_global` and the thread is inside. So a thread that
asks for the lock does not have it. -/
def Owned (a : AMach (GreenPc n) (Shared n)) : Prop :=
  ∀ p i, a.kind p = some .lock → a.helder p = (i : ℕ) → a.sched.place 0 = .parked ∧
    a.g.prim .lockGlobal = some p ∧ a.sched.place i ≠ .nowhere ∧ inside (a.frame i) = true

/-- A call of a server thread is one of `Does`, since a server thread is at none of the points of
the set-up. -/
theorem SetUp.does (h : SetUp a) (hi : a.sched.running = some i) (h0 : i ≠ 0)
    {e : Option (Fin n)} {u : GreenPc n} {cl : Call (GreenPc n)} {ret : Option ℕ → GreenPc n}
    {g : Shared n} (hf : a.frame i = .user u)
    (hn : S.program.next e (a.view i) u a.g = some (cl, ret, g)) :
    ∃ w, ret = (fun _ => w) ∧ Does S (a.view i) a.g u cl w g := by
  have hloop := h.shape.loop i h0 (by simp [place_running hi])
  rw [hf] at hloop
  cases hloop with
  | user hu => exact next_does hu hn

/-- Whoever is inside stays there over `thread_wakeup`, and leaves with `thread_lock_release`. -/
theorem Does.of_inside {v : View} {g g' : Shared n} {u w : GreenPc n} {cl : Call (GreenPc n)}
    (hd : Does S v g u cl w g') (hl : S.locked = true) (hin : inside (.user u) = true) :
    (∃ p, cl = .wakeup p ∧ inside (.user w) = true) ∨
      ∃ lk, cl = .release lk ∧ g.prim .lockGlobal = some lk := by
  cases hd with
  | acquire _ hE => cases hE <;> cases hin
  | change hT =>
    rw [if_pos hl]
    exact .inl ⟨_, rfl, rfl⟩
  | giveUp _ _ hp => exact .inr ⟨_, rfl, hp⟩
  | sleep hl' => cases hl.symm.trans hl'
  | release hp => exact .inr ⟨_, rfl, hp⟩
  | _ => cases hin

namespace Owned

/-- A thread that is inside stays inside, or gives the lock back. -/
theorem act_self (hl : S.locked = true) (hset : SetUp a) (hi : a.sched.running = some i)
    (h0 : i ≠ 0) {b : AMach (GreenPc n) (Shared n)} {fr : Frame (GreenPc n)} {r : Req Addr}
    (hact : Act S.program a i l b fr r) (hin : inside (a.frame i) = true) {p : Addr}
    (hp : a.g.prim .lockGlobal = some p) (hb : b.helder p = i) : inside fr = true := by
  have hdoes : ∀ {e u cl ret g}, a.frame i = .user u →
      S.program.next e (a.view i) u a.g = some (cl, ret, g) →
      (∃ p, cl = .wakeup p ∧ inside (.user (ret none)) = true) ∨
        ∃ lk, cl = .release lk ∧ a.g.prim .lockGlobal = some lk := by
    intro e u cl ret g hf hn
    obtain ⟨w, rfl, hd⟩ := hset.does hi h0 hf hn
    exact hd.of_inside hl (hf ▸ hin)
  cases hact with
  | plain hf hn hr =>
    rcases hdoes hf hn with ⟨-, -, hw⟩ | ⟨lk, rfl, -⟩
    · exact hw
    · cases hr
  | release hf hn =>
    rcases hdoes hf hn with ⟨q, hq, -⟩ | ⟨lk, hlk, hprim⟩
    · cases hq
    · -- `helder` is -1 now
      cases hlk
      obtain rfl := Option.some.inj (hp.symm.trans hprim)
      change Function.update a.helder p (-1) p = i at hb
      rw [Function.update_self] at hb
      omega
  | primFail hf hn hc => rcases hdoes hf hn with ⟨q, rfl, -⟩ | ⟨lk, rfl, -⟩ <;> cases hc
  | acquire hf hn | releaseAcquire hf hn | semP hf hn | semV hf hn | cvWait hf hn | join hf hn
  | cspaceAlloc hf hn => rcases hdoes hf hn with ⟨q, hq, -⟩ | ⟨lk, hlk, -⟩ <;> contradiction
  | acquireSpin hf | acquireSleep hf | acquireDone hf | relAcq hf | semPSpin hf | semPSleep hf
  | semPDone hf | cvSleep hf | cvAcquire hf | joinDone hf =>
    rw [hf] at hin
    cases hin
  | joinAgain _ hf =>
    rw [hf] at hin
    cases hin

/-- Once it is parked, thread 0 stays there, and the pool of primitives does not change. -/
theorem parked (hset : SetUp a) (hs : AStep S.program a l a') (hz : a.sched.place 0 = .parked) :
    a'.sched.place 0 = .parked ∧ a'.g.prim = a.g.prim := by
  have hrun : a.sched.running ≠ some 0 := running_ne (by simp [hz])
  refine ⟨?_, ((hset.shape.steps hs).prim hrun).1⟩
  rcases hs.moves (by simp [hz]) hrun with ⟨-, hsame⟩ | ⟨-, hq⟩
  · exact hsame.trans hz
  · rw [hz] at hq
    rcases hq with hq | ⟨p, hq⟩ <;> cases hq

/-- An owner that does not act stays inside, and the lock is still `lock_global`. -/
theorem other (h : Owned a) (hset : SetUp a) (hs : AStep S.program a l a') {p : Addr} {j : ℕ}
    (hk : a.kind p = some .lock) (hh : a.helder p = j) (hrun : a.sched.running ≠ some j) :
    a'.sched.place 0 = .parked ∧ a'.g.prim .lockGlobal = some p ∧
      a'.sched.place j ≠ .nowhere ∧ inside (a'.frame j) = true := by
  obtain ⟨hz, hp, hplace, hin⟩ := h p j hk hh
  obtain ⟨hframe, hplace'⟩ := hs.others hplace hrun
  obtain ⟨hz', hprim⟩ := parked hset hs hz
  exact ⟨hz', hprim ▸ hp, hplace', hframe ▸ hin⟩

/-- An owner that acts is a server thread, since thread 0 is parked while a lock is owned. -/
theorem ne_zero (h : Owned a) {p : Addr} {j : ℕ} (hk : a.kind p = some .lock)
    (hh : a.helder p = j) (hrun : a.sched.running = some j) : j ≠ 0 := by
  rintro rfl
  cases (h p 0 hk hh).1.symm.trans (place_running hrun)

/-- **An owner calls `thread_wakeup` and `thread_lock_release` only**: whoever calls another
function of the library does not own a lock. -/
theorem not_owner (h : Owned a) (hl : S.locked = true) (hset : SetUp a) {p : Addr} {j : ℕ}
    {e : Option (Fin n)} {u : GreenPc n} {cl : Call (GreenPc n)} {ret : Option ℕ → GreenPc n}
    {g : Shared n} (hk : a.kind p = some .lock) (hh : a.helder p = j)
    (hi : a.sched.running = some i) (hf : a.frame i = .user u)
    (hn : S.program.next e (a.view i) u a.g = some (cl, ret, g)) (hw : ∀ p, cl ≠ .wakeup p)
    (hr : ∀ lk, cl ≠ .release lk) : a.sched.running ≠ some j := by
  intro hj
  obtain rfl := Option.some.inj (hi.symm.trans hj)
  obtain ⟨w, -, hd⟩ := hset.does hi (h.ne_zero hk hh hi) hf hn
  rcases hd.of_inside hl (hf ▸ (h p i hk hh).2.2.2) with ⟨q, rfl, -⟩ | ⟨lk, rfl, -⟩
  · exact hw q rfl
  · exact hr lk rfl

/-- **Every action keeps the owner inside.** The owner afterwards is the one before, or the acting
thread has just got the lock. -/
theorem act (h : Owned a) (hl : S.locked = true) (hset : SetUp a)
    (hi : a.sched.running = some i) {b : AMach (GreenPc n) (Shared n)} {fr : Frame (GreenPc n)}
    {r : Req Addr} {sched : Sched Addr} (hact : Act S.program a i l b fr r)
    (hstep : Step a.sched i r sched) :
    Owned { b with sched := sched, frame := Function.update a.frame i fr } := by
  intro p j hk' hh'
  have hs := AStep.act hi hact hstep
  have hk : a.kind p = some .lock := hact.data.2.2.1 ▸ hk'
  have hplace : sched.place i ≠ .nowhere := by
    rw [Ne, (hstep.self hi).1]
    exact hact.data.2.2.2.2.2
  rcases hact.helder_cases hh' with hh | ⟨rfl, slept, u, hf, rfl⟩
  · rcases eq_or_ne j i with rfl | hne
    · obtain ⟨hz, hp, -, hin⟩ := h p j hk hh
      obtain ⟨hz', hprim⟩ := parked hset hs hz
      refine ⟨hz', hprim ▸ hp, hplace, ?_⟩
      change inside (Function.update a.frame j fr j) = true
      rw [Function.update_self]
      exact act_self hl hset hi (h.ne_zero hk hh hi) hact hin hp hh'
    · refine h.other hset hs hk hh ?_
      rw [hi]
      exact fun he => hne (Option.some.inj he).symm
  · -- the acting thread has got the lock
    have h0 : j ≠ 0 := by
      rintro rfl
      obtain ⟨w, hw, -⟩ := hset.main
      cases hw.symm.trans hf
    have hz : a.sched.place 0 = .parked := by
      rcases hset.shape.zero with ⟨_, hrun, -⟩ | ⟨hz, -⟩
      · exact absurd (Option.some.inj (hi.symm.trans hrun)) h0
      · exact hz
    obtain ⟨hz', hprim⟩ := parked hset hs hz
    have hloop := hset.shape.loop j h0 (by simp [place_running hi])
    refine ⟨hz', ?_, hplace, ?_⟩
    · rw [hprim]
      exact hset.lock j slept p u h0 (by simp [place_running hi]) hf
    · change inside (Function.update a.frame j (.user u) j) = true
      rw [Function.update_self]
      rw [hf] at hloop
      cases hloop
      rfl

/-- **Every step of the server with the lock keeps the owner inside**, those of thread 0
included. -/
theorem next (h : Owned a) (hl : S.locked = true) (hset : SetUp a)
    (hs : AStep S.program a l a') : Owned a' := by
  have hs' := hs
  intro p j hk' hh'
  cases hs with
  | act hi hact hstep => exact h.act hl hset hi hact hstep p j hk' hh'
  | exit hi hf hn hstep =>
    exact h.other hset hs' hk' hh' (h.not_owner hl hset hk' hh' hi hf hn (by simp) (by simp))
  | create hi hf hn =>
    exact h.other hset hs' hk' hh' (h.not_owner hl hset hk' hh' hi hf hn (by simp) (by simp))
  | notCreated hi hf hn =>
    exact h.other hset hs' hk' hh' (h.not_owner hl hset hk' hh' hi hf hn (by simp) (by simp))
  | @primMade i _ _ _ c ret g k q hi hf hn hc hal hq =>
    change Function.update a.kind q (some k) p = _ at hk'
    change (if k = .lock then Function.update a.helder q (-1) else a.helder) p = j at hh'
    rcases eq_or_ne p q with rfl | hpq
    · -- a new lock names nobody
      rw [Function.update_self] at hk'
      rw [if_pos (Option.some.inj hk'), Function.update_self] at hh'
      omega
    · rw [Function.update_of_ne hpq] at hk'
      rw [apply_ite (fun f : Addr → ℤ => f p), Function.update_of_ne hpq, ite_self] at hh'
      refine h.other hset hs' hk' hh' (h.not_owner hl hset hk' hh' hi hf hn ?_ ?_) <;>
        rintro _ rfl <;> cases hc
  | @primGone i u act al c ret g q hi hf hn hc hw =>
    change Function.update a.kind q none p = _ at hk'
    have hpq : p ≠ q := by
      rintro rfl
      rw [Function.update_self] at hk'
      cases hk'
    rw [Function.update_of_ne hpq] at hk'
    refine h.other hset hs' hk' hh' (h.not_owner hl hset hk' hh' hi hf hn ?_ ?_) <;>
      rintro _ rfl <;> rcases hc with ⟨hc, -⟩ | ⟨hc, -⟩ <;> cases hc
  | env he =>
    obtain ⟨hz, hp, hplace, hin⟩ := h p j hk' hh'
    exact ⟨hz, by rw [← hp, call_prim he], hplace, hin⟩

theorem of_reach (hl : S.locked = true) (ha : Reach S.program.aruns a) : Owned a := by
  induction ha with
  | init h₀ =>
    intro p i hk
    cases (h₀.kind p).symm.trans hk
  | step hr hs ih => exact ih.next hl (.of_reach hr) hs

end Owned

/-! ## The contract -/

section Contract

variable (hset : SetUp a) (hroom : Room S a) (howned : S.locked = true → Owned a)
  (hcap : S.threads < maxCapacity)
include hset hroom howned hcap

/-- **The calls of the server keep the contract**, but for `thread_resume(0)`. -/
theorem contract_of_calls (hi : a.sched.running = some i) {e : Option (Fin n)} {u : GreenPc n}
    {cl : Call (GreenPc n)} {ret : Option ℕ → GreenPc n} {g : Shared n}
    (hf : a.frame i = .user u) (hn : S.program.next e (a.view i) u a.g = some (cl, ret, g)) :
    cl.Contract (a.terms i) ∨ u = .creating 0 0 := by
  rcases eq_or_ne i 0 with rfl | h0
  · obtain ⟨w, hw, hat⟩ := hset.main
    obtain rfl := Frame.user.inj (hw.symm.trans hf)
    have hmain : w.InMain := by
      rcases hset.shape.zero with ⟨w', -, hw', hmain⟩ | ⟨hz, -⟩
      · exact Frame.user.inj (hw'.symm.trans hw) ▸ hmain
      · cases (place_running hi).symm.trans hz
    have hsets := next_sets hmain hn
    cases hsets with
    | lock => exact .inl trivial
    | start hgot hk =>
      obtain ⟨left, hle, -⟩ := hroom.of_sets hset hf (.start hgot hk)
      exact .inl (show a.sched.newId < maxCapacity by omega)
    | create =>
      obtain ⟨left, hle, -⟩ := hroom.of_sets hset hf .create
      exact .inl (show a.sched.newId < maxCapacity by omega)
    | @resume res =>
      rcases hat.2 with rfl | hready
      · exact .inr rfl
      · exact .inl (.inl (a.sched.ready_iff.mpr hready))
  · have hassigned := (hset.assigned (by rw [hi]; simpa using h0)).2
    have hlist : ∀ {role p}, a.g.list role = some p → a.kind p ≠ none := by
      intro role p hp
      have hk : a.kind p = some .lock := by cases role <;> exact hassigned.kind _ p hp
      simp [hk]
    obtain ⟨w, rfl, hd⟩ := hset.does hi h0 hf hn
    refine .inl ?_
    cases hd with
    | recv => trivial
    | init => trivial
    | tmnt => trivial
    | immd => trivial
    | register => trivial
    | @acquire _ _ _ _ lk _ hl hE hp =>
      have hk := hassigned.kind _ lk hp
      refine ⟨hk, fun hh => ?_⟩
      -- the thread is not inside
      have hin := (howned hl lk i hk hh).2.2.2
      rw [hf] at hin
      cases hE <;> cases hin
    | change _ _ _ hp => exact hlist hp
    | giveUp _ _ hp => exact hassigned.kind _ _ hp
    | sleepReleased hp => exact hlist hp
    | sleep _ _ _ hp => exact hlist hp
    | release hp => exact hassigned.kind _ _ hp
    | reply => trivial

end Contract

/-- The same on the machine, for every state that the abstract machine represents. -/
theorem keepsContract (hcap : S.threads < maxCapacity) (ha : Reach S.program.aruns a)
    (h : Sim S.program False m a) (hcpu : m.cpu ≠ .user (.creating 0 0)) :
    KeepsContract S.program m l := by
  intro cl hcl
  have hcalls := Mach.calls_iff.mpr hcl
  obtain ⟨i, hi⟩ := h.running_of_calls hcalls
  obtain ⟨e, al, u, ret, g, -, hu, hn⟩ := hcalls
  rw [h.view hi, h.g] at hn
  refine (h.contract_iff ha.ok hi cl).mpr ?_
  refine (contract_of_calls (.of_reach ha) (.of_reach ha) (fun hl => .of_reach hl ha) hcap hi
    ((h.cpu i hi).symm.trans hu) hn).resolve_right ?_
  rintro rfl
  exact hcpu hu

/-- When no thread could be created last, `thread_resume(0)` fails: its caller is thread 0
itself. -/
theorem resume_self (ha : Reach S.program.aruns a) (h : Sim S.program False m a)
    (hcpu : m.cpu = .user (.creating 0 0)) {e : Option (Fin n)} {al : Alloc}
    {m' : Mach (GreenPc n) (Shared n)} : m.step S.program (.call e al) ≠ .ok m' := by
  intro hs
  have hn : S.program.next e m.st.view (.creating 0 0) m.g =
    some (.resume 0, fun _ => .done, m.g) := rfl
  have hcalls : m.Calls S.program (.call e al) (.resume 0) := ⟨e, al, _, _, _, rfl, hcpu, hn⟩
  obtain ⟨i, hi⟩ := h.running_of_calls hcalls
  obtain rfl : i = 0 := by
    by_contra h0
    have hloop := (SetUp.of_reach ha).shape.loop i h0 (by simp [place_running hi])
    rw [← h.cpu i hi, hcpu] at hloop
    cases hloop with
    | user hu => exact hu
  rw [Mach.step_call hcpu hn] at hs
  obtain ⟨s, tr, hr, -⟩ := Mach.finish_eq_ok hs
  exact h.repr.threadResume_self hi hr

/-- Every run of the server keeps the contract, because a run does not go beyond a failed
`thread_resume(0)`. -/
theorem reach_contract (hcap : S.threads < maxCapacity) (hm : Reach S.program.runs m) :
    Reach (S.program.runs.guard (KeepsContract S.program)) m := by
  refine hm.guard fun m l m' hr hs => ?_
  obtain ⟨a, ha, h⟩ := reach hr
  by_cases hcpu : m.cpu = .user (.creating 0 0)
  · cases l with
    | call e al => exact absurd hs (resume_self ha h hcpu)
    | _ =>
      intro cl hcl
      cases hcl
  · exact keepsContract hcap ha h hcpu

/-- `addrs` has room for every thread that has been created. -/
theorem created_lt (hm : Reach S.program.runs m) (hc : m.created i = true) : i < maxCapacity := by
  obtain ⟨a, -, h, hlt⟩ : ∃ a, Reach S.program.aruns a ∧ Sim S.program False m a ∧
      ∀ i, a.created i = true → i < maxCapacity := by
    clear hc
    induction hm with
    | init h₀ =>
      obtain ⟨mem, t, link, g, hb, hg, rfl⟩ := h₀
      obtain ⟨a, ha, h⟩ : ∃ a : AMach (GreenPc n) (Shared n), a.Init S.program ∧
        Sim S.program False (Mach.boot S.program mem t link g) a := Sim.boot hb hg False.elim
      refine ⟨a, .init ha, h, fun i hi => ?_⟩
      rw [ha.created i, beq_iff_eq] at hi
      rw [hi]
      decide
    | step _ hs ih =>
      obtain ⟨a, ha, h, hlt⟩ := ih
      obtain ⟨a', h', rfl | ⟨k, hstep⟩⟩ := sim_step ha h hs
      · exact ⟨a', ha, h', hlt⟩
      · refine ⟨a', .step ha hstep, h', fun i hi => ?_⟩
        rcases hstep.created_cases hi with hold | hplace
        · exact hlt i hold
        · obtain ⟨link, c⟩ := h'.repr.core
          exact (c.record i _ (c.addrs i hplace)).2.2.1
  exact hlt i (h.created ▸ hc)

/-! ## The code of the server -/

section Code

variable (hset : SetUp a) (hsafe : a.g.buf.Safe S.limit a.g.changes) (hi : a.sched.running = some i)
  (h0 : i ≠ 0)
include hset hsafe hi h0

/-- A handler at its test goes on: the primitives have been created, and the assertion behind the
test holds. -/
theorem test_ne_none {g : Shared n} (hprim : g.prim = a.g.prim) (hbuf : g.buf = a.g.buf)
    (role : Role) (c : Fin n) (sl : ℕ) : ∃ x, S.test g role c sl = some x := by
  have hassigned := (hset.assigned (by rw [hi]; simpa using h0)).2
  have hmade : ∀ x, ∃ p, g.prim x = some p := fun x => hprim ▸ hassigned.made x List.not_mem_nil
  have hlist : ∀ role, ∃ p, g.list role = some p := by
    rintro (_ | _) <;> exact hmade _
  rw [test]
  split
  · split
    · obtain ⟨p, hp⟩ := hmade .lockGlobal
      rw [hp]
      exact ⟨_, rfl⟩
    · obtain ⟨p, hp⟩ := hlist role
      rw [hp]
      exact ⟨_, rfl⟩
  · rename_i hb
    have hallowed : g.buf.allowed role = true := by
      rw [hbuf] at hb ⊢
      exact hsafe.range.allowed (by simpa using hb)
    obtain ⟨p, hp⟩ := hlist role.other
    rw [if_pos hallowed, hp]
    exact ⟨_, rfl⟩

theorem enter_ne_none {g : Shared n} (hprim : g.prim = a.g.prim) (hbuf : g.buf = a.g.buf)
    (role : Role) (c : Fin n) (sl : ℕ) : ∃ x, S.enter g role c sl = some x := by
  rw [enter]
  split
  · obtain ⟨p, hp⟩ := (hset.assigned (by rw [hi]; simpa using h0)).2.made .lockGlobal
      List.not_mem_nil
    rw [hprim, hp]
    exact ⟨_, rfl⟩
  · exact test_ne_none hset hsafe hi h0 hprim hbuf role c sl

/-- **The assertions of the server's own code hold**: a server thread has a next call, unless it
waits for a request. -/
theorem next_ne_none (hinv : (desk a).Inv) (hmax : n ≤ clientMax) {u : GreenPc n}
    (hf : a.frame i = .user u) (hu : u ≠ .recv) (e : Option (Fin n)) :
    ∃ x, S.next e (a.view i) u a.g = some x := by
  have hloop := hset.shape.loop i h0 (by simp [place_running hi])
  rw [hf] at hloop
  cases hloop with
  | user hin =>
    cases u with
    | recv => exact absurd rfl hu
    | got c r =>
      cases r with
      | op role =>
        exact enter_ne_none (g := a.g.saveCaller (a.view i).slot) hset hsafe hi h0 rfl rfl role c _
      | _ => exact ⟨_, rfl⟩
    | inited c id =>
      have hfit := hinv.fits i
      rw [desk_job (live_of_frame hset hi hf trivial), hf] at hfit
      have hle : (desk a).g.clientNew ≤ n := by simpa using hinv.ids.le
      have hid : id < clientMax := (hinv.ids.lt c id hfit.2.2.2.1).trans_le (hle.trans hmax)
      exact ⟨_, if_pos hid⟩
    | serve stage role c sl =>
      have hmade := (hset.assigned (by rw [hi]; simpa using h0)).2.made
      cases stage with
      | test => exact test_ne_none hset hsafe hi h0 rfl rfl role c sl
      | released =>
        obtain ⟨p, hp⟩ : ∃ p, a.g.list role = some p := by
          cases role <;> exact hmade _ List.not_mem_nil
        simp only [GreenServer.next, serve, hp]
        exact ⟨_, rfl⟩
      | slept =>
        exact enter_ne_none (g := { a.g with waitCount := a.g.waitCount + 1 }) hset hsafe hi h0 rfl
          rfl role c sl
      | woke =>
        obtain ⟨p, hp⟩ := hmade .lockGlobal List.not_mem_nil
        simp only [GreenServer.next, serve, hp]
        exact ⟨_, rfl⟩
      | reply => exact ⟨_, rfl⟩
    | _ => exact hin.elim

end Code

/-- So what user code does next goes through, with allocators that hand out what is not in use. -/
theorem step_of_next (hcap : S.threads < maxCapacity) (hm : Reach S.program.runs m) {u : GreenPc n}
    (hcpu : m.cpu = .user u) (hu : u ≠ .creating 0 0) {al : Alloc} (hal : al.Fresh m.st)
    {e : Option (Fin n)} {x : Call (GreenPc n) × (Option ℕ → GreenPc n) × Shared n}
    (hn : S.next e m.st.view u m.g = some x) : ∃ m', m.step S.program (.call e al) = .ok m' := by
  obtain ⟨a, ha, h⟩ := reach hm
  obtain ⟨cl, ret, g⟩ := x
  have hcalls : m.Calls S.program (.call e al) cl := ⟨e, al, u, ret, g, rfl, hcpu, hn⟩
  have hkeep : KeepsContract S.program m (.call e al) :=
    keepsContract hcap ha h (by rw [hcpu]; simpa using hu)
  exact (handover S).call_ok (reach_contract hcap hm) hal hcalls
    (hkeep cl (Mach.calls_iff.mp hcalls))

/-- **No thread of the server fails.** What can be in its way is a request that does not come, and
memory or slots that are exhausted in the set-up. -/
structure Unfailing (S : GreenServer n) (m : Mach (GreenPc n) (Shared n)) : Prop where
  /-- thread 0 goes on, if the allocations it asserts have succeeded -/
  main : ∀ u, m.cpu = .user u → u.InMain → u ≠ .creating 0 0 →
    (∀ x todo, u ≠ .pool (some (x, none)) todo) → ∀ e al, al.Fresh m.st →
    ∃ m', m.step S.program (.call e al) = .ok m'
  /-- a server thread goes on with the request it has -/
  loop : ∀ u, m.st.coCurrentId ≠ 0 → m.cpu = .user u → u ≠ .recv → ∀ e al, al.Fresh m.st →
    ∃ m', m.step S.program (.call e al) = .ok m'
  /-- and receives any request that has been made -/
  recv : m.cpu = .user .recv → ∀ c r, (m.g.client c).phase = .asked r → ∀ al, al.Fresh m.st →
    ∃ m', m.step S.program (.call (some c) al) = .ok m'
  /-- it goes on inside `thread_lock_acquire` -/
  turn : (∀ u, m.cpu ≠ .user u) → ∃ m', m.step S.program .turn = .ok m'

end GreenServer

/-- **The green server does not fail**, in either version, with any number of clients that the table
of reply capabilities has room for and any number of threads that the library has room for: in every
state of every run the running thread can go on. -/
theorem server_unfailing {n : ℕ} (S : GreenServer n) (hmax : n ≤ clientMax) (hlimit : 0 ≤ S.limit)
    (hthreads : S.threads ≠ 0) (hcap : S.threads < maxCapacity) (m : Mach (GreenPc n) (Shared n))
    (hm : Reach S.program.runs m) : GreenServer.Unfailing S m := by
  obtain ⟨a, ha, h⟩ := GreenServer.reach hm
  have hset := GreenServer.SetUp.of_reach ha
  refine ⟨fun u hcpu hmain hu hpool e al hal => ?_, fun u hco hcpu hu e al hal => ?_,
    fun hcpu c r hphase al hal => ?_, fun hcpu => ?_⟩
  · obtain ⟨x, hx⟩ : ∃ x, S.next e m.st.view u m.g = some x := by
      have hcontinued : ∀ g todo, ∃ x, S.mainContinued g todo = some x := by
        rintro g (_ | ⟨v, vs⟩)
        · obtain ⟨k, hk⟩ := Nat.exists_eq_succ_of_ne_zero hthreads
          rw [GreenServer.mainContinued, if_neg hthreads, hk]
          exact ⟨_, rfl⟩
        · exact ⟨_, rfl⟩
      cases u with
      | pool got todo =>
        rcases got with _ | ⟨x, _ | p⟩
        · exact hcontinued _ todo
        · exact absurd rfl (hpool x todo)
        · exact hcontinued _ todo
      | creating left res => cases left <;> exact ⟨_, rfl⟩
      | _ => exact hmain.elim
    exact GreenServer.step_of_next hcap hm hcpu hu hal hx
  · rcases hr : a.sched.running with _ | i
    · exact absurd (h.idle hr).2.1 hco
    · have h0 : i ≠ 0 := h.coCurrentId hr ▸ hco
      have hf := (h.cpu i hr).symm.trans hcpu
      obtain ⟨x, hx⟩ := GreenServer.next_ne_none hset (GreenServer.safe_of_aruns hlimit ha) hr h0
        (GreenServer.inv_of_reach ha) hmax hf hu e
      rw [← h.view hr, ← h.g] at hx
      refine GreenServer.step_of_next hcap hm hcpu ?_ hal hx
      rintro rfl
      have hloop := hset.shape.loop i h0 (by simp [Sched.place_running hr])
      rw [hf] at hloop
      cases hloop with
      | user hin => exact hin
  · have hx : S.next (some c) m.st.view .recv m.g =
        some (.pause, fun _ => .got c r, m.g.receive c r) := by
      simp only [GreenServer.next, hphase]
    exact GreenServer.step_of_next hcap hm hcpu (by simp) hal hx
  · exact (GreenServer.handover S).turn_ok (GreenServer.reach_contract hcap hm) hcpu

/-- A handler inside `thread_lock_acquire`, with the lock free: its next turn takes the lock. -/
theorem server_unfailing_acquiring : ∃ m,
    Reach (GreenServer.program (n := 1) ⟨true, 1, 1, fun _ _ => true⟩).runs m ∧
      m.cpu.uses 2 = true ∧ m.st.held 2 = 0 ∧
      GreenServer.Unfailing ⟨true, 1, 1, fun _ _ => true⟩ m := by
  obtain ⟨m, hm, huses, hheld⟩ := Mach.exists_of_reaches
    (P := GreenServer.program (n := 1) ⟨true, 1, 1, fun _ _ => true⟩) (fun _ _ => True)
    (fun _ _ _ _ h => h) (.init GreenServer.boot_init)
    (GreenServer.startup 1 ++ GreenServer.initCall 0 2 ++
      GreenServer.asks 0 (.op .producer) ++ [GreenServer.go 0])
    (fun m => m.cpu.uses 2 = true ∧ m.st.held 2 = 0) (by decide +kernel)
  exact ⟨m, hm, huses, hheld,
    server_unfailing _ (by decide) (by decide) (by decide) (by decide) m hm⟩

end GreenLib
