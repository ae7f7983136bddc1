import GreenLib.Handover
import GreenLib.Owners

/-!
# Scripts under a monitor

A `Task` is a script together with the set of locks its thread holds. The monitor
`Call.after` lets a thread make a call only if the call keeps the rules of the lock
library: release what you hold, acquire what you do not hold, exit with empty hands,
sleep on plain primitives only. So every script, run as a task, is a program for which
the results about locks, condition variables and semaphores are stated.
-/

namespace GreenLib

variable {U V : Type}

/-- The same call, with another type of user states. Only `thread_create` carries a state. -/
def Call.map (f : U → V) : Call U → Call V
  | .pause => .pause
  | .create u => .create (f u)
  | .yield => .yield
  | .resume id => .resume id
  | .exit => .exit
  | .sleep p => .sleep p
  | .wakeup p => .wakeup p
  | .wakeupWait p => .wakeupWait p
  | .primInit => .primInit
  | .lockCreate => .lockCreate
  | .lockDestory l => .lockDestory l
  | .acquire l => .acquire l
  | .release l => .release l
  | .releaseAcquire l => .releaseAcquire l
  | .semCreate => .semCreate
  | .semDestory sem => .semDestory sem
  | .semP sem => .semP sem
  | .semV sem => .semV sem
  | .cvWait cv l => .cvWait cv l
  | .cvSignal cv => .cvSignal cv
  | .join id => .join id
  | .cspaceAlloc => .cspaceAlloc

/-- What a thread that holds `hs` holds after the call, if the call keeps the rules.
`thread_lock_release_acquire` is allowed with `fused` only. -/
def Call.after (fused : Bool) (kind : Addr → Option PrimKind) (hs : Finset Addr) :
    Call U → Option (Finset Addr)
  | .acquire l => if l ∈ hs then none else some (insert l hs)
  | .release l => if l ∈ hs then some (hs.erase l) else none
  | .releaseAcquire l => if fused ∧ l ∈ hs then some hs else none
  | .cvWait cv l => if l ∈ hs ∧ kind cv = some .plain then some hs else none
  | .exit => if hs = ∅ then some ∅ else none
  | .sleep p => if kind p = some .plain then some hs else none
  | .wakeup p => if kind p = some .plain then some hs else none
  | .wakeupWait p => if kind p = some .plain then some hs else none
  | .cvSignal p => if kind p = some .plain then some hs else none
  | .lockDestory _ => none
  | .semDestory _ => none
  | _ => some hs

section After

variable {fused : Bool} {kind : Addr → Option PrimKind} {hs hs' : Finset Addr} {d : Call Script}
  {f : Script → V}

/-- The monitor keeps track of what a thread holds, so programs that run under it are balanced by
construction. -/
theorem Call.balanced_of_after {held : V → Finset Addr} {u : V} {ret : Option ℕ → V}
    (hf : ∀ s, held (f s) = ∅) (hret : ∀ r, held (ret r) = hs')
    (h : d.after fused kind (held u) = some hs') : (d.map f).Balanced held u ret := by
  cases d <;> simp only [Call.after, Option.ite_none_left_eq_some, Option.ite_none_right_eq_some,
    Option.some.injEq, reduceCtorEq] at h
  case acquire l => exact ⟨h.1, (hret none).trans h.2.symm⟩
  case release l => exact ⟨h.1, (hret none).trans h.2.symm⟩
  case releaseAcquire l => exact ⟨h.1.2, (hret none).trans h.2.symm⟩
  case cvWait cv l => exact ⟨h.1.1, (hret none).trans h.2.symm⟩
  case exit => exact h.1
  case create s => exact ⟨hf s, fun r => (hret r).trans h.symm⟩
  all_goals first
    | exact fun r => (hret r).trans h.symm
    | exact fun r => (hret r).trans h.2.symm

/-- It leaves the queues of locks and semaphores to acquire and P, but for
`thread_lock_release_acquire`. -/
theorem Call.leaves_of_after (W : Watch) (h : d.after fused kind hs = some hs') :
    (d.map f).Leaves W kind ∨ fused = true ∧ ∃ l, d.map f = .releaseAcquire l := by
  cases d <;> simp only [Call.after, Option.ite_none_left_eq_some, Option.ite_none_right_eq_some,
    reduceCtorEq] at h
  case releaseAcquire l => exact .inr ⟨h.1.1, l, rfl⟩
  all_goals refine .inl ?_
  all_goals first | exact Watch.off_plain h.1 | exact h.1.2 | trivial

/-- It changes nothing for a thread 0 that only sets up: the calls are those of the script. -/
theorem Script.HandsOver.call {rest : Script} (h : (Script.call d rest).HandsOver) :
    (d.map f).Setup ∧ rest.HandsOver ∨ (∃ id, d.map f = .resume id) ∧ rest = .done := by
  cases d with
  | resume id => exact .inr ⟨⟨id, rfl⟩, h⟩
  | _ => exact .inl h

end After

/-- A thread under the monitor: the locks it holds, and the rest of its script. -/
structure Task : Type where
  held : Finset Addr
  rest : Script

namespace Task

/-- A thread that begins. -/
def new (s : Script) : Task := ⟨∅, s⟩

/-- The script `main` under the monitor. A call that breaks the rules is not made, and the thread
stops there. -/
def program (fused : Bool) (main : Script) : Program Task Unit Unit Unit where
  main := new main
  init _ := True
  next _ v u g :=
    match u.rest with
    | .done => none
    | .call c rest =>
      (c.after fused v.kind u.held).map fun hs => (c.map new, fun _ => ⟨hs, rest⟩, g)
  env _ _ := none

/-- The machine on which the script starts. -/
def boot (fused : Bool) (main : Script) : Mach Task Unit :=
  Mach.boot (program fused main) State.zero 0 0 ()

variable {fused : Bool} {main : Script}

theorem boot_init : (program fused main).runs.init (boot fused main) :=
  ⟨State.zero, 0, 0, (), State.zero_blank, trivial, rfl⟩

/-- What the monitor has let through: the next call of the script, with the set of locks that it
leaves. -/
theorem next_eq_some {act : Unit} {v : View} {u : Task} {g g' : Unit} {c : Call Task}
    {ret : Option ℕ → Task} (h : (program fused main).next act v u g = some (c, ret, g')) :
    ∃ d rest hs, u.rest = .call d rest ∧ d.after fused v.kind u.held = some hs ∧
      c = d.map new ∧ ret = fun _ => ⟨hs, rest⟩ := by
  simp only [program] at h
  split at h
  · cases h
  · rename_i d rest hr
    obtain ⟨hs, hd, he⟩ := Option.map_eq_some_iff.mp h
    obtain ⟨h₁, h₂⟩ := Prod.mk.inj he
    exact ⟨d, rest, hs, hr, hd, h₁.symm, (Prod.mk.inj h₂).1.symm⟩

theorem balanced : (program fused main).Balanced Task.held := by
  refine ⟨rfl, fun {act v u g c ret g'} h => ?_⟩
  obtain ⟨d, rest, hs, -, hd, rfl, rfl⟩ := next_eq_some h
  exact Call.balanced_of_after (fun _ => rfl) (fun _ => rfl) hd

theorem leaves (W : Watch) : (program false main).Leaves W := by
  intro act v u g c ret g' h
  obtain ⟨d, rest, hs, -, hd, rfl, rfl⟩ := next_eq_some h
  exact (Call.leaves_of_after W hd).resolve_right nofun

theorem handover (h : main.HandsOver) :
    (program fused main).Handover (·.rest.HandsOver) (·.rest = .done) := by
  refine ⟨h, fun {act v u g c ret g'} hu hn => ?_, fun {act v u g} hu => by simp only [program, hu]⟩
  obtain ⟨d, rest, hs, hr, -, rfl, rfl⟩ := next_eq_some hn
  rw [hr] at hu
  rcases hu.call (f := new) with ⟨hd, hrest⟩ | ⟨hd, hrest⟩
  · exact .inl ⟨hd, fun _ => hrest⟩
  · exact .inr ⟨hd, hrest⟩

end Task

end GreenLib
