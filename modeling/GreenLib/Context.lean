import GreenLib.Asm
import GreenLib.Run
import Mathlib.Data.BitVec

/-!
# Context switching

`swap_context`, `switch_context` and `bouncer` of `thread_lib.c`, executed instruction by
instruction, and the stack and context that `thread_create` prepares. A context record begins with
the fields `esp` and `eip`, at the offsets 0 and 4.

The threads are the elements of a type. Each has a stack and a context record of its own
(`StackLayout`); nothing is known about the code they run but that it leaves alone what a suspended
thread needs: its context record, and its stack at and above the `esp` saved there. A thread leaves
the processor through `swap_context` and comes back in the state in which an ordinary call would
have returned (`context_switch_transparent`); a new thread begins in its function, with its argument
on the stack and with the call of `thread_exit` as its return address.
-/

namespace GreenLib

/-! ## The code -/

/-- `swap_context(cur, new)`; `label` is the address of the local label `1`. The part behind the
label is not reached from above it: it is where a suspended thread comes back. -/
def swapContext (label : Word) : List Instr :=
  [.load 4 .esp .ecx,
    .load 8 .esp .edx,
    .push .ebp,
    .push .ebx,
    .push .esi,
    .push .edi,
    .store .esp 0 .ecx,
    .load 0 .edx .esp,
    .storeImm label 4 .ecx,
    .pushMem 4 .edx,
    .ret,
    -- 1:
    .pop .edi,
    .pop .esi,
    .pop .ebx,
    .pop .ebp,
    .ret]

/-- `switch_context(new)`, which saves nothing: the caller is not coming back. -/
def switchContext : List Instr :=
  [.load 4 .esp .edx,
    .load 0 .edx .esp,
    .pushMem 4 .edx,
    .ret]

/-- `bouncer`: call the function whose address and argument lie on the stack, and `thread_exit` when
it returns. -/
def bouncer (threadExit : Word) : List Instr :=
  [.pop .eax,
    .pop .ebx,
    .pushImm 0,
    .xor .ebp .ebp,
    .push .eax,
    .callReg .ebx,
    .call threadExit]

/-- `stack_push`: the memory afterwards and the new stack pointer. -/
def stackPush (mem : Word → Word) (stack v : Word) : (Word → Word) × Word :=
  (Function.update mem (stack - 4) v, stack - 4)

/-- The lines of `thread_create` that prepare the stack below `top` and the context record. The
first one writes the address of the context to the word 64 KiB below `top`. -/
def prepareContext (mem : Word → Word) (context top bounce func arg : Word) : Word → Word :=
  let mem := Function.update mem (top - 65536) context
  let (mem, stack) := stackPush mem top func
  let (mem, stack) := stackPush mem stack arg
  let mem := Function.update mem context stack
  Function.update mem (context + 4) bounce

/-- The three listings in memory. The code of the threads and `thread_exit` lie elsewhere. -/
structure CodeImage : Type where
  fetch : Fetch
  swap : ℕ → Word
  switch : ℕ → Word
  bounce : ℕ → Word
  threadExit : Word
  swap_placed : Placed fetch swap (swapContext (swap 11))
  switch_placed : Placed fetch switch switchContext
  bounce_placed : Placed fetch bounce (bouncer threadExit)
  exit_outside : fetch threadExit = none

/-! ## Stacks -/

/-- The word at `a` belongs to the stack between `base` and `top`. The bounds are numbers, so a
stack does not wrap around. -/
def InStack (base : ℕ) (top a : Word) : Prop := base ≤ a.toNat ∧ a.toNat < top.toNat

/-- A stack and a context record for each thread, all of them disjoint. This is what `malloc` has to
provide. -/
structure StackLayout (T : Type) : Type where
  base : T → ℕ
  top : T → Word
  ctx : T → Word
  size : ∀ t, base t + 65536 ≤ (top t).toNat
  disjoint : ∀ t u a, t ≠ u → InStack (base t) (top t) a → ¬ InStack (base u) (top u) a
  ctx_outside : ∀ t u, ¬ InStack (base u) (top u) (ctx t) ∧ ¬ InStack (base u) (top u) (ctx t + 4)
  ctx_disjoint : ∀ t u, t ≠ u → ctx t ≠ ctx u ∧ ctx t ≠ ctx u + 4

namespace StackLayout

variable {T : Type} (L : StackLayout T)

/-- The word at `a` belongs to the stack of `t`, used or not. -/
def Stack (t : T) (a : Word) : Prop := InStack (L.base t) (L.top t) a

/-- The words of `t` that must survive while `t` does not run: its context record, and its stack at
and above the saved `esp`. -/
def Guarded (mem : Word → Word) (t : T) (a : Word) : Prop :=
  a = L.ctx t ∨ a = L.ctx t + 4 ∨ L.Stack t a ∧ (mem (L.ctx t)).toNat ≤ a.toNat

end StackLayout

/-! ## Threads -/

/-- What a caller finds in the registers when a call returns: those that the calling convention
preserves, and where it goes on. -/
structure Saved32 : Type where
  esp : Word
  ebp : Word
  ebx : Word
  esi : Word
  edi : Word
  eip : Word

/-- The state in which a cdecl function entered in the state `c` returns: the registers it has to
preserve, the return address, and the stack pointer above the latter. -/
def Cpu.afterCall (c : Cpu) : Saved32 where
  esp := c.reg .esp + 4
  ebp := c.reg .ebp
  ebx := c.reg .ebx
  esi := c.reg .esi
  edi := c.reg .edi
  eip := c.mem (c.reg .esp)

/-- Where a thread is. The phases carry what has been promised to a thread that is not running. -/
inductive Phase : Type where
  | absent
  /-- created, not entered yet -/
  | fresh (func arg : Word)
  | running
  /-- it left through `swap_context`; the call should return as `r` says, to the memory `m` -/
  | left (r : Saved32) (m : Word → Word)
  /-- it left through `switch_context` -/
  | gone

/-- The thread can be switched to, for the first time or again. -/
def Phase.Parked : Phase → Prop
  | .fresh .. | .left .. => True
  | _ => False

/-- The processor, the thread that runs on it, and the phases of all threads. The phases are
history: no code reads them. -/
structure Switching (T : Type) : Type where
  cpu : Cpu
  cur : T
  phase : T → Phase

variable {T : Type} [DecidableEq T] (img : CodeImage) (L : StackLayout T)

namespace Switching

/-- The phases after the running thread has left through `swap_context`, with the promise that its
call returns as any call does. -/
def leave (x : Switching T) : T → Phase :=
  Function.update x.phase x.cur (.left x.cpu.afterCall x.cpu.mem)

/-- The running thread has called `swap_context` from its own code to switch to `t`, with room for
five words on its stack. -/
structure SwapCall (x : Switching T) (t : T) : Prop where
  eip : x.cpu.eip = img.swap 0
  caller : img.fetch (x.cpu.mem (x.cpu.reg .esp)) = none
  arg₁ : x.cpu.mem (x.cpu.reg .esp + 4) = L.ctx x.cur
  arg₂ : x.cpu.mem (x.cpu.reg .esp + 8) = L.ctx t
  low : L.base x.cur + 20 ≤ (x.cpu.reg .esp).toNat
  high : (x.cpu.reg .esp).toNat + 4 ≤ (L.top x.cur).toNat
  target : (x.leave t).Parked

/-- The running thread has called `switch_context` to switch to `t`. It needs no room on its
stack. -/
structure SwitchCall (x : Switching T) (t : T) : Prop where
  eip : x.cpu.eip = img.switch 0
  arg : x.cpu.mem (x.cpu.reg .esp + 4) = L.ctx t
  target : (x.phase t).Parked

end Switching

/-- What happens next, from the view of the running thread. -/
inductive SwitchLabel (T : Type) : Type where
  /-- the running thread executes code of its own -/
  | user
  /-- … in particular the lines of `thread_create` that prepare `t` -/
  | create (t : T) (func arg : Word)
  | swap (t : T)
  | switch (t : T)
  /-- the function of the running thread has returned -/
  | ret

/-- The steps of the threads. The code of a thread may change all registers and the whole memory but
what the parked threads need. -/
def Switching.Step (x : Switching T) (l : SwitchLabel T) (x' : Switching T) : Prop :=
  match l with
  | .user => img.fetch x.cpu.eip = none ∧ x'.cur = x.cur ∧ x'.phase = x.phase ∧
      ∀ t, (x.phase t).Parked → ∀ a, L.Guarded x.cpu.mem t a → x'.cpu.mem a = x.cpu.mem a
  | .create t func arg => img.fetch x.cpu.eip = none ∧ img.fetch func = none ∧
      (x.phase t = .absent ∨ x.phase t = .gone) ∧
      x' = { x with
        cpu := { x.cpu with
          mem := prepareContext x.cpu.mem (L.ctx t) (L.top t) (img.bounce 0) func arg }
        phase := Function.update x.phase t (.fresh func arg) }
  | .swap t => x.SwapCall img L t ∧ Exec img.fetch x.cpu x'.cpu ∧ x'.cur = t ∧
      x'.phase = Function.update x.leave t .running
  | .switch t => x.SwitchCall img L t ∧ Exec img.fetch x.cpu x'.cpu ∧ x'.cur = t ∧
      x'.phase = Function.update (Function.update x.phase x.cur .gone) t .running
  | .ret => x.cpu.eip = img.bounce 6 ∧ L.Stack x.cur (x.cpu.reg .esp - 4) ∧
      Exec img.fetch x.cpu x'.cpu ∧ x'.cur = x.cur ∧ x'.phase = x.phase

/-- The runs that begin with one thread on the processor and no other. Registers and memory are
arbitrary. -/
def switchRuns : Lts (Switching T) (SwitchLabel T) where
  init x := x.phase x.cur = .running ∧ ∀ t, t ≠ x.cur → x.phase t = .absent
  step := Switching.Step img L

variable {img L} in
theorem Switching.Step.reach {x x' : Switching T} {l : SwitchLabel T} (hs : x.Step img L l x')
    (hx : Reach (switchRuns img L) x) : Reach (switchRuns img L) x' :=
  .step (l := l) hx hs

/-- The state in which a thread that was in the given phase gets the processor: a new thread is at
the beginning of its function, with its argument, and will return to the call of `thread_exit`; a
suspended thread is behind its call of `swap_context`, with the registers and the stack a call has
to preserve. -/
def Arrives (t : T) : Phase → Cpu → Prop
  | .fresh func arg, c => c.eip = func ∧ c.mem (c.reg .esp + 4) = arg ∧
      c.mem (c.reg .esp) = img.bounce 6
  | .left r m, c => c.reg .esp = r.esp ∧ c.reg .ebp = r.ebp ∧ c.reg .ebx = r.ebx ∧
      c.reg .esi = r.esi ∧ c.reg .edi = r.edi ∧ c.eip = r.eip ∧
      ∀ a, L.Stack t a → r.esp.toNat ≤ a.toNat → c.mem a = m a
  | _, _ => False

/-- **Context switching is transparent**: whoever is switched to arrives as promised, and a function
that returns ends in `thread_exit`. -/
structure SwitchLaw (x : Switching T) : Prop where
  /-- `swap_context` leads to the thread it is called for -/
  swap : ∀ t, x.SwapCall img L t → ∃ c, Exec img.fetch x.cpu c ∧ Arrives img L t (x.leave t) c
  /-- and so does `switch_context` -/
  switch : ∀ t, x.SwitchCall img L t → ∃ c, Exec img.fetch x.cpu c ∧ Arrives img L t (x.phase t) c
  /-- a function that returns gets to `thread_exit` -/
  ret : ∀ c : Cpu, c.eip = img.bounce 6 → ∃ c', Exec img.fetch c c' ∧ c'.eip = img.threadExit

/-! ## What a parked thread relies on -/

/-- The memory holds what is needed to enter `t` for the first time, as `thread_create` has left
it. -/
structure Prepared (mem : Word → Word) (t : T) (func arg : Word) : Prop where
  esp : mem (L.ctx t) = L.top t - 8
  eip : mem (L.ctx t + 4) = img.bounce 0
  top₈ : mem (L.top t - 8) = arg
  top₄ : mem (L.top t - 4) = func
  outside : img.fetch func = none

/-- The memory holds what is needed to return to `t` as `r` says: four saved registers, the return
address, and the stack above them. -/
structure Suspended (mem : Word → Word) (t : T) (r : Saved32) (m : Word → Word) : Prop where
  low : L.base t + 24 ≤ r.esp.toNat
  high : r.esp.toNat ≤ (L.top t).toNat
  esp : mem (L.ctx t) = r.esp - 20
  eip : mem (L.ctx t + 4) = img.swap 11
  edi : mem (r.esp - 20) = r.edi
  esi : mem (r.esp - 16) = r.esi
  ebx : mem (r.esp - 12) = r.ebx
  ebp : mem (r.esp - 8) = r.ebp
  ret : mem (r.esp - 4) = r.eip
  frame : ∀ a, L.Stack t a → r.esp.toNat ≤ a.toNat → mem a = m a
  outside : img.fetch r.eip = none

/-- The memory holds what a thread in the given phase relies on. A thread that runs or is gone
relies on nothing. -/
def Holds (mem : Word → Word) (t : T) : Phase → Prop
  | .fresh func arg => Prepared img L mem t func arg
  | .left r m => Suspended img L mem t r m
  | _ => True

variable {img L}

omit [DecidableEq T] in
/-- The words a new thread relies on are guarded, so they survive what the other threads do. -/
theorem Prepared.frame {mem mem' : Word → Word} {t : T} {func arg : Word}
    (h : Prepared img L mem t func arg) (hm : ∀ a, L.Guarded mem t a → mem' a = mem a) :
    Prepared img L mem' t func arg := by
  have hsize := L.size t
  have hstack : ∀ k : Word, k = 4 ∨ k = 8 → mem' (L.top t - k) = mem (L.top t - k) := by
    intro k hk
    refine hm _ (.inr (.inr ⟨⟨?_, ?_⟩, ?_⟩))
    · rcases hk with rfl | rfl <;> bv_omega
    · rcases hk with rfl | rfl <;> bv_omega
    · rw [h.esp]
      rcases hk with rfl | rfl <;> bv_omega
  refine ⟨(hm _ (.inl rfl)).trans h.esp, (hm _ (.inr (.inl rfl))).trans h.eip, ?_, ?_, h.outside⟩
  · exact (hstack 8 (.inr rfl)).trans h.top₈
  · exact (hstack 4 (.inl rfl)).trans h.top₄

omit [DecidableEq T] in
/-- The words a suspended thread relies on are guarded, the part of its stack above the saved
registers included. -/
theorem Suspended.keep {mem mem' m : Word → Word} {t : T} {r : Saved32}
    (h : Suspended img L mem t r m) (hm : ∀ a, L.Guarded mem t a → mem' a = mem a) :
    Suspended img L mem' t r m := by
  have hlow := h.low
  have hhigh := h.high
  have habove : ∀ a, L.Stack t a → (r.esp - 20).toNat ≤ a.toNat → mem' a = mem a := by
    intro a ha hle
    refine hm a (.inr (.inr ⟨ha, ?_⟩))
    rwa [h.esp]
  have hstack : ∀ k : Word, 4 ≤ k.toNat → k.toNat ≤ 20 → mem' (r.esp - k) = mem (r.esp - k) := by
    intro k hk₁ hk₂
    refine habove _ ⟨?_, ?_⟩ ?_ <;> bv_omega
  exact {
    low := hlow
    high := hhigh
    esp := (hm _ (.inl rfl)).trans h.esp
    eip := (hm _ (.inr (.inl rfl))).trans h.eip
    edi := (hstack 20 (by decide) (by decide)).trans h.edi
    esi := (hstack 16 (by decide) (by decide)).trans h.esi
    ebx := (hstack 12 (by decide) (by decide)).trans h.ebx
    ebp := (hstack 8 (by decide) (by decide)).trans h.ebp
    ret := (hstack 4 (by decide) (by decide)).trans h.ret
    frame := by
      intro a ha hle
      rw [habove a ha (by bv_omega)]
      exact h.frame a ha hle
    outside := h.outside }

omit [DecidableEq T] in
/-- **Frame rule.** A change that spares the guarded words of a parked thread keeps what it relies
on. -/
theorem Holds.frame {mem mem' : Word → Word} {t : T} {ph : Phase} (h : Holds img L mem t ph)
    (hm : ph.Parked → ∀ a, L.Guarded mem t a → mem' a = mem a) : Holds img L mem' t ph := by
  cases ph with
  | fresh func arg => exact Prepared.frame h (hm trivial)
  | left r m => exact Suspended.keep h (hm trivial)
  | _ => trivial

/-! ## Arriving -/

/-- The two instructions both functions end with: with the context of the target in `edx` and its
stack in `esp` they jump to the saved `eip`, by way of the word below the stack. -/
theorem exec_transfer {fetch : Fetch} {loc : ℕ → Word} {front rest : List Instr} {c c' : Cpu}
    (hp : Placed fetch loc (front ++ [.pushMem 4 .edx] ++ .ret :: rest))
    (hc : c.eip = loc front.length)
    (h : Exec fetch ((c.setMem (c.reg .esp - 4) (c.mem (c.reg .edx + 4))).jump
      (c.mem (c.reg .edx + 4))) c') : Exec fetch c c' := by
  refine .block hp (by simp [Instr.Straight]) hc ?_
  have hret : fetch (loc (front.length + 1)) = some (.ret, loc (front.length + 1 + 1)) :=
    hp _ _ (by simp)
  refine .step hret ?_
  have hreg : Function.update c.reg .esp (c.reg .esp - 4 + 4) = c.reg := by
    rw [BitVec.sub_add_cancel, Function.update_eq_self]
  simp only [runBlock, Instr.exec, Cpu.setReg, Cpu.setMem, Cpu.pushWord, Cpu.jump,
    Function.update_self, Function.update_idem, hreg] at h ⊢
  exact h

/-- The instructions behind the label `1` take the registers from the stack and return. -/
theorem exec_resume {c : Cpu} (hc : c.eip = img.swap 11)
    (hout : img.fetch (c.mem (c.reg .esp + 4 + 4 + 4 + 4)) = none) :
    ∃ c', Exec img.fetch c c' ∧ c'.mem = c.mem ∧ c'.reg .edi = c.mem (c.reg .esp) ∧
      c'.reg .esi = c.mem (c.reg .esp + 4) ∧ c'.reg .ebx = c.mem (c.reg .esp + 4 + 4) ∧
      c'.reg .ebp = c.mem (c.reg .esp + 4 + 4 + 4) ∧
      c'.eip = c.mem (c.reg .esp + 4 + 4 + 4 + 4) ∧
      c'.reg .esp = c.reg .esp + 4 + 4 + 4 + 4 + 4 := by
  have hp : Placed img.fetch img.swap ((swapContext (img.swap 11)).take 11 ++
      [.pop .edi, .pop .esi, .pop .ebx, .pop .ebp] ++ [.ret]) := img.swap_placed
  have hret : img.fetch (img.swap 15) = some (.ret, img.swap 16) := img.swap_placed 15 _ rfl
  refine ⟨_, .block hp (by simp [Instr.Straight]) hc (.step hret (.done hout)), ?_⟩
  exact ⟨rfl, rfl, rfl, rfl, rfl, rfl, rfl⟩

omit [DecidableEq T] in
/-- **A suspended thread comes back** behind its call, with the registers it had there. -/
theorem Suspended.arrive {c : Cpu} {t : T} {r : Saved32} {m : Word → Word}
    (h : Suspended img L c.mem t r m) (hesp : c.reg .esp = r.esp - 20) :
    ∃ c', Exec img.fetch ((c.setMem (c.reg .esp - 4) (img.swap 11)).jump (img.swap 11)) c' ∧
      Arrives img L t (.left r m) c' ∧ ∀ a, ¬ L.Stack t a → c'.mem a = c.mem a := by
  have hlow := h.low
  have hhigh := h.high
  have h₀ : c.reg .esp - 4 = r.esp - 24 := by
    rw [hesp]
    exact sub_sub _ 20 4
  have h₁ : r.esp - 20 + 4 = r.esp - 16 := sub_add _ 20 4
  have h₂ : r.esp - 16 + 4 = r.esp - 12 := sub_add _ 16 4
  have h₃ : r.esp - 12 + 4 = r.esp - 8 := sub_add _ 12 4
  have h₄ : r.esp - 8 + 4 = r.esp - 4 := sub_add _ 8 4
  have h₅ : r.esp - 4 + 4 = r.esp := sub_add_cancel _ 4
  -- the word below the saved stack is none of those that are read back
  have hread : ∀ k : Word, k.toNat ≤ 20 →
      Function.update c.mem (r.esp - 24) (img.swap 11) (r.esp - k) = c.mem (r.esp - k) :=
    fun k hk => Function.update_of_ne (by bv_omega) ..
  have hout : img.fetch (((c.setMem (r.esp - 24) (img.swap 11)).jump (img.swap 11)).mem
      (c.reg .esp + 4 + 4 + 4 + 4)) = none := by
    rw [Cpu.jump_mem, Cpu.setMem_mem, hesp, h₁, h₂, h₃, h₄, hread 4 (by decide), h.ret]
    exact h.outside
  obtain ⟨c', hexec, hmem, hedi, hesi, hebx, hebp, heip, hesp'⟩ := exec_resume rfl hout
  rw [Cpu.jump_mem, Cpu.setMem_mem] at hmem hedi hesi hebx hebp heip
  rw [Cpu.jump_reg, Cpu.setMem_reg, hesp] at hedi hesi hebx hebp heip hesp'
  rw [h₀]
  refine ⟨c', hexec, ⟨?_, ?_, ?_, ?_, ?_, ?_, ?_⟩, ?_⟩
  · rw [hesp', h₁, h₂, h₃, h₄, h₅]
  · rw [hebp, h₁, h₂, h₃, hread 8 (by decide), h.ebp]
  · rw [hebx, h₁, h₂, hread 12 (by decide), h.ebx]
  · rw [hesi, h₁, hread 16 (by decide), h.esi]
  · rw [hedi, hread 20 (by decide), h.edi]
  · rw [heip, h₁, h₂, h₃, h₄, hread 4 (by decide), h.ret]
  · intro a ha hle
    rw [hmem, Function.update_of_ne (by bv_omega)]
    exact h.frame a ha hle
  · intro a ha
    rw [hmem, Function.update_of_ne]
    rintro rfl
    exact ha ⟨by bv_omega, by bv_omega⟩

/-- `bouncer` calls the function on the stack with the argument below it. -/
theorem exec_bounce {c : Cpu} (hc : c.eip = img.bounce 0)
    (hout : img.fetch (c.mem (c.reg .esp + 4)) = none) :
    ∃ c', Exec img.fetch c c' ∧ c'.eip = c.mem (c.reg .esp + 4) ∧
      c'.reg .esp = c.reg .esp + 4 + 4 - 4 - 4 - 4 ∧
      c'.mem = Function.update (Function.update (Function.update c.mem (c.reg .esp + 4 + 4 - 4) 0)
        (c.reg .esp + 4 + 4 - 4 - 4) (c.mem (c.reg .esp))) (c.reg .esp + 4 + 4 - 4 - 4 - 4)
        (img.bounce 6) := by
  have hp : Placed img.fetch img.bounce ([] ++ [.pop .eax, .pop .ebx, .pushImm 0, .xor .ebp .ebp,
      .push .eax] ++ [.callReg .ebx, .call img.threadExit]) := img.bounce_placed
  have hcall : img.fetch (img.bounce 5) = some (.callReg .ebx, img.bounce 6) :=
    img.bounce_placed 5 _ rfl
  refine ⟨_, .block hp (by simp [Instr.Straight]) hc (.step hcall (.done hout)), ?_⟩
  exact ⟨rfl, rfl, rfl⟩

omit [DecidableEq T] in
/-- **A new thread begins** in its function, with its argument and a return address in `bouncer`. -/
theorem Prepared.arrive {c : Cpu} {t : T} {func arg : Word}
    (h : Prepared img L c.mem t func arg) (hesp : c.reg .esp = L.top t - 8) :
    ∃ c', Exec img.fetch ((c.setMem (c.reg .esp - 4) (img.bounce 0)).jump (img.bounce 0)) c' ∧
      Arrives img L t (.fresh func arg) c' ∧ ∀ a, ¬ L.Stack t a → c'.mem a = c.mem a := by
  have hsize := L.size t
  have h₀ : c.reg .esp - 4 = L.top t - 12 := by
    rw [hesp]
    exact sub_sub _ 8 4
  have h₁ : L.top t - 8 + 4 = L.top t - 4 := sub_add _ 8 4
  have h₂ : L.top t - 4 + 4 - 4 = L.top t - 4 := add_sub_cancel_right _ 4
  have h₃ : L.top t - 4 - 4 = L.top t - 8 := sub_sub _ 4 4
  have h₄ : L.top t - 8 - 4 = L.top t - 12 := sub_sub _ 8 4
  have h₅ : L.top t - 12 + 4 = L.top t - 8 := sub_add _ 12 4
  have hread : ∀ k : Word, k.toNat ≤ 8 →
      Function.update c.mem (L.top t - 12) (img.bounce 0) (L.top t - k) = c.mem (L.top t - k) :=
    fun k hk => Function.update_of_ne (by bv_omega) ..
  have hout : img.fetch (((c.setMem (L.top t - 12) (img.bounce 0)).jump (img.bounce 0)).mem
      (c.reg .esp + 4)) = none := by
    rw [Cpu.jump_mem, Cpu.setMem_mem, hesp, h₁, hread 4 (by decide), h.top₄]
    exact h.outside
  obtain ⟨c', hexec, heip, hesp', hmem⟩ := exec_bounce rfl hout
  rw [Cpu.jump_mem, Cpu.setMem_mem, Cpu.jump_reg, Cpu.setMem_reg, hesp] at heip hmem
  rw [Cpu.jump_reg, Cpu.setMem_reg, hesp, h₁, h₂, h₃, h₄] at hesp'
  rw [h₁, hread 4 (by decide), h.top₄] at heip
  rw [h₁, h₂, h₃, h₄, hread 8 (by decide), h.top₈] at hmem
  rw [h₀]
  refine ⟨c', hexec, ⟨heip, ?_, ?_⟩, ?_⟩
  · rw [hesp', h₅, hmem, Function.update_of_ne (by bv_omega), Function.update_self]
  · rw [hesp', hmem, Function.update_self]
  · intro a ha
    have hne : ∀ k : Word, 0 < k.toNat → k.toNat ≤ 12 → a ≠ L.top t - k := by
      rintro k hk₁ hk₂ rfl
      exact ha ⟨by bv_omega, by bv_omega⟩
    rw [hmem, Function.update_of_ne (hne 12 (by decide) (by decide)),
      Function.update_of_ne (hne 8 (by decide) (by decide)),
      Function.update_of_ne (hne 4 (by decide) (by decide)),
      Function.update_of_ne (hne 12 (by decide) (by decide))]

omit [DecidableEq T] in
/-- **Arrival.** Both functions end in the same way, and then it depends on the phase of the target
what happens. -/
theorem Holds.arrive {loc : ℕ → Word} {front rest : List Instr} {c : Cpu} {t : T} {ph : Phase}
    (h : Holds img L c.mem t ph) (hparked : ph.Parked)
    (hp : Placed img.fetch loc (front ++ [.pushMem 4 .edx] ++ .ret :: rest))
    (hc : c.eip = loc front.length) (hedx : c.reg .edx = L.ctx t)
    (hesp : c.reg .esp = c.mem (L.ctx t)) :
    ∃ c', Exec img.fetch c c' ∧ Arrives img L t ph c' ∧
      ∀ a, ¬ L.Stack t a → c'.mem a = c.mem a := by
  cases ph with
  | fresh func arg =>
    have heip : c.mem (c.reg .edx + 4) = img.bounce 0 := by rw [hedx]; exact Prepared.eip h
    obtain ⟨c', hexec, harr⟩ := Prepared.arrive h (hesp.trans (Prepared.esp h))
    rw [← heip] at hexec
    exact ⟨c', exec_transfer hp hc hexec, harr⟩
  | left r m =>
    have heip : c.mem (c.reg .edx + 4) = img.swap 11 := by rw [hedx]; exact Suspended.eip h
    obtain ⟨c', hexec, harr⟩ := Suspended.arrive h (hesp.trans (Suspended.esp h))
    rw [← heip] at hexec
    exact ⟨c', exec_transfer hp hc hexec, harr⟩
  | _ => exact absurd hparked id

/-! ## Leaving -/

omit [DecidableEq T] in
/-- What one thread relies on belongs to no other thread, since stacks and context records are
disjoint. -/
theorem StackLayout.Guarded.other {mem : Word → Word} {t u : T} {a : Word}
    (h : L.Guarded mem u a) (hne : u ≠ t) : ¬ L.Stack t a ∧ a ≠ L.ctx t ∧ a ≠ L.ctx t + 4 := by
  have hctx := L.ctx_disjoint u t hne
  have hctx' := L.ctx_disjoint t u hne.symm
  rcases h with rfl | rfl | ⟨hstack, -⟩
  · exact ⟨(L.ctx_outside u t).1, hctx.1, hctx.2⟩
  · refine ⟨(L.ctx_outside u t).2, hctx'.2.symm, ?_⟩
    intro he
    exact hctx.1 (by bv_omega)
  · refine ⟨L.disjoint u t a hne hstack, ?_, ?_⟩
    · rintro rfl
      exact (L.ctx_outside t u).1 hstack
    · rintro rfl
      exact (L.ctx_outside t u).2 hstack

/-- The memory after `swap_context`, called in the state `c`, has put four registers on the stack of
the caller and its stack pointer into its context record. -/
def pushedMem (c : Cpu) : Word → Word :=
  let e := c.reg .esp
  let mem := Function.update c.mem (e - 4) (c.reg .ebp)
  let mem := Function.update mem (e - 4 - 4) (c.reg .ebx)
  let mem := Function.update mem (e - 4 - 4 - 4) (c.reg .esi)
  let mem := Function.update mem (e - 4 - 4 - 4 - 4) (c.reg .edi)
  Function.update mem (c.mem (e + 4) + 0) (e - 4 - 4 - 4 - 4)

/-- … and the address of its label behind it. -/
def savedMem (label : Word) (c : Cpu) : Word → Word :=
  Function.update (pushedMem c) (c.mem (c.reg .esp + 4) + 4) label

/-- `swap_context` up to the jump: the caller is saved and the stack of the target is in place. -/
theorem exec_leave {c : Cpu} (hc : c.eip = img.swap 0)
    (hctx : c.mem (c.reg .esp + 8) ≠ c.mem (c.reg .esp + 4) + 4) :
    ∃ c₁, (∀ c', Exec img.fetch c₁ c' → Exec img.fetch c c') ∧ c₁.eip = img.swap 9 ∧
      c₁.reg .edx = c.mem (c.reg .esp + 8) ∧ c₁.mem = savedMem (img.swap 11) c ∧
      c₁.reg .esp = c₁.mem (c.mem (c.reg .esp + 8)) := by
  have hp : Placed img.fetch img.swap ([] ++ [.load 4 .esp .ecx, .load 8 .esp .edx, .push .ebp,
      .push .ebx, .push .esi, .push .edi, .store .esp 0 .ecx, .load 0 .edx .esp,
      .storeImm (img.swap 11) 4 .ecx] ++ [.pushMem 4 .edx, .ret, .pop .edi, .pop .esi, .pop .ebx,
      .pop .ebp, .ret]) := img.swap_placed
  -- the last store does not touch the word that was loaded
  have hload : pushedMem c (c.mem (c.reg .esp + 8) + 0) =
      savedMem (img.swap 11) c (c.mem (c.reg .esp + 8)) := by
    rw [savedMem, Function.update_of_ne hctx]
    exact congrArg _ (BitVec.add_zero _)
  exact ⟨_, fun c' h => .block hp (by simp [Instr.Straight]) hc h, rfl, rfl, rfl, hload⟩

/-- `switch_context` up to the jump: the stack of the target is in place, and the memory is what it
was. -/
theorem exec_drop {c : Cpu} (hc : c.eip = img.switch 0) :
    ∃ c₁, (∀ c', Exec img.fetch c₁ c' → Exec img.fetch c c') ∧ c₁.eip = img.switch 2 ∧
      c₁.reg .edx = c.mem (c.reg .esp + 4) ∧ c₁.mem = c.mem ∧
      c₁.reg .esp = c.mem (c.mem (c.reg .esp + 4)) := by
  have hp : Placed img.fetch img.switch ([] ++ [.load 4 .esp .edx, .load 0 .edx .esp] ++
      [.pushMem 4 .edx, .ret]) := img.switch_placed
  have hload : c.mem (c.mem (c.reg .esp + 4) + 0) = c.mem (c.mem (c.reg .esp + 4)) :=
    congrArg _ (BitVec.add_zero _)
  exact ⟨_, fun c' h => .block hp (by simp [Instr.Straight]) hc h, rfl, rfl, rfl, hload⟩

/-- The four pushes go to the four words below the stack pointer. -/
theorem pushedMem_eq (c : Cpu) : pushedMem c =
    Function.update (Function.update (Function.update (Function.update (Function.update c.mem
      (c.reg .esp - 4) (c.reg .ebp)) (c.reg .esp - 8) (c.reg .ebx)) (c.reg .esp - 12) (c.reg .esi))
      (c.reg .esp - 16) (c.reg .edi)) (c.mem (c.reg .esp + 4)) (c.reg .esp - 16) := by
  have h₈ : c.reg .esp - 4 - 4 = c.reg .esp - 8 := sub_sub _ 4 4
  have h₁₂ : c.reg .esp - 8 - 4 = c.reg .esp - 12 := sub_sub _ 8 4
  have h₁₆ : c.reg .esp - 12 - 4 = c.reg .esp - 16 := sub_sub _ 12 4
  simp only [pushedMem, add_zero, h₈, h₁₂, h₁₆]

omit [DecidableEq T] in
/-- The caller of `swap_context` is suspended: it can be returned to as the call promises. -/
theorem suspended_savedMem {c : Cpu} {t : T} (harg : c.mem (c.reg .esp + 4) = L.ctx t)
    (hcaller : img.fetch (c.mem (c.reg .esp)) = none) (hlow : L.base t + 20 ≤ (c.reg .esp).toNat)
    (hhigh : (c.reg .esp).toNat + 4 ≤ (L.top t).toNat) :
    Suspended img L (savedMem (img.swap 11) c) t c.afterCall c.mem := by
  -- the context record is not in the stack, so the stores do not disturb each other
  have hin : ∀ a, L.Stack t a → savedMem (img.swap 11) c a =
      Function.update (Function.update (Function.update (Function.update c.mem (c.reg .esp - 4)
        (c.reg .ebp)) (c.reg .esp - 8) (c.reg .ebx)) (c.reg .esp - 12) (c.reg .esi))
        (c.reg .esp - 16) (c.reg .edi) a := by
    intro a ha
    have h₀ : a ≠ L.ctx t := by
      rintro rfl
      exact (L.ctx_outside t t).1 ha
    have h₄ : a ≠ L.ctx t + 4 := by
      rintro rfl
      exact (L.ctx_outside t t).2 ha
    rw [savedMem, pushedMem_eq, harg, Function.update_of_ne h₄, Function.update_of_ne h₀]
  have hstack : ∀ k : Word, k.toNat ≤ 16 → L.Stack t (c.reg .esp - k) :=
    fun k hk => ⟨by bv_omega, by bv_omega⟩
  have hne : ∀ j k : Word, j ≠ k → c.reg .esp - j ≠ c.reg .esp - k :=
    fun j k hjk he => hjk (sub_right_injective he)
  have hesp : c.afterCall.esp.toNat = (c.reg .esp).toNat + 4 := by
    change (c.reg .esp + 4).toNat = _
    bv_omega
  have h₂₀ : c.afterCall.esp - 20 = c.reg .esp - 16 := add_sub_add_right_eq_sub _ 16 4
  have h₁₆ : c.afterCall.esp - 16 = c.reg .esp - 12 := add_sub_add_right_eq_sub _ 12 4
  have h₁₂ : c.afterCall.esp - 12 = c.reg .esp - 8 := add_sub_add_right_eq_sub _ 8 4
  have h₈ : c.afterCall.esp - 8 = c.reg .esp - 4 := add_sub_add_right_eq_sub _ 4 4
  have h₄ : c.afterCall.esp - 4 = c.reg .esp - 0 := add_sub_add_right_eq_sub _ 0 4
  refine ⟨by omega, by omega, ?_, ?_, ?_, ?_, ?_, ?_, ?_, ?_, hcaller⟩
  · have hctx : L.ctx t ≠ L.ctx t + 4 := by bv_omega
    rw [h₂₀, savedMem, pushedMem_eq, harg, Function.update_of_ne hctx, Function.update_self]
  · rw [savedMem, harg, Function.update_self]
  · rw [h₂₀, hin _ (hstack 16 (by decide)), Function.update_self]
    rfl
  · rw [h₁₆, hin _ (hstack 12 (by decide)), Function.update_of_ne (hne 12 16 (by decide)),
      Function.update_self]
    rfl
  · rw [h₁₂, hin _ (hstack 8 (by decide)), Function.update_of_ne (hne 8 16 (by decide)),
      Function.update_of_ne (hne 8 12 (by decide)), Function.update_self]
    rfl
  · rw [h₈, hin _ (hstack 4 (by decide)), Function.update_of_ne (hne 4 16 (by decide)),
      Function.update_of_ne (hne 4 12 (by decide)), Function.update_of_ne (hne 4 8 (by decide)),
      Function.update_self]
    rfl
  · rw [h₄, hin _ (hstack 0 (by decide)), Function.update_of_ne (hne 0 16 (by decide)),
      Function.update_of_ne (hne 0 12 (by decide)), Function.update_of_ne (hne 0 8 (by decide)),
      Function.update_of_ne (hne 0 4 (by decide)), sub_zero]
    rfl
  · intro a ha hle
    have hbelow : ∀ k : Word, k.toNat ≤ 16 → a ≠ c.reg .esp - k := by
      rintro k hk rfl
      bv_omega
    rw [hin a ha, Function.update_of_ne (hbelow 16 (by decide)),
      Function.update_of_ne (hbelow 12 (by decide)), Function.update_of_ne (hbelow 8 (by decide)),
      Function.update_of_ne (hbelow 4 (by decide))]

omit [DecidableEq T] in
/-- The other threads do not notice, because all writes go to the stack and the context record of
the caller. -/
theorem savedMem_of_other {c : Cpu} {t u : T} {mem : Word → Word} {a : Word} (label : Word)
    (harg : c.mem (c.reg .esp + 4) = L.ctx t) (hlow : L.base t + 20 ≤ (c.reg .esp).toNat)
    (hhigh : (c.reg .esp).toNat + 4 ≤ (L.top t).toNat) (hne : u ≠ t) (ha : L.Guarded mem u a) :
    savedMem label c a = c.mem a := by
  obtain ⟨hstack, hctx₀, hctx₄⟩ := ha.other hne
  have hout : ∀ k : Word, k.toNat ≤ 16 → a ≠ c.reg .esp - k := by
    rintro k hk rfl
    exact hstack ⟨by bv_omega, by bv_omega⟩
  rw [savedMem, pushedMem_eq, harg, Function.update_of_ne hctx₄, Function.update_of_ne hctx₀,
    Function.update_of_ne (hout 16 (by decide)), Function.update_of_ne (hout 12 (by decide)),
    Function.update_of_ne (hout 8 (by decide)), Function.update_of_ne (hout 4 (by decide))]

/-! ## Runs -/

variable (img L) in
/-- What every run keeps: the current thread is in its running phase, and what the parked threads
rely on is in memory. -/
structure SwitchInv (x : Switching T) : Prop where
  running : x.phase x.cur = .running
  holds : ∀ t, Holds img L x.cpu.mem t (x.phase t)

namespace SwitchInv

variable {x x' : Switching T} {t : T}

/-- **`swap_context`.** The target arrives, and every other thread can still be returned to. -/
theorem swap (h : SwitchInv img L x) (hcall : x.SwapCall img L t) :
    ∃ c, Exec img.fetch x.cpu c ∧ Arrives img L t (x.leave t) c ∧
      ∀ u, u ≠ t → Holds img L c.mem u (x.leave u) := by
  have hctx : x.cpu.mem (x.cpu.reg .esp + 8) ≠ x.cpu.mem (x.cpu.reg .esp + 4) + 4 := by
    rw [hcall.arg₁, hcall.arg₂]
    by_cases htc : t = x.cur
    · rw [htc]
      bv_omega
    · exact (L.ctx_disjoint t x.cur htc).2
  obtain ⟨c₁, hexec, heip, hedx, hmem, hesp⟩ := exec_leave hcall.eip hctx
  have hleft : ∀ u, Holds img L c₁.mem u (x.leave u) := by
    intro u
    rw [hmem, Switching.leave]
    by_cases huc : u = x.cur
    · rw [huc, Function.update_self]
      exact suspended_savedMem hcall.arg₁ hcall.caller hcall.low hcall.high
    · rw [Function.update_of_ne huc]
      refine (h.holds u).frame fun _ a ha => ?_
      exact savedMem_of_other _ hcall.arg₁ hcall.low hcall.high huc ha
  have hp : Placed img.fetch img.swap ((swapContext (img.swap 11)).take 9 ++ [.pushMem 4 .edx] ++
      .ret :: [.pop .edi, .pop .esi, .pop .ebx, .pop .ebp, .ret]) := img.swap_placed
  rw [hcall.arg₂] at hedx hesp
  obtain ⟨c, hc, harr, hframe⟩ := (hleft t).arrive hcall.target hp heip hedx hesp
  refine ⟨c, hexec c hc, harr, fun u hut => (hleft u).frame fun _ a ha => hframe a ?_⟩
  exact (ha.other hut).1

omit [DecidableEq T] in
/-- **`switch_context`.** The target arrives, and every other parked thread can still be returned
to. The only word it writes lies below the stack pointer of the target. -/
theorem switch (h : SwitchInv img L x) (hcall : x.SwitchCall img L t) :
    ∃ c, Exec img.fetch x.cpu c ∧ Arrives img L t (x.phase t) c ∧
      ∀ u, u ≠ t → Holds img L c.mem u (x.phase u) := by
  obtain ⟨c₁, hexec, heip, hedx, hmem, hesp⟩ := exec_drop hcall.eip
  have hp : Placed img.fetch img.switch ([.load 4 .esp .edx, .load 0 .edx .esp] ++
      [.pushMem 4 .edx] ++ .ret :: []) := img.switch_placed
  rw [hcall.arg, ← hmem] at hesp
  have hleft : ∀ u, Holds img L c₁.mem u (x.phase u) := by
    rw [hmem]
    exact h.holds
  obtain ⟨c, hc, harr, hframe⟩ :=
    (hleft t).arrive hcall.target hp heip (hedx.trans hcall.arg) hesp
  refine ⟨c, hexec c hc, harr, fun u hut => (hleft u).frame fun _ a ha => hframe a ?_⟩
  exact (ha.other hut).1

omit [DecidableEq T] in
/-- A function that returns gets to `thread_exit`, with one word more on the stack and no other
write. -/
theorem exec_exit {c : Cpu} (hc : c.eip = img.bounce 6) : ∃ c', Exec img.fetch c c' ∧
    c'.eip = img.threadExit ∧ ∀ a, a ≠ c.reg .esp - 4 → c'.mem a = c.mem a := by
  have hfetch : img.fetch c.eip = some (.call img.threadExit, img.bounce 7) := by
    rw [hc]
    exact img.bounce_placed 6 _ rfl
  refine ⟨_, .step hfetch (.done img.exit_outside), rfl, fun a ha => ?_⟩
  exact Function.update_of_ne ha ..

omit [DecidableEq T] in
/-- `thread_create` writes to the stack and the context record of the new thread only. -/
theorem prepareContext_of_other {mem mem' : Word → Word} {u : T} {a func arg bounce : Word}
    (hut : u ≠ t) (ha : L.Guarded mem' u a) :
    prepareContext mem (L.ctx t) (L.top t) bounce func arg a = mem a := by
  obtain ⟨hstack, hctx₀, hctx₄⟩ := ha.other hut
  have hsize := L.size t
  have h₈ : L.top t - 4 - 4 = L.top t - 8 := sub_sub _ 4 4
  have hout : ∀ k : Word, 0 < k.toNat → k.toNat ≤ 65536 → a ≠ L.top t - k := by
    rintro k hk₁ hk₂ rfl
    exact hstack ⟨by bv_omega, by bv_omega⟩
  simp only [prepareContext, stackPush, h₈]
  rw [Function.update_of_ne hctx₄, Function.update_of_ne hctx₀,
    Function.update_of_ne (hout 8 (by decide) (by decide)),
    Function.update_of_ne (hout 4 (by decide) (by decide)),
    Function.update_of_ne (hout 65536 (by decide) (by decide))]

omit [DecidableEq T] in
/-- **`thread_create`** prepares the new thread, whatever was in its stack and context record
before. -/
theorem prepared_prepareContext {mem : Word → Word} {func arg : Word}
    (hf : img.fetch func = none) : Prepared img L
      (prepareContext mem (L.ctx t) (L.top t) (img.bounce 0) func arg) t func arg := by
  have hsize := L.size t
  have h₈ : L.top t - 4 - 4 = L.top t - 8 := sub_sub _ 4 4
  have hctx : L.ctx t ≠ L.ctx t + 4 := by bv_omega
  have hstack : ∀ k : Word, 0 < k.toNat → k.toNat ≤ 8 →
      L.top t - k ≠ L.ctx t ∧ L.top t - k ≠ L.ctx t + 4 := by
    intro k hk₁ hk₂
    have hin : L.Stack t (L.top t - k) := ⟨by bv_omega, by bv_omega⟩
    constructor
    · intro he
      exact (L.ctx_outside t t).1 (he ▸ hin)
    · intro he
      exact (L.ctx_outside t t).2 (he ▸ hin)
  have hne : L.top t - 4 ≠ L.top t - 8 := fun he => by
    have := sub_right_injective he
    cases this
  simp only [prepareContext, stackPush, h₈]
  refine ⟨?_, ?_, ?_, ?_, hf⟩
  · rw [Function.update_of_ne hctx, Function.update_self]
  · rw [Function.update_self]
  · rw [Function.update_of_ne (hstack 8 (by decide) (by decide)).2,
      Function.update_of_ne (hstack 8 (by decide) (by decide)).1, Function.update_self]
  · rw [Function.update_of_ne (hstack 4 (by decide) (by decide)).2,
      Function.update_of_ne (hstack 4 (by decide) (by decide)).1, Function.update_of_ne hne,
      Function.update_self]

/-- **Step lemma.** Code of the threads spares the guarded words by assumption, and the library does
so by the lemmas above. -/
theorem step {l : SwitchLabel T} (h : SwitchInv img L x) (hs : x.Step img L l x') :
    SwitchInv img L x' := by
  cases l with
  | user =>
    obtain ⟨-, hcur, hphase, hmem⟩ := hs
    refine ⟨by rw [hcur, hphase]; exact h.running, fun t => ?_⟩
    rw [hphase]
    exact (h.holds t).frame (hmem t)
  | create t func arg =>
    obtain ⟨-, hf, hfree, rfl⟩ := hs
    have htc : x.cur ≠ t := by
      rintro rfl
      rw [h.running] at hfree
      rcases hfree with hfree | hfree <;> cases hfree
    refine ⟨(Function.update_of_ne htc ..).trans h.running, fun u => ?_⟩
    change Holds img L _ u (Function.update x.phase t _ u)
    by_cases hut : u = t
    · rw [hut, Function.update_self]
      exact prepared_prepareContext hf
    · rw [Function.update_of_ne hut]
      exact (h.holds u).frame fun _ a ha => prepareContext_of_other hut ha
  | swap t =>
    obtain ⟨hcall, hexec, hcur, hphase⟩ := hs
    obtain ⟨c, hc, -, hleft⟩ := h.swap hcall
    obtain rfl := hexec.unique hc
    refine ⟨by rw [hphase, hcur, Function.update_self], fun u => ?_⟩
    rw [hphase]
    by_cases hut : u = t
    · rw [hut, Function.update_self]
      trivial
    · rw [Function.update_of_ne hut]
      exact hleft u hut
  | switch t =>
    obtain ⟨hcall, hexec, hcur, hphase⟩ := hs
    obtain ⟨c, hc, -, hleft⟩ := h.switch hcall
    obtain rfl := hexec.unique hc
    refine ⟨by rw [hphase, hcur, Function.update_self], fun u => ?_⟩
    rw [hphase]
    by_cases hut : u = t
    · rw [hut, Function.update_self]
      trivial
    · rw [Function.update_of_ne hut]
      by_cases huc : u = x.cur
      · rw [huc, Function.update_self]
        trivial
      · rw [Function.update_of_ne huc]
        exact hleft u hut
  | ret =>
    obtain ⟨heip, hroom, hexec, hcur, hphase⟩ := hs
    obtain ⟨c, hc, -, hmem⟩ := exec_exit heip
    obtain rfl := hexec.unique hc
    refine ⟨by rw [hcur, hphase]; exact h.running, fun u => ?_⟩
    rw [hphase]
    refine (h.holds u).frame fun hparked a ha => hmem a ?_
    have huc : u ≠ x.cur := by
      rintro rfl
      rw [h.running] at hparked
      exact hparked
    rintro rfl
    exact (ha.other huc).1 hroom

theorem of_reach (hx : Reach (switchRuns img L) x) : SwitchInv img L x := by
  refine Reach.invariant (T := switchRuns img L) (P := SwitchInv img L) ?_ ?_ hx
  · rintro x ⟨hrun, habsent⟩
    refine ⟨hrun, fun t => ?_⟩
    by_cases htc : t = x.cur
    · rw [htc, hrun]
      trivial
    · rw [habsent t htc]
      trivial
  · exact fun x l x' _ h hs => h.step hs

end SwitchInv

/-- **Context switching is transparent.** In every state that the threads reach by any sequence of
creations and transfers, whatever they do in between to the registers and to the memory that no
suspended thread relies on. -/
theorem context_switch_transparent (img : CodeImage) (L : StackLayout T) (x : Switching T)
    (hx : Reach (switchRuns img L) x) : SwitchLaw img L x := by
  have h := SwitchInv.of_reach hx
  refine ⟨?_, ?_, ?_⟩
  · intro t hcall
    obtain ⟨c, hc, harr, -⟩ := h.swap hcall
    exact ⟨c, hc, harr⟩
  · intro t hcall
    obtain ⟨c, hc, harr, -⟩ := h.switch hcall
    exact ⟨c, hc, harr⟩
  · intro c hc
    obtain ⟨c', hexec, heip, -⟩ := SwitchInv.exec_exit hc
    exact ⟨c', hexec, heip⟩

/-! ## A run -/

/-- The three listings one after the other, with nothing between them. -/
def flatImage : CodeImage where
  fetch a := ((swapContext 11 ++ switchContext ++ bouncer 1000)[a.toNat]?).map fun i => (i, a + 1)
  swap i := BitVec.ofNat 32 (0 + i)
  switch i := BitVec.ofNat 32 (16 + i)
  bounce i := BitVec.ofNat 32 (20 + i)
  threadExit := 1000
  swap_placed := placed_listing [] (swapContext 11) (switchContext ++ bouncer 1000) (by decide)
  switch_placed := placed_listing (swapContext 11) switchContext (bouncer 1000) (by decide)
  bounce_placed := placed_listing (swapContext 11 ++ switchContext) (bouncer 1000) [] (by decide)
  exit_outside := rfl

/-- Two threads, with 64 KiB of stack each. -/
def twoStacks : StackLayout Bool where
  base t := if t then 0x40000 else 0x10000
  top t := if t then 0x50000 else 0x20000
  ctx t := if t then 0x60010 else 0x60000
  size t := by cases t <;> decide
  disjoint t u a htu := by
    cases t <;> cases u <;> simp [InStack] at htu ⊢ <;> omega
  ctx_outside t u := by cases t <;> cases u <;> simp [InStack]
  ctx_disjoint t u htu := by cases t <;> cases u <;> simp at htu ⊢

/-- A running thread can call `swap_context` for any parked thread from its own code. -/
theorem SwitchInv.exists_swapCall {x : Switching T} {t : T} (h : SwitchInv img L x)
    (hout : img.fetch x.cpu.eip = none) (htc : t ≠ x.cur) (ht : (x.phase t).Parked) :
    ∃ x', x.Step img L .user x' ∧ x'.SwapCall img L t ∧ x'.cur = x.cur ∧ x'.phase = x.phase := by
  have hsize := L.size x.cur
  have hne : ∀ j k : Word, j ≠ k → L.top x.cur - j ≠ L.top x.cur - k :=
    fun j k hjk he => hjk (sub_right_injective he)
  have h₄ : L.top x.cur - 12 + 4 = L.top x.cur - 8 := sub_add _ 12 4
  have h₈ : L.top x.cur - 12 + 8 = L.top x.cur - 4 := sub_add _ 12 8
  have hesp : Function.update x.cpu.reg .esp (L.top x.cur - 12) .esp = L.top x.cur - 12 :=
    Function.update_self ..
  refine ⟨{ x with
    cpu := {
      reg := Function.update x.cpu.reg .esp (L.top x.cur - 12)
      eip := img.swap 0
      mem := Function.update (Function.update (Function.update x.cpu.mem (L.top x.cur - 12)
        x.cpu.eip) (L.top x.cur - 8) (L.ctx x.cur)) (L.top x.cur - 4) (L.ctx t) } },
    ⟨hout, rfl, rfl, ?_⟩, ⟨rfl, ?_, ?_, ?_, ?_, ?_, ?_⟩, rfl, rfl⟩
  · intro u hu a ha
    have huc : u ≠ x.cur := by
      rintro rfl
      rw [h.running] at hu
      exact hu
    have hstack : ∀ k : Word, 0 < k.toNat → k.toNat ≤ 12 → a ≠ L.top x.cur - k := by
      rintro k hk₁ hk₂ rfl
      exact (ha.other huc).1 ⟨by bv_omega, by bv_omega⟩
    change Function.update (Function.update (Function.update _ _ _) _ _) _ _ a = _
    rw [Function.update_of_ne (hstack 4 (by decide) (by decide)),
      Function.update_of_ne (hstack 8 (by decide) (by decide)),
      Function.update_of_ne (hstack 12 (by decide) (by decide))]
  · dsimp only
    rw [hesp, Function.update_of_ne (hne 12 4 (by decide)),
      Function.update_of_ne (hne 12 8 (by decide)), Function.update_self]
    exact hout
  · dsimp only
    rw [hesp, h₄, Function.update_of_ne (hne 8 4 (by decide)), Function.update_self]
  · dsimp only
    rw [hesp, h₈, Function.update_self]
  · dsimp only
    rw [hesp]
    bv_omega
  · dsimp only
    rw [hesp]
    bv_omega
  · rw [Switching.leave, Function.update_of_ne htc]
    exact ht

/-- Thread 0 creates a thread and swaps to it, and that thread swaps back: thread 0 goes on behind
its call with the frame pointer it had. -/
theorem context_switch_transparent_round : ∃ x x' : Switching Bool,
    Reach (switchRuns flatImage twoStacks) x ∧ x.SwapCall flatImage twoStacks true ∧
      Reach (switchRuns flatImage twoStacks) x' ∧ x'.SwapCall flatImage twoStacks false ∧
      ∃ c, Exec flatImage.fetch x'.cpu c ∧ c.reg .ebp = x.cpu.reg .ebp ∧
        c.reg .esp = x.cpu.reg .esp + 4 ∧ c.eip = x.cpu.mem (x.cpu.reg .esp) := by
  let x₀ : Switching Bool := {
    cpu := ⟨fun _ => 7, 5000, fun _ => 0⟩
    cur := false
    phase := fun t => if t then .absent else .running }
  have hx₀ : Reach (switchRuns flatImage twoStacks) x₀ := .init ⟨rfl, by simp [x₀]⟩
  -- thread 0 creates the other thread
  have hstep₁ : x₀.Step flatImage twoStacks (.create true 6000 42) _ := ⟨rfl, rfl, .inl rfl, rfl⟩
  have hx₁ := hstep₁.reach hx₀
  obtain ⟨x₂, hstep₂, hcall₂, hcur₂, hphase₂⟩ := (SwitchInv.of_reach hx₁).exists_swapCall
    (t := true) rfl (by decide) trivial
  have hx₂ := hstep₂.reach hx₁
  -- and swaps to it
  obtain ⟨c, hc, harr⟩ := (context_switch_transparent flatImage twoStacks x₂ hx₂).swap true hcall₂
  have hleave₂ : x₂.leave true = .fresh 6000 42 := by
    rw [Switching.leave, hcur₂, hphase₂]
    rfl
  rw [hleave₂] at harr
  have hstep₃ : x₂.Step flatImage twoStacks (.swap true)
      ⟨c, true, Function.update x₂.leave true .running⟩ := ⟨hcall₂, hc, rfl, rfl⟩
  have hx₃ := hstep₃.reach hx₂
  have hphase₃ : Function.update x₂.leave true .running false =
      .left x₂.cpu.afterCall x₂.cpu.mem := by
    rw [Function.update_of_ne (by decide), Switching.leave, hcur₂]
    exact Function.update_self ..
  have hparked₃ : (Function.update x₂.leave true .running false).Parked := by
    rw [hphase₃]
    trivial
  obtain ⟨x₄, hstep₄, hcall₄, hcur₄, hphase₄⟩ := (SwitchInv.of_reach hx₃).exists_swapCall
    (t := false) (by rw [harr.1]; rfl) Bool.false_ne_true hparked₃
  have hx₄ := hstep₄.reach hx₃
  -- which swaps back
  obtain ⟨c', hc', harr'⟩ :=
    (context_switch_transparent flatImage twoStacks x₄ hx₄).swap false hcall₄
  have hleave₄ : x₄.leave false = .left x₂.cpu.afterCall x₂.cpu.mem := by
    rw [Switching.leave, hcur₄, Function.update_of_ne Bool.false_ne_true, hphase₄]
    exact hphase₃
  rw [hleave₄] at harr'
  exact ⟨x₂, x₄, hx₂, hcall₂, hx₄, hcall₄, c', hc', harr'.2.1, harr'.1, harr'.2.2.2.2.2.1⟩

end GreenLib
