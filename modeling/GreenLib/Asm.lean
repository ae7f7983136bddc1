import Mathlib.Algebra.Ring.Nat
import Mathlib.Data.Nat.Basic
import Mathlib.Logic.Function.Basic

/-!
# A few instructions of the 32-bit x86

The registers and instructions that hand-written switching code uses. Memory is word-addressed: a
word is read and written at the address of its first byte, and two different addresses are two
different words (all accesses are aligned).

Code is a map `fetch` from addresses to an instruction and the address of the one behind it, so the
lengths of the encodings do not matter. It is defined on the code under study only. `Exec fetch c
c'` says that control, starting at `c`, leaves that code in the state `c'`. `Exec.block` executes
straight-line code of a listing that has been placed somewhere (`Placed`).
-/

namespace GreenLib

/-- A machine word. Arithmetic on addresses wraps around, as it does on the processor. -/
abbrev Word : Type := BitVec 32

/-- The general registers. Flags are left out: no instruction below reads them. -/
inductive Reg : Type where
  | eax | ebx | ecx | edx | esi | edi | ebp | esp
  deriving DecidableEq

/-- The state of the processor and its memory. Every address can be read and written; no access
faults. -/
structure Cpu : Type where
  reg : Reg → Word
  eip : Word
  mem : Word → Word

/-- Instructions, in the operand order of the AT&T syntax. -/
inductive Instr : Type where
  /-- `movl off(base), dst` -/
  | load (off : Word) (base dst : Reg)
  /-- `movl src, off(base)` -/
  | store (src : Reg) (off : Word) (base : Reg)
  /-- `movl $v, off(base)` -/
  | storeImm (v off : Word) (base : Reg)
  /-- `pushl r` -/
  | push (r : Reg)
  /-- `pushl off(base)` -/
  | pushMem (off : Word) (base : Reg)
  /-- `pushl $v` -/
  | pushImm (v : Word)
  /-- `popl r` -/
  | pop (r : Reg)
  /-- `xorl src, dst` -/
  | xor (src dst : Reg)
  /-- `call *r` -/
  | callReg (r : Reg)
  /-- `call target` -/
  | call (target : Word)
  | ret

namespace Cpu

/-- Set a register, without going on to another instruction. -/
def setReg (c : Cpu) (r : Reg) (v : Word) : Cpu := { c with reg := Function.update c.reg r v }

/-- Store a word, without going on to another instruction. -/
def setMem (c : Cpu) (a v : Word) : Cpu := { c with mem := Function.update c.mem a v }

/-- Decrement the stack pointer and store a word there: the stack grows downwards. -/
def pushWord (c : Cpu) (v : Word) : Cpu :=
  (c.setMem (c.reg .esp - 4) v).setReg .esp (c.reg .esp - 4)

/-- Go on at `a`, with the registers and the memory as they are. -/
def jump (c : Cpu) (a : Word) : Cpu := { c with eip := a }

variable (c : Cpu) (r r' : Reg) (v a : Word)

@[simp] theorem setReg_reg : (c.setReg r v).reg = Function.update c.reg r v := rfl
@[simp] theorem setReg_mem : (c.setReg r v).mem = c.mem := rfl
@[simp] theorem setReg_eip : (c.setReg r v).eip = c.eip := rfl
@[simp] theorem setMem_reg : (c.setMem a v).reg = c.reg := rfl
@[simp] theorem setMem_mem : (c.setMem a v).mem = Function.update c.mem a v := rfl
@[simp] theorem setMem_eip : (c.setMem a v).eip = c.eip := rfl
@[simp] theorem pushWord_reg :
    (c.pushWord v).reg = Function.update c.reg .esp (c.reg .esp - 4) := rfl
@[simp] theorem pushWord_mem :
    (c.pushWord v).mem = Function.update c.mem (c.reg .esp - 4) v := rfl
@[simp] theorem pushWord_eip : (c.pushWord v).eip = c.eip := rfl
@[simp] theorem jump_reg : (c.jump a).reg = c.reg := rfl
@[simp] theorem jump_mem : (c.jump a).mem = c.mem := rfl
@[simp] theorem jump_eip : (c.jump a).eip = a := rfl

end Cpu

namespace Instr

/-- Execute an instruction; `next` is the address of the one behind it. -/
def exec (next : Word) (c : Cpu) : Instr → Cpu
  | load off base dst => (c.setReg dst (c.mem (c.reg base + off))).jump next
  | store src off base => (c.setMem (c.reg base + off) (c.reg src)).jump next
  | storeImm v off base => (c.setMem (c.reg base + off) v).jump next
  | push r => (c.pushWord (c.reg r)).jump next
  | pushMem off base => (c.pushWord (c.mem (c.reg base + off))).jump next
  | pushImm v => (c.pushWord v).jump next
  | pop r => ((c.setReg .esp (c.reg .esp + 4)).setReg r (c.mem (c.reg .esp))).jump next
  | xor src dst => (c.setReg dst (c.reg dst ^^^ c.reg src)).jump next
  | callReg r => (c.pushWord next).jump (c.reg r)
  | call target => (c.pushWord next).jump target
  | ret => (c.setReg .esp (c.reg .esp + 4)).jump (c.mem (c.reg .esp))

/-- The instruction goes on at the one behind it. Calls and returns do not. -/
def Straight : Instr → Prop
  | callReg _ | call _ | ret => False
  | _ => True

theorem Straight.eip {i : Instr} (h : i.Straight) (next : Word) (c : Cpu) :
    (i.exec next c).eip = next := by
  cases i <;> first | rfl | exact absurd h id

end Instr

/-- The code under study: what stands at an address, and where the next instruction begins. Outside
of the code there is nothing to fetch. -/
abbrev Fetch : Type := Word → Option (Instr × Word)

/-- Control leaves the code in the state `c'`. There is no such state if the code runs forever. -/
inductive Exec (fetch : Fetch) : Cpu → Cpu → Prop where
  | done {c : Cpu} (h : fetch c.eip = none) : Exec fetch c c
  | step {c c' : Cpu} {i : Instr} {next : Word} (hf : fetch c.eip = some (i, next))
    (h : Exec fetch (i.exec next c) c') : Exec fetch c c'

/-- Execution is deterministic, so a fact about one state in which control leaves is a fact about
all. -/
theorem Exec.unique {fetch : Fetch} {c c₁ c₂ : Cpu} (h₁ : Exec fetch c c₁) (h₂ : Exec fetch c c₂) :
    c₁ = c₂ := by
  induction h₁ with
  | done h =>
    cases h₂ with
    | done _ => rfl
    | step hf _ =>
      rw [h] at hf
      cases hf
  | step hf _ ih =>
    cases h₂ with
    | done h =>
      rw [h] at hf
      cases hf
    | step hf' h' =>
      obtain ⟨rfl, rfl⟩ := Prod.mk.inj (Option.some.inj (hf.symm.trans hf'))
      exact ih h'

/-- The listing `code` lies at the addresses `loc 0`, `loc 1`, … The addresses need not be adjacent,
since encodings have different lengths. -/
def Placed (fetch : Fetch) (loc : ℕ → Word) (code : List Instr) : Prop :=
  ∀ i instr, code[i]? = some instr → fetch (loc i) = some (instr, loc (i + 1))

/-- The state behind the instructions `code`, the first of which lies at `loc i`. -/
def runBlock (loc : ℕ → Word) : ℕ → List Instr → Cpu → Cpu
  | _, [], c => c
  | i, instr :: code, c => runBlock loc (i + 1) code (instr.exec (loc (i + 1)) c)

/-- **Straight-line code** is executed by computing the state behind it, after which execution goes
on there. -/
theorem Exec.block {fetch : Fetch} {loc : ℕ → Word} {front code rest : List Instr} {c c' : Cpu}
    (hp : Placed fetch loc (front ++ code ++ rest)) (hs : ∀ i ∈ code, i.Straight)
    (hc : c.eip = loc front.length)
    (h : Exec fetch (runBlock loc front.length code c) c') : Exec fetch c c' := by
  induction code generalizing front c with
  | nil => exact h
  | cons i code ih =>
    have hfetch : fetch c.eip = some (i, loc (front.length + 1)) := by
      rw [hc]
      exact hp _ _ (by simp)
    have hp' : Placed fetch loc (front ++ [i] ++ code ++ rest) := by simpa using hp
    have hnext : (i.exec (loc (front.length + 1)) c).eip = loc (front ++ [i]).length := by
      rw [(hs i (List.mem_cons_self ..)).eip, List.length_append]
      rfl
    refine .step hfetch (ih hp' (fun j hj => hs j (List.mem_cons_of_mem _ hj)) hnext ?_)
    rw [List.length_append]
    exact h

/-- A listing that is loaded at the address 0 together with what stands before and behind it lies
where it should, as long as all of it has an address. -/
theorem placed_listing (front code rest : List Instr)
    (hlen : (front ++ code ++ rest).length < 2 ^ 32) :
    Placed (fun a => ((front ++ code ++ rest)[a.toNat]?).map fun i => (i, a + 1))
      (fun i => BitVec.ofNat 32 (front.length + i)) code := by
  intro i instr hi
  have hlt : i < code.length := (List.getElem?_eq_some_iff.mp hi).1
  have hnat : (BitVec.ofNat 32 (front.length + i)).toNat = front.length + i := by
    refine Nat.mod_eq_of_lt (Nat.lt_trans ?_ hlen)
    rw [List.length_append, List.length_append]
    omega
  have hget : (front ++ code ++ rest)[front.length + i]? = some instr := by
    rw [List.append_assoc, List.getElem?_append_right (Nat.le_add_right ..),
      Nat.add_sub_cancel_left, List.getElem?_append_left hlt, hi]
  have hnext : BitVec.ofNat 32 (front.length + i) + 1 = BitVec.ofNat 32 (front.length + (i + 1)) :=
    (BitVec.ofNat_add ..).symm
  change ((front ++ code ++ rest)[_]?).map _ = _
  rw [hnat, hget, Option.map_some, hnext]

end GreenLib
