import Ballistic.Types
import Ballistic.Machine.A64
import Ballistic.Machine.X86Code

/-!
# Calling a compiled block

A block is called as a C function with a pointer to the CPU record. `RunsBlock` is what such a call
does to the guest state in the record, whoever the caller is.
-/

namespace Ballistic

open Machine Machine.X86

/-- What the caller of a block promises. -/
structure Call (s : State) (cpu : Address) (entry : Nat) : Prop where
  rip : s.rip = entry
  argument : s.regs .rdi = cpu
  /-- The bytes below the stack pointer are not bytes of the CPU record. -/
  disjoint : ∀ k < 40, cpuSize ≤ distance cpu (above (s.regs .rsp - 40) k)

/-- A machine that meets the caller's promise. -/
def someCall (entry : Nat) : State where
  regs := fun _ => 0
  flags := ⟨false, false, false, false, false⟩
  memory := fun _ => 0
  rip := entry

/-- The guest state in a CPU record. -/
def cpuState (m : Memory) (cpu : Address) : A64.State where
  x := fun a => m.read64 (above cpu (offsetX a))
  flagN := m (above cpu offsetFlagN)
  flagZ := m (above cpu offsetFlagZ)
  flagC := m (above cpu offsetFlagC)
  flagV := m (above cpu offsetFlagV)
  pc := m.read64 (above cpu offsetPc)

/-- The block at `entry` of the code buffer, called on a CPU record with the guest state `before`, can
return with the guest state `after` in it. -/
def RunsBlock (code : Nat → Byte) (entry : Nat) (before after : A64.State) : Prop :=
  ∃ (s u : State) (cpu : Address) (fuel : Nat), Call s cpu entry ∧ cpuState s.memory cpu = before ∧
    runToRet code fuel s = some u ∧ cpuState u.memory cpu = after

end Ballistic
