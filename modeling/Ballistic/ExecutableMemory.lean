import Mathlib.Logic.Function.Basic
import Mathlib.Logic.Relation

/-!
# Executable memory on Linux

`bal_default_allocate_executable` and `bal_default_free_executable`, call by call of the operating
system, for all threads of all processes at once: they share the name of the shared memory object. A
process may be killed at any point; its descriptors and mappings go with it, the name does not. No
process forks. Whether the kernel finds room for a mapping in an address space is a parameter: it
depends on the sizes of the mappings that are there, and it finds none for the largest sizes.
-/

namespace Ballistic

/-- `LONG_MAX`. -/
def longMax : Nat := 0x7fffffffffffffff

/-- A thread in `bal_default_allocate_executable`, behind the call that is named, with the object that its
descriptor refers to. -/
inductive AllocatePoint where
  | idle
  | opened (size object : Nat)
  | unlinked (size object : Nat)
  | truncated (object : Nat)
  | mappedRw (object : Nat) (writable : Bool)

def AllocatePoint.object : AllocatePoint → Option Nat
  | idle => none
  | opened _ object | unlinked _ object | truncated object | mappedRw object _ => some object

/-- What a process has of shared memory: the objects of its open descriptors, its mappings (executable
or writable), the buffers it was given in its life and those it has not freed. -/
structure MemoryUse where
  descriptors : List Nat
  mappings : List (Nat × Bool)
  given : List Nat
  buffers : List Nat

def MemoryUse.none : MemoryUse := ⟨[], [], [], []⟩

/-- The objects created so far are those below `created`; `named` is the one that
`/ballistic_jit_compiler_shm` refers to, and `size` what `ftruncate` made of each. -/
structure SharedMemory (P T : Type) where
  created : Nat
  named : Option Nat
  size : Nat → Nat
  point : T → AllocatePoint
  use : P → MemoryUse

namespace SharedMemory

variable {P T : Type} [DecidableEq P] [DecidableEq T]

def start : SharedMemory P T := ⟨0, none, fun _ => 0, fun _ => .idle, fun _ => .none⟩

variable (s : SharedMemory P T)

def move (t : T) (point : AllocatePoint) : SharedMemory P T :=
  { s with point := Function.update s.point t point }

def change (p : P) (use : MemoryUse) : SharedMemory P T :=
  { s with use := Function.update s.use p use }

/-- `shm_open` with `O_CREAT | O_EXCL`, by a thread of the process. -/
def shmOpen (p : P) (t : T) (size : Nat) : SharedMemory P T :=
  { (s.move t (.opened size s.created)).change p
      { s.use p with descriptors := s.created :: (s.use p).descriptors } with
    created := s.created + 1
    named := some s.created }

/-- `shm_unlink`, of whatever has the name. -/
def shmUnlink (t : T) (size object : Nat) : SharedMemory P T :=
  { s.move t (.unlinked size object) with named := none }

/-- `ftruncate`. -/
def ftruncate (t : T) (size object : Nat) : SharedMemory P T :=
  { s.move t (.truncated object) with size := Function.update s.size object size }

/-- `close`, where `ftruncate` has failed. -/
def closeTruncated (p : P) (t : T) (object : Nat) : SharedMemory P T :=
  (s.move t .idle).change p
    { s.use p with descriptors := (s.use p).descriptors.erase object }

/-- The sizes of the mappings of a process. -/
def mappedSizes (p : P) : List Nat := (s.use p).mappings.map fun mapping => s.size mapping.1

/-- The first `mmap`, and whether it succeeded. -/
def mmapRw (p : P) (t : T) (object : Nat) (writable : Bool) : SharedMemory P T :=
  (s.move t (.mappedRw object writable)).change p
    { s.use p with
      mappings := if writable then (object, false) :: (s.use p).mappings else (s.use p).mappings }

/-- The second `mmap` and the return: with a buffer if both succeeded. The writable mapping alone is
taken back, the executable one alone is not. -/
def mmapRx (p : P) (t : T) (object : Nat) (writable executable : Bool) : SharedMemory P T :=
  let mappings :=
    if executable then (object, true) :: (s.use p).mappings
    else if writable then (s.use p).mappings.erase (object, false)
    else (s.use p).mappings
  (s.move t .idle).change p
    { s.use p with
      mappings := mappings
      given := if writable && executable then object :: (s.use p).given else (s.use p).given
      buffers := if writable && executable then object :: (s.use p).buffers else (s.use p).buffers }

/-- `bal_default_free_executable`. -/
def freeExecutable (p : P) (object : Nat) : SharedMemory P T :=
  s.change p
    { s.use p with
      mappings := ((s.use p).mappings.erase (object, true)).erase (object, false)
      buffers := (s.use p).buffers.erase object }

/-- A process is gone, with its threads. -/
def die (owner : T → P) (p : P) : SharedMemory P T :=
  { s.change p .none with point := fun t => if owner t = p then .idle else s.point t }

end SharedMemory

section Steps

variable {P T : Type} [DecidableEq P] [DecidableEq T] (owner : T → P) (limit : Nat)
  (mappable : List Nat → Nat → Prop)

/-- A step of a thread, or the end of a process. A request that `shm_open` refuses changes nothing; it
refuses every one while the name exists or the process has as many descriptors as it may have. A
`mmap` can succeed only where there is room beside the mappings of the process. -/
inductive MemoryStep (s : SharedMemory P T) : SharedMemory P T → Prop
  | opens {t : T} {size : Nat} (hpoint : s.point t = .idle) (hsize : size ≠ 0)
      (hname : s.named = none) (hroom : (s.use (owner t)).descriptors.length < limit) :
      MemoryStep s (s.shmOpen (owner t) t size)
  | unlinks {t : T} {size object : Nat} (hpoint : s.point t = .opened size object) :
      MemoryStep s (s.shmUnlink t size object)
  | tooBig {t : T} {size object : Nat} (hpoint : s.point t = .unlinked size object)
      (hsize : longMax < size) : MemoryStep s (s.move t .idle)
  | truncateFails {t : T} {size object : Nat} (hpoint : s.point t = .unlinked size object)
      (hsize : size ≤ longMax) : MemoryStep s (s.closeTruncated (owner t) t object)
  | truncates {t : T} {size object : Nat} (hpoint : s.point t = .unlinked size object)
      (hsize : size ≤ longMax) : MemoryStep s (s.ftruncate t size object)
  | mapsRw {t : T} {object : Nat} (writable : Bool) (hpoint : s.point t = .truncated object)
      (hmappable : writable = true → mappable (s.mappedSizes (owner t)) (s.size object)) :
      MemoryStep s (s.mmapRw (owner t) t object writable)
  | mapsRx {t : T} {object : Nat} {writable : Bool} (executable : Bool)
      (hpoint : s.point t = .mappedRw object writable)
      (hmappable : executable = true → mappable (s.mappedSizes (owner t)) (s.size object)) :
      MemoryStep s (s.mmapRx (owner t) t object writable executable)
  | frees {p : P} {object : Nat} (hbuffer : object ∈ (s.use p).buffers) :
      MemoryStep s (s.freeExecutable p object)
  | dies (p : P) : MemoryStep s (s.die owner p)

/-- The states that the processes of a host come to. -/
def MemoryReached (s : SharedMemory P T) : Prop :=
  Relation.ReflTransGen (MemoryStep owner limit mappable) .start s

end Steps

end Ballistic
