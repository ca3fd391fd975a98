import StoplessGC.Allocator
import StoplessGC.ForwardTable
import StoplessGC.Revoke
import Mathlib.Data.List.Infix

/-!
# The heap and one collection cycle

`stoplessHeap.cpp`: `mem_allocate`, `move_object`, the root closure
`StoplessMoveRootsClosure` and `VM_StoplessCollect::doit`.  Memory is a map
from addresses of 16-byte words; a word holds a capability or an object
header, which stands for the mark word and the klass word together.  Words
outside the arena are the stack and handle slots.

The environment variables are fields of `Env`, the answers of `calloc` and of
the kernel are fields of `Replies`, and a cycle that does not return ends in a
`Halt` value.
-/

namespace StoplessGC

/-- `HeapWordSize` -/
def heapWordSize : Nat := 16

/-- What the collector asks a klass for. -/
structure Klass where
  externalName : Option String
  isArrayKlass : Bool
deriving DecidableEq, Repr

/-- A 16-byte word.  A header answers `klass()` and `size()`. -/
inductive Word where
  | header (klass : Option Klass) (size : Nat)
  | value (c : Cap)
deriving DecidableEq, Repr

/-- The registers of a mutator, for literals of `Fin 30`. -/
instance neZero_regs : NeZero 30 := ⟨by decide⟩

structure Machine where
  mem : Nat → Word
  regs : Fin 30 → Cap
  bumpOffset : Nat
  table : ForwardTable.State
  shadow : Revoke.Shadow
  sCycle : Nat
  sMarkedPending : Nat
  closePending : Bool

/-- A cycle that does not return: a fault inside the VM operation, a call of
the forwarding table that hangs, or `fatal()`. -/
inductive Halt where
  | crash
  | stuck (reason : ForwardTable.Stuck)
  | fatal
deriving DecidableEq, Repr

/-- The environment variables that a cycle reads. -/
structure Env where
  moveLimit : Nat
  moveKlass : Option String
  skipComplex : Bool
  noFixup : Bool
  noRevoke : Bool
  revokeBatch : Nat
  revokeConcurrent : Bool

/-- The defaults of `doit` when no variable is set. -/
def Env.unset : Env :=
  { moveLimit := 8
    moveKlass := none
    skipComplex := false
    noFixup := false
    noRevoke := false
    revokeBatch := 1
    revokeConcurrent := false }

/-- What the C library and the kernel answer during one cycle.  `markRc`
numbers the marks of the cycle. -/
structure Replies where
  callocGrow : Bool
  callocInsert : Bool
  markRc : Nat → Int
  openEpoch : Revoke.Attempt
  sweep : Revoke.Kernel

/-- Every request is granted and every call succeeds. -/
def Replies.granted : Replies :=
  { callocGrow := true
    callocInsert := true
    markRc := fun _ => 0
    openEpoch :=
      { injected := false, before := ⟨0, 0⟩, kernel := Revoke.Kernel.willing }
    sweep := Revoke.Kernel.willing }

namespace Machine

def load (m : Machine) (p : Nat) : Word := m.mem p

def store (m : Machine) (p : Nat) (w : Word) : Machine :=
  { m with mem := Function.update m.mem p w }

/-- The loop `d[i] = s[i]` over the first `n` words. -/
def copyWords (m : Machine) (src dst : Nat) : Nat → Machine
  | 0 => m
  | n + 1 =>
      let m := copyWords m src dst n
      m.store (dst + n * heapWordSize) (m.load (src + n * heapWordSize))

/-- `klass()` and `size()` of a reference; a dereference through an untagged
capability faults. -/
def header (m : Machine) (o : Cap) : Option (Option Klass × Nat) :=
  if o.tag then
    match m.load o.address with
    | .header klass size => some (klass, size)
    | .value _ => none
  else none

theorem header_of_load {m : Machine} {o : Cap} {klass : Option Klass}
    {size : Nat} (tagged : o.tag = true)
    (loaded : m.load o.address = .header klass size) :
    m.header o = some (klass, size) := by
  rw [header, if_pos tagged, loaded]

end Machine

namespace Collector

open ForwardTable Allocator

variable {cheri : Intrinsics} (arena : Arena cheri)

/-- `StoplessArena::contains` -/
def isIn (o : Cap) : Bool :=
  decide (arena.base.address ≤ o.address) &&
    decide (o.address < arena.base.address + arena.size)

/-- `StoplessHeap::mem_allocate`; the byte count is a 64-bit product. -/
def memAllocate (m : Machine) (size : Nat) : Option (Cap × Machine) :=
  match stoplessAlloc arena m.bumpOffset (size * heapWordSize % addressSpace) with
  | none => none
  | some (p, bump) => some (p, { m with bumpOffset := bump })

/-- `StoplessHeap::move_object` for an object of `nwords` words; `none` when
there is no memory, where the source returns its argument. -/
def moveObject (m : Machine) (o : Cap) (nwords : Nat) : Option (Cap × Machine) :=
  match memAllocate arena m nwords with
  | none => none
  | some (copy, m) =>
      some (copy, m.copyWords o.address copy.address nwords)

/-- `strstr(haystack, needle) != nullptr` -/
def strstr (haystack needle : String) : Bool :=
  decide (needle.toList <:+: haystack.toList)

/-- The external name that the closure compares; a missing klass has a name of
its own. -/
def klassName (klass : Option Klass) : Option String :=
  match klass with
  | none => some "<null-klass>"
  | some k => k.externalName

/-- Whether `STOPLESS_MOVE_KLASS` and `STOPLESS_SKIP_COMPLEX` let the object
move. -/
def targeted (env : Env) (klass : Option Klass) : Bool :=
  (match env.moveKlass with
    | none => true
    | some filter =>
        match klassName klass with
        | none => false
        | some name => strstr name filter) &&
  !(env.skipComplex &&
    match klass with
    | none => false
    | some k => k.isArrayKlass || k.externalName == some "java.lang.Class")

/-- The state of a `StoplessMoveRootsClosure`, with the machine it works on. -/
structure Scan where
  machine : Machine
  movedFrom : List Cap
  moved : Nat
  fixed : Nat
  nonheap : Nat
  skipped : Nat
  visited : Nat

def Scan.start (m : Machine) : Scan :=
  { machine := m
    movedFrom := []
    moved := 0
    fixed := 0
    nonheap := 0
    skipped := 0
    visited := 0 }

/-- The end of `do_oop`: the slot gets whatever the table returned, also
`NULL`. -/
def fixup (env : Env) (s : Scan) (p : Nat) (fwd : Option Cap) : Scan :=
  if env.noFixup then s
  else
    { s with
      machine := s.machine.store p (.value (fwd.getD Cap.null))
      fixed := s.fixed + 1 }

/-- The part of `do_oop` behind the filters. -/
def relocate (env : Env) (replies : Replies) (s : Scan) (p : Nat) (o : Cap)
    (size : Nat) : Except Halt Scan :=
  match moveObject arena s.machine o size with
  | none => .ok s
  | some (o2, m) =>
      match forwardTableCasInsert cheri (some arena.base) replies.callocInsert
          m.table o.address o2 with
      | .error reason => .error (.stuck reason)
      | .ok (table, fwd) =>
          .ok (fixup env
            { s with
              machine := { m with table := table }
              movedFrom := s.movedFrom ++ [o]
              moved := s.moved + 1 } p fwd)

/-- `StoplessMoveRootsClosure::do_oop` -/
def doOop (env : Env) (replies : Replies) (limit : Nat) (s : Scan) (p : Nat) :
    Except Halt Scan :=
  let s := { s with visited := s.visited + 1 }
  match s.machine.load p with
  | .header _ _ => .ok { s with nonheap := s.nonheap + 1 }
  | .value o =>
      if o.address = 0 then .ok s
      else if !isIn arena o then .ok { s with nonheap := s.nonheap + 1 }
      else
        match forwardTableLookup cheri (some arena.base) s.machine.table
            o.address with
        | some fwd => .ok (fixup env s p (some fwd))
        | none =>
            if limit ≤ s.moved then .ok s
            else
              match s.machine.header o with
              | none => .error .crash
              | some (klass, size) =>
                  if targeted env klass then
                    relocate arena env replies s p o size
                  else .ok { s with skipped := s.skipped + 1 }

/-- `StoplessHeap::scan_roots` over the slots it presents. -/
def scanRoots (env : Env) (replies : Replies) (limit : Nat) :
    List Nat → Scan → Except Halt Scan
  | [], s => .ok s
  | p :: rest, s => do
      scanRoots env replies limit rest (← doOop arena env replies limit s p)

/-- The marks of one cycle: `mark_for_revoke` over `moved_from`, whose return
codes nobody looks at. -/
def markAll (markRc : Nat → Int) : Nat → List Cap → Revoke.Shadow →
    Revoke.Shadow
  | _, [], shadow => shadow
  | n, o :: rest, shadow =>
      markAll markRc (n + 1) rest
        (Revoke.stoplessMarkRevokeCap (markRc n) shadow o).2

theorem marks_succeed {markRc : Nat → Int} {n : Nat} {o : Cap} {rest : List Cap}
    (succeed : ∀ i, i < (o :: rest).length → markRc (n + i) = 0) :
    markRc n = 0 ∧ ∀ i, i < rest.length → markRc (n + 1 + i) = 0 := by
  refine ⟨succeed 0 (by simp), ?_⟩
  intro i below
  rw [Nat.add_assoc, Nat.add_comm 1]
  apply succeed
  simpa using below

/-- What a completed sweep leaves of memory and registers. -/
def sweepWord (shadow : Revoke.Shadow) : Word → Word
  | .header klass size => .header klass size
  | .value c => .value (Revoke.sweepCap shadow c)

def sweep (m : Machine) : Machine :=
  { m with
    mem := fun p => sweepWord m.shadow (m.mem p)
    regs := fun i => Revoke.sweepCap m.shadow (m.regs i) }

/-- `revoke_sweep`: the return code, and the machine after a sweep that has
reported completion or after one that has not. -/
def revokeSweep (kernel : Revoke.Kernel) (m : Machine) : Int × Machine :=
  let rc := Revoke.stoplessRevokeNow kernel
  (rc, if rc = 0 then sweep m else m)

/-- The concurrent branch of `doit`. -/
def revokeConcurrent (replies : Replies) (movedFrom : List Cap) (m : Machine) :
    Except Halt Machine :=
  let m := { m with shadow := markAll replies.markRc 0 movedFrom m.shadow }
  if movedFrom.length = 0 then .ok m
  else if Revoke.stoplessRevokeOpen replies.openEpoch = 0 then .ok { m with closePending := true }
  else if (revokeSweep replies.sweep m).1 ≠ 0 then .error .fatal
  else .ok (revokeSweep replies.sweep m).2

/-- The synchronous branch of `doit`.  The return code of the sweep is
dropped. -/
def revokeSynchronous (env : Env) (replies : Replies) (movedFrom : List Cap)
    (m : Machine) : Machine :=
  let m :=
    { m with
      shadow := markAll replies.markRc 0 movedFrom m.shadow
      sMarkedPending := m.sMarkedPending + movedFrom.length
      sCycle := m.sCycle + 1 }
  if 0 < m.sMarkedPending ∧ m.sCycle % max 1 env.revokeBatch = 0 then
    { (revokeSweep replies.sweep m).2 with sMarkedPending := 0 }
  else m

/-- The move limit of a cycle: none while a close is pending. -/
def cycleLimit (env : Env) (m : Machine) : Nat :=
  if env.revokeConcurrent && m.closePending then 0 else env.moveLimit

/-- `VM_StoplessCollect::doit`: the machine the mutators resume on, and the
old copies of the objects moved by the cycle. -/
def doit (env : Env) (replies : Replies) (roots : List Nat) (m : Machine) :
    Except Halt (Machine × List Cap) :=
  match forwardTableMaybeGrow replies.callocGrow m.table with
  | .error reason => .error (.stuck reason)
  | .ok table => do
      let s ← scanRoots arena env replies (cycleLimit env m) roots
        (Scan.start { m with table := table })
      if env.noRevoke then .ok (s.machine, s.movedFrom)
      else if env.revokeConcurrent then do
        let m ← revokeConcurrent replies s.movedFrom s.machine
        .ok (m, s.movedFrom)
      else
        .ok (revokeSynchronous env replies s.movedFrom s.machine, s.movedFrom)

end Collector

end StoplessGC
