import StoplessGC.Cheri
import Mathlib.Logic.Function.Basic

/-!
# The forwarding table

`forward_table.c`, one call at a time.  The three globals `g_table`,
`g_capacity` and `g_size` are separate fields, as they are in the source.
`calloc` gets its outcome from the caller, and calls that would not return
(a null table dereferenced, the wait for a zero `new_addr`, a rehash without
a free slot) end in a `Stuck` value.
-/

namespace StoplessGC

namespace ForwardTable

/-- `FT_INITIAL_CAP` -/
def initialCap : Nat := 2 ^ 16

/-- `FT_CHASE_MAX` -/
def chaseMax : Nat := 4096

/-- `ft_slot_t`; a zero `fromAddr` marks a free slot. -/
structure Slot where
  fromAddr : Nat
  newAddr : Nat
  newLen : Nat
deriving DecidableEq, Repr

/-- `sizeof(ft_slot_t)` with 16-byte `uintptr_t`. -/
def slotBytes : Nat := 48

/-- A `calloc`ed slot array: its number of slots and their contents. -/
structure Table where
  size : Nat
  slot : Nat → Slot

namespace Table

def zeroed (size : Nat) : Table :=
  { size := size, slot := fun _ => ⟨0, 0, 0⟩ }

def setSlot (t : Table) (i : Nat) (content : Slot) : Table :=
  { t with slot := Function.update t.slot i content }

@[simp] theorem setSlot_size (t : Table) (i : Nat) (content : Slot) :
    (t.setSlot i content).size = t.size := rfl

@[simp] theorem setSlot_slot (t : Table) (i : Nat) (content : Slot) :
    (t.setSlot i content).slot = Function.update t.slot i content := rfl

end Table

/-- `calloc(n, sizeof(ft_slot_t))`.  It refuses a byte count beyond 64 bits by
itself, so a granted table never makes `size_t` arithmetic on its capacity
wrap. -/
def calloc (granted : Bool) (n : Nat) : Option Table :=
  if granted ∧ n * slotBytes < addressSpace then some (Table.zeroed n) else none

structure State where
  gTable : Option Table
  gCapacity : Nat
  gSize : Nat

/-- The static initialisers. -/
def initial : State := { gTable := none, gCapacity := 0, gSize := 0 }

/-- Calls that do not return. -/
inductive Stuck where
  | nullTable
  | spin
  | rehash
deriving DecidableEq, Repr

def mix (x : Nat) : Nat :=
  let x := x ^^^ (x >>> 30)
  let x := x * 0xbf58476d1ce4e5b9 % addressSpace
  let x := x ^^^ (x >>> 27)
  let x := x * 0x94d049bb133111eb % addressSpace
  x ^^^ (x >>> 31)

def forwardTableInit (granted : Bool) (s : State) : State :=
  match s.gTable with
  | some _ => s
  | none =>
      { gTable := calloc granted initialCap
        gCapacity := initialCap
        gSize := 0 }

/-- `memset` over the first `g_capacity` slots. -/
def forwardTableClear (s : State) : State :=
  match s.gTable with
  | none => s
  | some t =>
      { s with
        gTable := some { t with
          slot := fun i => if i < s.gCapacity then ⟨0, 0, 0⟩ else t.slot i }
        gSize := 0 }

/-- The loop `while (nt[i].from_addr != 0) i = (i + 1) & mask`. -/
def freeSlot (nt : Table) (mask : Nat) : Nat → Nat → Option Nat
  | 0, _ => none
  | fuel + 1, i =>
      if (nt.slot i).fromAddr = 0 then some i
      else freeSlot nt mask fuel ((i + 1) &&& mask)

/-- One iteration of the copy loop of `forward_table_maybe_grow`.  The inner
loop has no bound of its own; a full cycle without a free slot repeats
forever. -/
def copySlot (old : Table) (nt : Table) (j : Nat) : Except Stuck Table :=
  let content := old.slot j
  if content.fromAddr = 0 then .ok nt
  else
    match freeSlot nt (nt.size - 1) nt.size
        (mix content.fromAddr &&& (nt.size - 1)) with
    | some i => .ok (nt.setSlot i content)
    | none => .error .rehash

/-- The new table after the first `j` iterations of the copy loop. -/
def copySlots (old : Table) (nt : Table) : Nat → Except Stuck Table
  | 0 => .ok nt
  | j + 1 => do copySlot old (← copySlots old nt j) j

def forwardTableMaybeGrow (granted : Bool) (s : State) : Except Stuck State :=
  match s.gTable with
  | none => .ok (forwardTableInit granted s)
  | some old =>
      if s.gSize * 10 < s.gCapacity * 7 then .ok s
      else
        match calloc granted (s.gCapacity * 2) with
        | none => .ok s
        | some nt => do
            let filled ← copySlots old nt s.gCapacity
            .ok { s with gTable := some filled, gCapacity := s.gCapacity * 2 }

/-- The probe loop shared by insert, insert-or-get and lookup: the first slot
whose key is zero or `key`. -/
def probeLoop (t : Table) (mask key : Nat) : Nat → Nat → Option Nat
  | 0, _ => none
  | fuel + 1, i =>
      if (t.slot i).fromAddr = 0 ∨ (t.slot i).fromAddr = key then some i
      else probeLoop t mask key fuel ((i + 1) &&& mask)

/-- The loop as it is entered: `mask + 1` probes from `mix(key) & mask`. -/
def findSlot (s : State) (t : Table) (key : Nat) : Option Nat :=
  let mask := s.gCapacity - 1
  probeLoop t mask key (mask + 1) (mix key &&& mask)

def forwardTableInsert (granted : Bool) (s : State) (key : Nat)
    (newCap : Cap) : Except Stuck State :=
  let s := forwardTableInit granted s
  match s.gTable with
  | none => .error .nullTable
  | some t =>
      match findSlot s t key with
      | none => .ok s
      | some i =>
          .ok { s with
            gTable := some (t.setSlot i ⟨key, newCap.address, newCap.length⟩)
            gSize := if (t.slot i).fromAddr = 0 then s.gSize + 1 else s.gSize }

/-- `ft_find`: a slot without an address is mid-publish or deleted. -/
def ftFind (s : State) (key : Nat) : Option (Nat × Nat) :=
  match s.gTable with
  | none => none
  | some t =>
      match findSlot s t key with
      | none => none
      | some i =>
          if (t.slot i).fromAddr = 0 then none
          else if (t.slot i).newAddr = 0 then none
          else some ((t.slot i).newAddr, (t.slot i).newLen)

/-- The chase of `forward_table_lookup`; `fuel` counts down from
`FT_CHASE_MAX` and running out is the fail-stop. -/
def chase (find : Nat → Option (Nat × Nat)) : Nat → Nat → Nat →
    Option (Nat × Nat)
  | 0, _, _ => none
  | fuel + 1, na, nl =>
      match find na with
      | none => some (na, nl)
      | some (nna, nnl) =>
          if nna = na then some (na, nl) else chase find fuel nna nnl

/-- The final address and length that `forward_table_lookup` derives from. -/
def resolve (find : Nat → Option (Nat × Nat)) (key : Nat) :
    Option (Nat × Nat) :=
  match find key with
  | none => none
  | some (na, nl) => chase find chaseMax na nl

/-- `ft_derive`; `none` is `NULL`. -/
def ftDerive (cheri : Intrinsics) (arenaBase : Option Cap)
    (addr len : Nat) : Option Cap :=
  match arenaBase with
  | none => none
  | some base =>
      if addr = 0 then none
      else
        let c := cheri.addressSet base addr
        let c := if 0 < len then cheri.boundsSet c len else c
        some c.withoutSwVmem

def forwardTableLookup (cheri : Intrinsics) (arenaBase : Option Cap)
    (s : State) (key : Nat) : Option Cap :=
  match resolve (ftFind s) key with
  | none => none
  | some (addr, len) => ftDerive cheri arenaBase addr len

/-- `forward_table_cas_insert` without interference: the compare-exchange on
a slot read as zero succeeds. -/
def forwardTableCasInsert (cheri : Intrinsics) (arenaBase : Option Cap)
    (granted : Bool) (s : State) (key : Nat) (newCap : Cap) :
    Except Stuck (State × Option Cap) :=
  let s := forwardTableInit granted s
  match s.gTable with
  | none => .error .nullTable
  | some t =>
      match findSlot s t key with
      | none => .ok (s, none)
      | some i =>
          if (t.slot i).fromAddr = key then
            if (t.slot i).newAddr = 0 then .error .spin
            else .ok (s, forwardTableLookup cheri arenaBase s key)
          else
            .ok ({ s with
              gTable := some (t.setSlot i ⟨key, newCap.address, newCap.length⟩)
              gSize := s.gSize + 1 },
              ftDerive cheri arenaBase newCap.address newCap.length)

end ForwardTable

end StoplessGC
