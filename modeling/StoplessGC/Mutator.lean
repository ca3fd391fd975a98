import StoplessGC.Handler

/-!
# Mutator instructions

The instructions a mutator thread executes between two safepoints.  A load or
store through a register first checks the tag, the permissions and the bounds
of its capability.  A failed check raises `SIGPROT`; the handler patches the
register file and the instruction is retried, any number of times.
-/

namespace StoplessGC

namespace Mutator

open Handler Collector

variable {cheri : Intrinsics} (arena : Arena cheri)

inductive Op where
  | alloc (dst : Fin 30) (klass : Option Klass) (size : Nat)
  | imm (dst : Fin 30) (n : Nat)
  | move (dst src : Fin 30)
  | lea (dst src : Fin 30) (delta : Nat)
  | fill (dst : Fin 30) (p : Nat)
  | spill (p : Nat) (src : Fin 30)
  | load (dst base : Fin 30) (delta : Nat)
  | store (base : Fin 30) (delta : Nat) (src : Fin 30)

/-- The effective address of an access. -/
def effective (c : Cap) (delta : Nat) : Nat := (c.address + delta) % addressSpace

/-- The check of an access to one word: `none` lets it pass, otherwise the
`si_code` of the fault.  A misaligned access is not a capability fault. -/
def check (c : Cap) (delta : Nat) : Option Nat :=
  if !c.tag then some 2
  else if c.perms.isZero then some 5
  else if c.base ≤ effective c delta ∧
      effective c delta + heapWordSize ≤ c.base + c.length then
    if heapWordSize ∣ effective c delta then none else some 0
  else some 1

/-- Trap, heal and retry.  The result is the register file with which the
access goes through; `fuel` bounds the retries. -/
def access (evacuate : Option (Nat → Option Cap)) (table : ForwardTable.State)
    (pc : Nat) (base : Fin 30) (delta : Nat) :
    Nat → (Fin 30 → Cap) → Option (Fin 30 → Cap)
  | 0, _ => none
  | fuel + 1, regs =>
      match check (regs base) delta with
      | none => some regs
      | some code =>
          match stoplessTryHeal arena evacuate table
              { siCode := code, siAddr := pc, rn := base } regs with
          | none => none
          | some regs => access evacuate table pc base delta fuel regs

/-- Header and zeroed fields of a new object. -/
def initialise (m : Machine) (start : Nat) (klass : Option Klass) (size : Nat) :
    Nat → Machine
  | 0 => m.store start (.header klass size)
  | n + 1 =>
      (initialise m start klass size n).store (start + (n + 1) * heapWordSize)
        (.value (Cap.ofInt 0))

def setReg (m : Machine) (dst : Fin 30) (c : Cap) : Machine :=
  { m with regs := Function.update m.regs dst c }

/-- One instruction.  `none` is an access that cannot be completed, or that no
bytecode makes: a frame slot inside the arena, a header taken for a field.  The
boolean tells whether an allocation found memory. -/
def exec (evacuate : Option (Nat → Option Cap)) (pc fuel : Nat) (m : Machine) :
    Op → Option (Machine × Bool)
  | .alloc dst klass size =>
      match memAllocate arena m size with
      | none => some (setReg m dst Cap.null, false)
      | some (obj, m) =>
          some (setReg (initialise m obj.address klass size (size - 1)) dst obj,
            true)
  | .imm dst n => some (setReg m dst (Cap.ofInt n), true)
  | .move dst src => some (setReg m dst (m.regs src), true)
  | .lea dst src delta =>
      some (setReg m dst
        (cheri.addressSet (m.regs src) (effective (m.regs src) delta)), true)
  | .fill dst p =>
      if arena.covers p then none
      else
        match m.load p with
        | .header _ _ => none
        | .value c => some (setReg m dst c, true)
  | .spill p src =>
      if arena.covers p then none
      else some (m.store p (.value (m.regs src)), true)
  | .load dst base delta =>
      match access arena evacuate m.table pc base delta fuel m.regs with
      | none => none
      | some regs =>
          match m.load (effective (regs base) delta) with
          | .header _ _ => none
          | .value c => some (setReg { m with regs := regs } dst c, true)
  | .store base delta src =>
      match access arena evacuate m.table pc base delta fuel m.regs with
      | none => none
      | some regs =>
          match m.load (effective (regs base) delta) with
          | .header _ _ => none
          | .value _ =>
              some (({ m with regs := regs } : Machine).store
                (effective (regs base) delta) (.value (regs src)), true)

section Access

variable {evacuate : Option (Nat → Option Cap)} {pc fuel delta : Nat}
  {m m' : Machine} {base : Fin 30} {granted : Bool}

theorem exec_load {dst : Fin 30}
    (ran : exec arena evacuate pc fuel m (.load dst base delta) =
      some (m', granted)) :
    ∃ regs c, access arena evacuate m.table pc base delta fuel m.regs =
        some regs ∧
      m.load (effective (regs base) delta) = .value c ∧
      m' = setReg { m with regs := regs } dst c := by
  unfold exec at ran
  cases passed : access arena evacuate m.table pc base delta fuel m.regs with
  | none =>
      simp only [passed] at ran
      cases ran
  | some regs =>
      simp only [passed] at ran
      cases word : m.load (effective (regs base) delta) with
      | header klass size =>
          simp only [word] at ran
          cases ran
      | value c =>
          simp only [word] at ran
          cases ran
          exact ⟨regs, c, rfl, word, rfl⟩

theorem exec_store {src : Fin 30}
    (ran : exec arena evacuate pc fuel m (.store base delta src) =
      some (m', granted)) :
    ∃ regs c, access arena evacuate m.table pc base delta fuel m.regs =
        some regs ∧
      m.load (effective (regs base) delta) = .value c ∧
      m' = ({ m with regs := regs } : Machine).store
        (effective (regs base) delta) (.value (regs src)) := by
  unfold exec at ran
  cases passed : access arena evacuate m.table pc base delta fuel m.regs with
  | none =>
      simp only [passed] at ran
      cases ran
  | some regs =>
      simp only [passed] at ran
      cases word : m.load (effective (regs base) delta) with
      | header klass size =>
          simp only [word] at ran
          cases ran
      | value c =>
          simp only [word] at ran
          cases ran
          exact ⟨regs, c, rfl, word, rfl⟩

end Access

end Mutator

end StoplessGC
