import StoplessGC.Mutator

/-!
# A machine without a collector

What the mutator believes in: objects never move and have no addresses.  A
reference is the number of an object, in the order of allocation, and a byte
offset.  The same instructions run on it; an access that leaves the fields of
its object has no meaning.
-/

namespace StoplessGC

open Mutator

/-- What a register or a field holds. -/
inductive Value where
  | int (n : Nat)
  | ref (object offset : Nat)
deriving DecidableEq, Repr

/-- An object, with the fields of its words behind the header. -/
structure PlainObject where
  klass : Option Klass
  size : Nat
  fields : Nat → Value

structure Plain where
  objects : List PlainObject
  frame : Nat → Value
  regs : Fin 30 → Value

namespace Plain

def boot : Plain :=
  { objects := []
    frame := fun _ => .int 0
    regs := fun _ => .int 0 }

def setReg (s : Plain) (dst : Fin 30) (v : Value) : Plain :=
  { s with regs := Function.update s.regs dst v }

/-- Pointer arithmetic, up to the end of the object. -/
def shift (s : Plain) (delta : Nat) : Value → Option Value
  | .int n => some (.int ((n + delta) % addressSpace))
  | .ref i offset =>
      match s.objects[i]? with
      | none => none
      | some object =>
          if (offset + delta) % addressSpace ≤ object.size * heapWordSize then
            some (.ref i ((offset + delta) % addressSpace))
          else none

/-- The field of an access: the number of the object, the object and the
word. -/
def field (s : Plain) (delta : Nat) : Value → Option (Nat × PlainObject × Nat)
  | .int _ => none
  | .ref i offset =>
      match s.objects[i]? with
      | none => none
      | some object =>
          let word := (offset + delta) % addressSpace / heapWordSize
          if heapWordSize ∣ (offset + delta) % addressSpace ∧
              0 < word ∧ word < object.size then
            some (i, object, word)
          else none

/-- A new object, its fields zero. -/
def alloc (s : Plain) (klass : Option Klass) (size : Nat) : Plain :=
  { s with
    objects := s.objects ++
      [{ klass := klass, size := size, fields := fun _ => .int 0 }] }

/-- One instruction; `granted` is the answer of an allocation. -/
def step (s : Plain) (granted : Bool) : Op → Option Plain
  | .alloc dst klass size =>
      if granted then
        some ((s.alloc klass size).setReg dst (.ref s.objects.length 0))
      else some (s.setReg dst (.int 0))
  | .imm dst n => some (s.setReg dst (.int n))
  | .move dst src => some (s.setReg dst (s.regs src))
  | .lea dst src delta =>
      match s.shift delta (s.regs src) with
      | none => none
      | some v => some (s.setReg dst v)
  | .fill dst p => some (s.setReg dst (s.frame p))
  | .spill p src =>
      some { s with frame := Function.update s.frame p (s.regs src) }
  | .load dst base delta =>
      match s.field delta (s.regs base) with
      | none => none
      | some (_, object, word) => some (s.setReg dst (object.fields word))
  | .store base delta src =>
      match s.field delta (s.regs base) with
      | none => none
      | some (i, object, word) =>
          some { s with
            objects := s.objects.set i { object with
              fields := Function.update object.fields word (s.regs src) } }

/-- A whole program, with the answers of its allocations. -/
def run (s : Plain) : List (Op × Bool) → Option Plain
  | [] => some s
  | (op, granted) :: rest =>
      match s.step granted op with
      | none => none
      | some s => s.run rest

theorem run_append (s : Plain) (first second : List (Op × Bool)) :
    s.run (first ++ second) = (s.run first).bind (fun s => s.run second) := by
  induction first generalizing s with
  | nil => rfl
  | cons action rest ih =>
      obtain ⟨op, granted⟩ := action
      rw [List.cons_append, run, run]
      cases s.step granted op with
      | none => rfl
      | some s => exact ih s

theorem run_snoc {s s' : Plain} {trace : List (Op × Bool)} {op : Op}
    {granted : Bool} (ran : s.run (trace ++ [(op, granted)]) = some s') :
    ∃ s₁, s.run trace = some s₁ ∧ s₁.step granted op = some s' := by
  rw [run_append] at ran
  obtain ⟨s₁, first, last⟩ := Option.bind_eq_some_iff.mp ran
  refine ⟨s₁, first, ?_⟩
  rw [run] at last
  cases stepped : s₁.step granted op with
  | none =>
      rw [stepped] at last
      cases last
  | some s₂ =>
      rw [stepped] at last
      exact last

/-- Whether an instruction has a meaning does not depend on the allocator. -/
theorem step_answer {s s' : Plain} {granted : Bool} {op : Op}
    (stepped : s.step granted op = some s') (answer : Bool) :
    ∃ s'', s.step answer op = some s'' := by
  cases op with
  | alloc dst klass size => cases answer <;> exact ⟨_, rfl⟩
  | _ => exact ⟨s', stepped⟩

theorem field_cases {s : Plain} {delta : Nat} {v : Value} {i word : Nat}
    {object : PlainObject} (found : s.field delta v = some (i, object, word)) :
    ∃ offset, v = .ref i offset ∧ s.objects[i]? = some object ∧
      (offset + delta) % addressSpace = word * heapWordSize ∧
      0 < word ∧ word < object.size := by
  cases v with
  | int n => cases found
  | ref j offset =>
      unfold field at found
      cases there : s.objects[j]? with
      | none =>
          simp only [there] at found
          cases found
      | some object' =>
          simp only [there] at found
          split at found
          case isTrue inside =>
            cases found
            refine ⟨offset, rfl, there, ?_, inside.2⟩
            exact (Nat.div_mul_cancel inside.1).symm
          case isFalse => cases found

section Access

variable {s s' : Plain} {base : Fin 30} {delta : Nat} {granted : Bool}

theorem step_load {dst : Fin 30}
    (stepped : s.step granted (.load dst base delta) = some s') :
    ∃ i object word, s.field delta (s.regs base) = some (i, object, word) ∧
      s' = s.setReg dst (object.fields word) := by
  unfold step at stepped
  cases found : s.field delta (s.regs base) with
  | none =>
      simp only [found] at stepped
      cases stepped
  | some field =>
      obtain ⟨i, object, word⟩ := field
      simp only [found] at stepped
      cases stepped
      exact ⟨i, object, word, rfl, rfl⟩

theorem step_store {src : Fin 30}
    (stepped : s.step granted (.store base delta src) = some s') :
    ∃ i object word, s.field delta (s.regs base) = some (i, object, word) ∧
      s' = { s with
        objects := s.objects.set i { object with
          fields := Function.update object.fields word (s.regs src) } } := by
  unfold step at stepped
  cases found : s.field delta (s.regs base) with
  | none =>
      simp only [found] at stepped
      cases stepped
  | some field =>
      obtain ⟨i, object, word⟩ := field
      simp only [found] at stepped
      cases stepped
      exact ⟨i, object, word, rfl, rfl⟩

end Access

end Plain

end StoplessGC
