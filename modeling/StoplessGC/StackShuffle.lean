import StoplessGC.ExpressionStack

/-!
# Templates that rearrange the expression stack

`TemplateTable::pop` to `TemplateTable::swap`, and what the JVM specification
prescribes for their bytecodes.  Stacks are lists with the topmost slot first;
a value of two words is two slots.
-/

namespace StoplessGC

namespace Morello

namespace StackShuffle

open StoredList ExpressionStack

inductive Bytecode where
  | pop
  | pop2
  | dup
  | dupX1
  | dupX2
  | dup2
  | dup2X1
  | dup2X2
  | swap
deriving DecidableEq, Repr

namespace TemplateTable

def pop : List SlotOp := [.drop 1]

def pop2 : List SlotOp := [.drop 2]

def dup : List SlotOp := [.load .r0 0, .push .r0]

def dupX1 : List SlotOp :=
  [.load .r0 0, .load .r2 1, .store .r0 1, .store .r2 0, .push .r0]

def dupX2 : List SlotOp :=
  [.load .r0 0, .load .r2 2, .store .r0 2, .push .r0, .load .r0 2,
    .store .r2 2, .store .r0 1]

def dup2 : List SlotOp := [.load .r0 1, .push .r0, .load .r0 1, .push .r0]

def dup2X1 : List SlotOp :=
  [.load .r2 0, .load .r0 1, .push .r0, .push .r2, .store .r2 3, .load .r2 4,
    .store .r2 2, .store .r0 4]

def dup2X2 : List SlotOp :=
  [.load .r2 0, .load .r0 1, .push .r0, .push .r2, .load .r0 4, .store .r0 2,
    .store .r2 4, .load .r2 5, .load .r0 3, .store .r2 3, .store .r0 5]

def swap : List SlotOp :=
  [.load .r2 1, .load .r0 0, .store .r2 0, .store .r0 1]

end TemplateTable

namespace Bytecode

def template : Bytecode → List SlotOp
  | pop => TemplateTable.pop
  | pop2 => TemplateTable.pop2
  | dup => TemplateTable.dup
  | dupX1 => TemplateTable.dupX1
  | dupX2 => TemplateTable.dupX2
  | dup2 => TemplateTable.dup2
  | dup2X1 => TemplateTable.dup2X1
  | dup2X2 => TemplateTable.dup2X2
  | swap => TemplateTable.swap

/-- The emitted words. -/
def code (b : Bytecode) : List Code := b.template.flatMap SlotOp.emit

/-- The number of slots that the instruction uses. -/
def operands : Bytecode → Nat
  | pop => 1
  | pop2 => 2
  | dup => 1
  | dupX1 => 2
  | dupX2 => 3
  | dup2 => 2
  | dup2X1 => 3
  | dup2X2 => 4
  | swap => 2

/-- The number of slots by which the stack grows. -/
def growth : Bytecode → Nat
  | pop => 0
  | pop2 => 0
  | dup => 1
  | dupX1 => 1
  | dupX2 => 1
  | dup2 => 2
  | dup2X1 => 2
  | dup2X2 => 2
  | swap => 0

/-- The JVM specification. -/
def prescribed {α : Type} : Bytecode → List α → Option (List α)
  | pop, _ :: rest => some rest
  | pop2, _ :: _ :: rest => some rest
  | dup, a :: rest => some (a :: a :: rest)
  | dupX1, b :: a :: rest => some (b :: a :: b :: rest)
  | dupX2, c :: b :: a :: rest => some (c :: b :: a :: c :: rest)
  | dup2, b :: a :: rest => some (b :: a :: b :: a :: rest)
  | dup2X1, c :: b :: a :: rest => some (c :: b :: a :: c :: b :: rest)
  | dup2X2, d :: c :: b :: a :: rest =>
      some (d :: c :: b :: a :: d :: c :: rest)
  | swap, b :: a :: rest => some (a :: b :: rest)
  | _, _ => none

end Bytecode

/-- The expression stack of a machine state, with room for `room` more slots. -/
structure Holds (cpu : Cpu) (room : Nat) (slots : List Cap) : Prop where
  stored : Stored cpu.mem 16 (cpu.read esp).address slots
  tagged : (cpu.read esp).tag = true
  aligned : 16 ∣ (cpu.read esp).address
  lower : (cpu.read esp).base + 16 * room ≤ (cpu.read esp).address
  upper : (cpu.read esp).address + 16 * slots.length ≤
    (cpu.read esp).base + (cpu.read esp).length
  word : (cpu.read esp).address + 16 * slots.length < addressSpace

/-- What a template leaves of the stack: the prescribed slots, with `esp` moved
by as many slots as the stack has lost, and all other memory as it was. -/
structure Shuffled (b : Bytecode) (cpu cpu' : Cpu) (room : Nat)
    (slots slots' : List Cap) : Prop where
  prescribed : b.prescribed slots = some slots'
  top : cpu'.read esp = (cpu.read esp).withAddress
    ((cpu.read esp).address + 16 * slots.length - 16 * slots'.length)
  holds : Holds cpu' (room + slots.length - slots'.length) slots'
  below : ∀ a, (cpu.read esp).address + 16 * b.operands ≤ a →
    cpu'.mem a = cpu.mem a
  above : ∀ a, a + 16 * b.growth < (cpu.read esp).address →
    cpu'.mem a = cpu.mem a

section Templates

variable {cheri : Intrinsics} {cpu : Cpu} {slots : List Cap} {room : Nat}

theorem template_run (b : Bytecode) (temp : Temp → Cap) {front : List Cap}
    (operands : front.length = b.operands) :
    ∃ temp' result, SlotOp.run (b.operands + b.growth) b.template
        { temp := temp, slots := front } =
        some { temp := temp', slots := result } ∧
      ∀ rest, b.prescribed (front ++ rest) = some (result ++ rest) := by
  match b, front, operands with
  | .pop, [_], _ => exact ⟨_, _, rfl, fun _ => rfl⟩
  | .pop2, [_, _], _ => exact ⟨_, _, rfl, fun _ => rfl⟩
  | .dup, [_], _ => exact ⟨_, _, rfl, fun _ => rfl⟩
  | .dupX1, [_, _], _ => exact ⟨_, _, rfl, fun _ => rfl⟩
  | .dupX2, [_, _, _], _ => exact ⟨_, _, rfl, fun _ => rfl⟩
  | .dup2, [_, _], _ => exact ⟨_, _, rfl, fun _ => rfl⟩
  | .dup2X1, [_, _, _], _ => exact ⟨_, _, rfl, fun _ => rfl⟩
  | .dup2X2, [_, _, _, _], _ => exact ⟨_, _, rfl, fun _ => rfl⟩
  | .swap, [_, _], _ => exact ⟨_, _, rfl, fun _ => rfl⟩

theorem Bytecode.depth_small (b : Bytecode) : b.operands + b.growth < 256 := by
  cases b <;> decide

theorem Holds.area {b : Bytecode} (holds : Holds cpu room slots)
    (deep : b.operands ≤ slots.length) (roomy : b.growth ≤ room) :
    Area (cpu.read esp) (b.operands + b.growth)
      ((cpu.read esp).address + 16 * b.operands) := by
  obtain ⟨_, tagged, aligned, lower, upper, word⟩ := holds
  exact ⟨tagged, by omega, by omega, by omega, by omega, b.depth_small⟩

theorem Holds.represents {b : Bytecode} (holds : Holds cpu room slots)
    (deep : b.operands ≤ slots.length) :
    Represents cpu cpu (b.operands + b.growth)
      ((cpu.read esp).address + 16 * b.operands)
      { temp := fun t => cpu.read t.register
        slots := slots.take b.operands } := by
  have length : (slots.take b.operands).length = b.operands :=
    List.length_take_of_le deep
  have top : (cpu.read esp).address + 16 * b.operands -
      16 * (slots.take b.operands).length = (cpu.read esp).address := by
    rw [length, Nat.add_sub_cancel]
  constructor
  · rw [top]
    rfl
  · exact fun _ => rfl
  · rw [top]
    exact holds.stored.take b.operands
  · rw [length]
    exact Nat.le_add_right _ _
  · exact fun _ _ => rfl
  · exact fun _ _ _ => rfl

theorem Holds.shuffled {b : Bytecode} (holds : Holds cpu room slots)
    (deep : b.operands ≤ slots.length) (roomy : b.growth ≤ room) {cpu' : Cpu}
    {temp : Temp → Cap} {result : List Cap}
    (prescribed : b.prescribed slots =
      some (result ++ slots.drop b.operands))
    (done : Represents cpu cpu' (b.operands + b.growth)
      ((cpu.read esp).address + 16 * b.operands)
      { temp := temp, slots := result }) :
    Shuffled b cpu cpu' room slots (result ++ slots.drop b.operands) := by
  obtain ⟨top, -, stored, fits, frame, -⟩ := done
  obtain ⟨old, tagged, aligned, lower, upper, word⟩ := holds
  change cpu'.read esp = (cpu.read esp).withAddress
    ((cpu.read esp).address + 16 * b.operands - 16 * result.length) at top
  change Stored cpu'.mem 16
    ((cpu.read esp).address + 16 * b.operands - 16 * result.length) result
    at stored
  change result.length ≤ b.operands + b.growth at fits
  have length : (result ++ slots.drop b.operands).length =
      result.length + (slots.length - b.operands) := by
    rw [List.length_append, List.length_drop]
  have below : ∀ a, (cpu.read esp).address + 16 * b.operands ≤ a →
      cpu'.mem a = cpu.mem a := fun a far => frame a (.inr far)
  have rest : Stored cpu'.mem 16
      ((cpu.read esp).address + 16 * b.operands) (slots.drop b.operands) :=
    (old.drop b.operands).congr fun i _ => below _ (Nat.le_add_right _ _)
  have bottom : (cpu.read esp).address + 16 * b.operands =
      (cpu.read esp).address + 16 * b.operands - 16 * result.length +
        16 * result.length := by omega
  rw [bottom] at rest
  refine ⟨prescribed, ?_, ⟨?_, ?_, ?_, ?_, ?_, ?_⟩, below, ?_⟩
  · rw [top, length]
    congr 1
    omega
  · rw [top]
    exact stored.append rest
  · rw [top]
    exact tagged
  · rw [top, Cap.withAddress_address]
    omega
  · rw [top, Cap.withAddress_base, Cap.withAddress_address, length]
    omega
  · rw [top, Cap.withAddress_address, Cap.withAddress_base,
      Cap.withAddress_length, length]
    omega
  · rw [top, Cap.withAddress_address, length]
    omega
  · intro a far
    exact frame a (.inl (by omega))

/-- Each template does to the slots what the specification prescribes. -/
theorem template_shuffles (laws : cheri.Laws) (b : Bytecode)
    (holds : Holds cpu room slots) (deep : b.operands ≤ slots.length)
    (roomy : b.growth ≤ room) :
    ∃ cpu' slots', run cheri b.code cpu = some cpu' ∧
      Shuffled b cpu cpu' room slots slots' := by
  have length : (slots.take b.operands).length = b.operands :=
    List.length_take_of_le deep
  obtain ⟨temp, result, ran, prescribed⟩ :=
    template_run b (fun t => cpu.read t.register) length
  have whole := prescribed (slots.drop b.operands)
  rw [List.take_append_drop] at whole
  obtain ⟨cpu', executed, done⟩ :=
    (holds.represents deep).run laws (holds.area deep roomy) ran
  exact ⟨cpu', _, executed, holds.shuffled deep roomy whole done⟩

end Templates

/-- A stack of 64 KiB whose topmost slot is at 32 KiB. -/
def sampleStack : Cpu where
  reg := fun _ =>
    { tag := true
      base := 0
      length := 2 ^ 16
      address := 2 ^ 15
      perms := { swVmem := false, rest := 1 } }
  csp := Cap.null
  mem := fun a => Cap.ofInt a
  data := fun _ => 0
  flags := ⟨false, false, false, false⟩

def sampleSlots : List Cap :=
  [Cap.ofInt (2 ^ 15), Cap.ofInt (2 ^ 15 + 16), Cap.ofInt (2 ^ 15 + 32)]

theorem sampleStack_holds : Holds sampleStack 2 sampleSlots where
  stored := by
    apply stored_cons_iff.mpr
    refine ⟨rfl, stored_cons_iff.mpr ⟨rfl, stored_cons_iff.mpr ⟨rfl, .nil⟩⟩⟩
  tagged := by decide
  aligned := by decide
  lower := by decide
  upper := by decide
  word := by decide

theorem template_shuffles_dup2X1 :
    ∃ cpu' slots', run Intrinsics.exact Bytecode.dup2X1.code sampleStack =
        some cpu' ∧
      Shuffled .dup2X1 sampleStack cpu' 2 sampleSlots slots' :=
  template_shuffles Intrinsics.exact_laws .dup2X1 sampleStack_holds
    (by decide) (by decide)

end StackShuffle

end Morello

end StoplessGC
