import StoplessGC.ActivationCode

/-!
# Steps of an activation

What happens in an activation is a sequence of pieces of emitted code, with
other code in between of which only the effect on the activation is known: the
rest of the templates, the VM and the callees.  The VM and the callees may let
a collection replace words of the stack.

`Carries` is the invariant.  The code of the bytecodes and of the monitors keeps
it, and does to the list of slots what it should.
-/

namespace StoplessGC

namespace Morello

namespace Activations

open Interpreter (OnStack Phase)
open FixedFrame StoredList
open ExpressionStack (pushPtr popPtr)
open StackShuffle (Bytecode)

/-- What happens in an activation; `relocate` is what a collection makes of the
words on the stack. -/
inductive Op where
  | lockMethod
  | start
  | push (v : Cap)
  | pop (v : Cap)
  | shuffle (b : Bytecode)
  | monitorenter
  | other
  | callVm (relocate : Cap → Cap)
  | invoke (args : Nat) (relocate : Cap → Cap)
  | returnEntry (params : Nat)
  | deoptEntry
  | exceptionEntry (relocate : Cap → Cap)
  | popFrameEntry

def Op.relocate : Op → Cap → Cap
  | callVm relocate => relocate
  | invoke _ relocate => relocate
  | exceptionEntry relocate => relocate
  | _ => id

/-- What becomes of a word in a run, whose latest step comes first. -/
def relocated : List Op → Cap → Cap
  | [], v => v
  | op :: ops, v => op.relocate (relocated ops v)

/-- The expression stack as the bytecodes see it, the topmost slot first.  The
callee may overwrite its arguments. -/
inductive SlotStep (maxStack : Nat) :
    Phase → List Cap → Op → Phase → List Cap → Prop where
  | lockMethod : SlotStep maxStack .entered [] .lockMethod .entered []
  | start {slots : List Cap} :
      SlotStep maxStack .entered slots .start .running slots
  | push {slots : List Cap} (v : Cap) : slots.length < maxStack →
      SlotStep maxStack .running slots (.push v) .running (v :: slots)
  | pop {slots : List Cap} (v : Cap) :
      SlotStep maxStack .running (v :: slots) (.pop v) .running slots
  | shuffle {slots slots' : List Cap} (b : Bytecode) :
      b.prescribed slots = some slots' →
      slots.length + b.growth ≤ maxStack →
      SlotStep maxStack .running slots (.shuffle b) .running slots'
  | monitorenter {slots : List Cap} :
      SlotStep maxStack .running slots .monitorenter .running slots
  | other {phase : Phase} {slots : List Cap} : phase ≠ .calling →
      SlotStep maxStack phase slots .other phase slots
  | callVm {phase : Phase} {slots : List Cap} (relocate : Cap → Cap) :
      phase ≠ .calling →
      SlotStep maxStack phase slots (.callVm relocate) phase
        (slots.map relocate)
  | invoke {slots slots' : List Cap} (args : Nat) (relocate : Cap → Cap) :
      args ≤ slots.length → slots'.length = slots.length →
      slots'.drop args = (slots.drop args).map relocate →
      SlotStep maxStack .running slots (.invoke args relocate) .calling slots'
  | returnEntry {slots : List Cap} (params : Nat) : params ≤ slots.length →
      SlotStep maxStack .calling slots (.returnEntry params) .running
        (slots.drop params)
  | deoptEntry {slots : List Cap} :
      SlotStep maxStack .calling slots .deoptEntry .running slots
  | exceptionEntry {phase : Phase} {slots : List Cap}
      (relocate : Cap → Cap) :
      SlotStep maxStack phase slots (.exceptionEntry relocate) .running []
  | popFrameEntry {slots : List Cap} :
      SlotStep maxStack .calling slots .popFrameEntry .running slots

/-- A run of the expression stack; the latest step comes first. -/
inductive SlotRun (maxStack : Nat) : List Op → Phase → List Cap → Prop where
  | begin : SlotRun maxStack [] .entered []
  | step {ops : List Op} {op : Op} {phase phase' : Phase}
      {slots slots' : List Cap} :
      SlotRun maxStack ops phase slots →
      SlotStep maxStack phase slots op phase' slots' →
      SlotRun maxStack (op :: ops) phase' slots'

variable {world : World}

/-- What code outside of this model leaves of an activation: the bottom of the
expression stack, and the operands from `low` upward. -/
structure Leaves (site : Site world) (low : Nat) (relocate : Cap → Cap)
    (cpu cpu' : Cpu) : Prop extends Respects site relocate cpu cpu' where
  bottom : slot cpu' site.frame 0 = slot cpu site.frame 0
  operands : ∀ a, low ≤ a → a < (slot cpu site.frame 0).address →
    cpu'.mem a = relocate (cpu.mem a)

/-- The rest of a template.  It spares the operands from `low` upward, and
leaves the method in `rmethod`. -/
structure Rest (site : Site world) (low : Nat) (cpu cpu' : Cpu) : Prop extends
    Leaves site low id cpu cpu' where
  top : cpu'.read esp = cpu.read esp
  pointer : cpu'.read .sp = cpu.read .sp
  method : cpu'.read rmethod = site.method

/-- A call of the VM, which returns no more than the address of `esp`. -/
structure VmReturns (site : Site world) (relocate : Cap → Cap)
    (cpu cpu' : Cpu) : Prop extends
    Leaves site (cpu.read esp).address relocate cpu cpu' where
  top : (cpu'.read esp).address = (cpu.read esp).address
  pointer : cpu'.read .sp = cpu.read .sp

/-- A call of a method, from where the caller has saved `esp`. -/
structure CalleeReturns (site : Site world) (args : Nat)
    (relocate : Cap → Cap) (cpu cpu' : Cpu) : Prop extends
    Leaves site ((cpu.read esp).address + 16 * args) relocate cpu cpu' where
  lastSp : slot cpu' site.frame 8 = slot cpu site.frame 8
  pointer : OnStack world.stack (cpu'.read .sp)
  below : (cpu'.read .sp).address ≤ (cpu.read esp).address

/-- A step of an activation.  At most `max_stack` slots are used, and wherever
`csp` is lowered the stack has room. -/
inductive Step (cheri : Intrinsics) (site : Site world) :
    Phase → Cpu → Op → Phase → Cpu → Prop where
  | lockMethod {cpu cpu' : Cpu} :
      world.stack.cap.base + site.code.entrySize ≤ (cpu.read .sp).address →
      run cheri (addMonitor site.code.entrySize site.code.objOffset) cpu =
        some cpu' →
      Step cheri site .entered cpu .lockMethod .entered cpu'
  | start {cpu : Cpu} : Step cheri site .entered cpu .start .running cpu
  | push {cpu cpu' : Cpu} (r : Register) : r.IsGpr → r ≠ esp →
      (slot cpu site.frame 0).address <
        (cpu.read esp).address + 16 * site.code.maxStack →
      run cheri (pushPtr r) cpu = some cpu' →
      Step cheri site .running cpu (.push (cpu.read r)) .running cpu'
  | pop {cpu cpu' : Cpu} (r : Register) : r.IsGpr →
      r ∉ [esp, rmethod, rfp] →
      (cpu.read esp).address < (slot cpu site.frame 0).address →
      run cheri (popPtr r) cpu = some cpu' →
      Step cheri site .running cpu (.pop (cpu'.read r)) .running cpu'
  | shuffle {cpu cpu' : Cpu} (b : Bytecode) :
      (cpu.read esp).address + 16 * b.operands ≤
        (slot cpu site.frame 0).address →
      (slot cpu site.frame 0).address + 16 * b.growth ≤
        (cpu.read esp).address + 16 * site.code.maxStack →
      run cheri b.code cpu = some cpu' →
      Step cheri site .running cpu (.shuffle b) .running cpu'
  | freeEntry {cpu cpu' : Cpu} : OnStack world.stack (cpu.read r1) →
      (slot cpu site.frame 0).address ≤ (cpu.read r1).address →
      (cpu.read r1).address + site.code.entrySize ≤ site.frame.address →
      run cheri [storeObject site.code.objOffset] cpu = some cpu' →
      Step cheri site .running cpu .monitorenter .running cpu'
  | newEntry {cpu mid cpu' : Cpu} {moves fuel : Nat} :
      world.stack.cap.base + site.code.entrySize ≤ (cpu.read .sp).address →
      MonitorGrowth.growMonitors cheri site.code.entrySize fuel cpu =
        some (moves, mid) →
      run cheri [storeObject site.code.objOffset] mid = some cpu' →
      Step cheri site .running cpu .monitorenter .running cpu'
  | rest {phase : Phase} {cpu cpu' : Cpu} : phase ≠ .calling →
      Rest site (cpu.read esp).address cpu cpu' →
      Step cheri site phase cpu .other phase cpu'
  | callVm {phase : Phase} {relocate : Cap → Cap} {cpu mid cpu' : Cpu} :
      phase ≠ .calling → VmReturns site relocate cpu mid →
      run cheri afterVm mid = some cpu' →
      Step cheri site phase cpu (.callVm relocate) phase cpu'
  | invoke {args : Nat} {relocate : Cap → Cap} {cpu mid cpu' : Cpu} :
      (cpu.read esp).address + 16 * args ≤ (slot cpu site.frame 0).address →
      run cheri prepareToJump cpu = some mid →
      CalleeReturns site args relocate mid cpu' →
      Step cheri site .running cpu (.invoke args relocate) .calling cpu'
  | returnEntry {params : Nat} {cpu mid mid' cpu' : Cpu} :
      world.stack.cap.base + Interpreter.stackDelta site.code 2 ≤
        (slot cpu site.frame 0).address →
      (slot cpu site.frame 8).address + 16 * params ≤
        (slot cpu site.frame 0).address →
      run cheri restoreEsp cpu = some mid →
      Rest site (mid.read esp).address mid mid' →
      mid'.read r1 = Cap.ofInt params →
      run cheri (popParameters ++ rebuildCsp site.layout 2) mid' = some cpu' →
      Step cheri site .calling cpu (.returnEntry params) .running cpu'
  | deoptEntry {cpu mid cpu' : Cpu} :
      world.stack.cap.base + Interpreter.stackDelta site.code 2 ≤
        (slot cpu site.frame 0).address →
      Rest site (slot cpu site.frame 8).address cpu mid →
      slot mid site.frame 8 = slot cpu site.frame 8 →
      run cheri (rebuildCsp site.layout 2 ++ restoreEsp) mid = some cpu' →
      Step cheri site .calling cpu .deoptEntry .running cpu'
  | exceptionEntry {phase : Phase} {relocate : Cap → Cap}
      {cpu mid mid' cpu' : Cpu} :
      world.stack.cap.base + Interpreter.stackDelta site.code 4 ≤
        (slot cpu site.frame 0).address →
      run cheri emptyExpressionStack cpu = some mid →
      VmReturns site relocate mid mid' →
      run cheri (afterVm ++ rebuildCsp site.layout 4) mid' = some cpu' →
      Step cheri site phase cpu (.exceptionEntry relocate) .running cpu'
  | popFrameEntry {cpu mid mid' cpu' : Cpu} :
      world.stack.cap.base + Interpreter.stackDelta site.code 4 ≤
        (slot cpu site.frame 0).address →
      run cheri restoreEsp cpu = some mid →
      Rest site (mid.read esp).address mid mid' →
      run cheri (rebuildCsp site.layout 4) mid' = some cpu' →
      Step cheri site .calling cpu .popFrameEntry .running cpu'

/-- The activation of a method that is entered in the state `origin`. -/
def Site.entered (world : World) (code : Interpreter.Code) (layout : Layout)
    (found : Found) (callerStart : Nat) (origin : Cpu) : Site world where
  code := code
  layout := layout
  frame := FixedFrame.frame false origin
  constMethod := found.constMethod
  fixed := stored layout false found origin
  callerStart := callerStart

/-- A run of an activation; the latest step comes first. -/
inductive Run (cheri : Intrinsics) (site : Site world) (origin : Cpu) :
    List Op → Phase → Cpu → Prop where
  | begin {mdp : Option Cap} {cpu : Cpu} :
      generateFixedFrame cheri site.layout false mdp origin = some cpu →
      Run cheri site origin [] .entered cpu
  | step {ops : List Op} {op : Op} {phase phase' : Phase} {cpu cpu' : Cpu} :
      Run cheri site origin ops phase cpu →
      Step cheri site phase cpu op phase' cpu' →
      Run cheri site origin (op :: ops) phase' cpu'

/-- What a method finds when it is entered.  The stack overflow check has found
room. -/
structure Enters (world : World) (code : Interpreter.Code) (layout : Layout)
    (found : Found) (callerStart : Nat) (origin : Cpu) : Prop where
  ready : FixedFrame.Ready layout false found origin
  placed : (Site.entered world code layout found callerStart origin).Placed
  onStack : OnStack world.stack (origin.read .sp)
  room : world.stack.cap.base + 12 * Interpreter.wordSize +
    Interpreter.stackDelta code 2 ≤ (origin.read .sp).address
  metadata : ∀ a v, world.metadata a = some v → origin.mem a = v
  data : origin.data = world.data

/-- Each piece of emitted code that can be next runs to its end. -/
structure Completes (cheri : Intrinsics) (site : Site world) (phase : Phase)
    (cpu : Cpu) : Prop where
  lockMethod : phase = .entered →
    world.stack.cap.base + site.code.entrySize ≤ (cpu.read .sp).address →
    ∃ cpu', run cheri (addMonitor site.code.entrySize site.code.objOffset)
      cpu = some cpu'
  push : phase = .running → ∀ r, r.IsGpr → r ≠ esp →
    (slot cpu site.frame 0).address <
      (cpu.read esp).address + 16 * site.code.maxStack →
    ∃ cpu', run cheri (pushPtr r) cpu = some cpu'
  pop : phase = .running → ∀ r, r.IsGpr → r ∉ [esp, rmethod, rfp] →
    (cpu.read esp).address < (slot cpu site.frame 0).address →
    ∃ cpu', run cheri (popPtr r) cpu = some cpu'
  shuffle : phase = .running → ∀ b : Bytecode,
    (cpu.read esp).address + 16 * b.operands ≤
      (slot cpu site.frame 0).address →
    (slot cpu site.frame 0).address + 16 * b.growth ≤
      (cpu.read esp).address + 16 * site.code.maxStack →
    ∃ cpu', run cheri b.code cpu = some cpu'
  freeEntry : phase = .running → OnStack world.stack (cpu.read r1) →
    (slot cpu site.frame 0).address ≤ (cpu.read r1).address →
    (cpu.read r1).address + site.code.entrySize ≤ site.frame.address →
    ∃ cpu', run cheri [storeObject site.code.objOffset] cpu = some cpu'
  newEntry : phase = .running →
    world.stack.cap.base + site.code.entrySize ≤ (cpu.read .sp).address →
    ∃ moves mid cpu', (∀ fuel, moves < fuel →
        MonitorGrowth.growMonitors cheri site.code.entrySize fuel cpu =
          some (moves, mid)) ∧
      run cheri [storeObject site.code.objOffset] mid = some cpu'
  callVm : phase ≠ .calling → ∀ relocate mid,
    VmReturns site relocate cpu mid → ∃ cpu', run cheri afterVm mid = some cpu'
  invoke : phase = .running → ∃ mid, run cheri prepareToJump cpu = some mid
  returnEntry : phase = .calling →
    world.stack.cap.base + Interpreter.stackDelta site.code 2 ≤
      (slot cpu site.frame 0).address →
    ∃ mid, run cheri restoreEsp cpu = some mid ∧
      ∀ mid' params, Rest site (mid.read esp).address mid mid' →
        mid'.read r1 = Cap.ofInt params →
        (slot cpu site.frame 8).address + 16 * params ≤
          (slot cpu site.frame 0).address →
        ∃ cpu', run cheri (popParameters ++ rebuildCsp site.layout 2) mid' =
          some cpu'
  deoptEntry : phase = .calling →
    world.stack.cap.base + Interpreter.stackDelta site.code 2 ≤
      (slot cpu site.frame 0).address →
    ∀ mid, Rest site (slot cpu site.frame 8).address cpu mid →
      slot mid site.frame 8 = slot cpu site.frame 8 →
      ∃ cpu', run cheri (rebuildCsp site.layout 2 ++ restoreEsp) mid = some cpu'
  exceptionEntry :
    world.stack.cap.base + Interpreter.stackDelta site.code 4 ≤
      (slot cpu site.frame 0).address →
    ∃ mid, run cheri emptyExpressionStack cpu = some mid ∧
      ∀ relocate mid', VmReturns site relocate mid mid' →
        ∃ cpu', run cheri (afterVm ++ rebuildCsp site.layout 4) mid' =
          some cpu'
  popFrameEntry : phase = .calling →
    world.stack.cap.base + Interpreter.stackDelta site.code 4 ≤
      (slot cpu site.frame 0).address →
    ∃ mid, run cheri restoreEsp cpu = some mid ∧
      ∀ mid', Rest site (mid.read esp).address mid mid' →
        ∃ cpu', run cheri (rebuildCsp site.layout 4) mid' = some cpu'
  removeActivation : OnStack world.stack (site.fixed 9) →
    ∃ cpu', removeActivation cheri cpu = some cpu'

/-- From the jump of a caller to where the callee lays out its frame: the part
of the stack that the callee does not own is left alone. -/
structure Jumps (world : World) (calleeStart : Nat) (cpu cpu' : Cpu) :
    Prop where
  framePointer : cpu'.read rfp = cpu.read rfp
  sender : cpu'.read r13 = cpu.read r13
  caller : ∀ a, calleeStart ≤ a → a < world.top → cpu'.mem a = cpu.mem a

/-- The pointer to the topmost slot. -/
def top (site : Site world) (phase : Phase) (cpu : Cpu) : Cap :=
  if phase = .calling then slot cpu site.frame 8 else cpu.read esp

/-- The invariant of a run: the model of activations is sound for the machine,
and `slots` and `words` are what the machine holds on the expression stack and
above the activation. -/
structure Carries (site : Site world) (phase : Phase) (slots : List Cap)
    (words : Nat → Cap) (cpu : Cpu) : Prop where
  sound : Interpreter.Sound world.stack site.code phase
    (activation cpu site.frame)
  kept : Kept site cpu
  method : phase ≠ .calling → cpu.read rmethod = site.method
  pointer : OnStack world.stack (cpu.read .sp)
  below : (cpu.read .sp).address ≤ (top site phase cpu).address
  stored : Stored cpu.mem 16 (top site phase cpu).address slots
  bottom : (top site phase cpu).address + 16 * slots.length =
    (slot cpu site.frame 0).address
  caller : ∀ a, site.callerStart ≤ a → a < world.top → cpu.mem a = words a

/-- The operands are in place, while `csp` may be anywhere below. -/
structure Holds (site : Site world) (slots : List Cap) (words : Nat → Cap)
    (cpu : Cpu) : Prop where
  kept : Kept site cpu
  base : OnStack world.stack (slot cpu site.frame 0)
  entries : ∃ k, (slot cpu site.frame 0).address + k * site.code.entrySize =
    site.frame.address
  pointer : OnStack world.stack (cpu.read .sp)
  onStack : OnStack world.stack (cpu.read esp)
  below : (cpu.read .sp).address ≤ (cpu.read esp).address
  few : slots.length ≤ site.code.maxStack
  stored : Stored cpu.mem 16 (cpu.read esp).address slots
  bottom : (cpu.read esp).address + 16 * slots.length =
    (slot cpu site.frame 0).address
  caller : ∀ a, site.callerStart ≤ a → a < world.top → cpu.mem a = words a

section Invariant

variable {cheri : Intrinsics} {site : Site world} {phase : Phase}
  {slots : List Cap} {words : Nat → Cap} {cpu cpu' : Cpu}

theorem top_of_ne (here : phase ≠ .calling) :
    top site phase cpu = cpu.read esp := if_neg here

theorem top_calling : top site .calling cpu = slot cpu site.frame 8 := if_pos rfl

/-- Only the pointers matter, and the slot for the last `sp` only in calls. -/
theorem sound_of_pointers {stack : Interpreter.Stack} {code : Interpreter.Code}
    {f g : Interpreter.Activation} (sound : Interpreter.Sound stack code phase f)
    (csp : g.csp = f.csp) (esp : g.esp = f.esp)
    (initialSp : g.initialSp = f.initialSp)
    (initialSpSlot : g.initialSpSlot = f.initialSpSlot)
    (lastSp : phase = .calling → g.lastSp = f.lastSp) :
    Interpreter.Sound stack code phase g := by
  obtain ⟨bottom, entries, operands, empty, saved, pointer, below⟩ := sound
  have operand : ∀ c, Interpreter.Operand stack code f c →
      Interpreter.Operand stack code g c := by
    rintro c ⟨onStack, d, few, depth⟩
    exact ⟨onStack, d, few, by rw [depth, initialSp]⟩
  constructor
  · rwa [initialSp]
  · rwa [initialSp, initialSpSlot]
  · intro here
    rw [esp]
    exact operand _ (operands here)
  · intro entered
    rw [esp, initialSp]
    exact empty entered
  · intro calling
    rw [lastSp calling]
    exact operand _ (saved calling)
  · intro here
    rw [csp]
    exact pointer here
  · intro here
    rw [csp, initialSp]
    exact below here

theorem sound_of_operand {stack : Interpreter.Stack} {code : Interpreter.Code}
    {f g : Interpreter.Activation}
    (sound : Interpreter.Sound stack code .running f) (csp : g.csp = f.csp)
    (initialSp : g.initialSp = f.initialSp)
    (initialSpSlot : g.initialSpSlot = f.initialSpSlot)
    (operand : Interpreter.Operand stack code f g.esp) :
    Interpreter.Sound stack code .running g :=
  sound_of_pointers
    { sound with operands := fun _ => operand, empty := by simp }
    (f := { f with esp := g.esp }) csp rfl initialSp initialSpSlot (by simp)

namespace Carries

theorem operand (carries : Carries site phase slots words cpu) :
    Interpreter.Operand world.stack site.code (activation cpu site.frame)
      (top site phase cpu) := by
  by_cases calling : phase = .calling
  · rw [calling, top_calling]
    exact carries.sound.saved calling
  · rw [top_of_ne calling]
    exact carries.sound.operands calling

theorem onStack (carries : Carries site phase slots words cpu) :
    OnStack world.stack (top site phase cpu) := carries.operand.1

theorem length_le (carries : Carries site phase slots words cpu) :
    slots.length ≤ site.code.maxStack := by
  obtain ⟨-, d, few, depth⟩ := carries.operand
  have bottom := carries.bottom
  change _ + d * 16 = (slot cpu site.frame 0).address at depth
  omega

theorem bottom_le (carries : Carries site phase slots words cpu) :
    (slot cpu site.frame 0).address ≤ site.frame.address := by
  obtain ⟨k, entries⟩ := carries.sound.entries
  change (slot cpu site.frame 0).address + k * site.code.entrySize =
    site.frame.address at entries
  omega

theorem holds (here : phase ≠ .calling)
    (carries : Carries site phase slots words cpu) :
    Holds site slots words cpu := by
  have onStack := carries.onStack
  have below := carries.below
  have stored := carries.stored
  have bottom := carries.bottom
  rw [top_of_ne here] at onStack below stored bottom
  exact ⟨carries.kept, carries.sound.bottom, carries.sound.entries,
    carries.pointer, onStack, below, carries.length_le, stored, bottom,
    carries.caller⟩

/-- There is room below the bottom for all operands that the method may have. -/
theorem lower (carries : Carries site phase slots words cpu)
    (here : phase ≠ .calling) :
    world.stack.cap.base + 16 * site.code.maxStack + site.code.entrySize + 32 ≤
      (slot cpu site.frame 0).address := by
  have pointer := (carries.sound.pointer here).lower
  have below := carries.sound.below here
  have parts := Interpreter.entrySize_le_stackDelta site.code 2
  have word : Interpreter.wordSize = 16 := rfl
  change world.stack.cap.base ≤ (cpu.read .sp).address at pointer
  change (cpu.read .sp).address + _ ≤ (slot cpu site.frame 0).address at below
  rw [word] at parts
  omega

theorem stored_setMem (carries : Carries site phase slots words cpu) {a : Nat}
    (outside : a < (top site phase cpu).address ∨
      (slot cpu site.frame 0).address ≤ a) (v : Cap) :
    Stored (Function.update cpu.mem a v) 16 (top site phase cpu).address
      slots := by
  have bottom := carries.bottom
  exact carries.stored.update_outside (by omega) (by decide) v

end Carries

theorem Leaves.stored {low : Nat} {relocate : Cap → Cap}
    (leaves : Leaves site low relocate cpu cpu') {a : Nat}
    (stored : Stored cpu.mem 16 a slots) (lower : low ≤ a)
    (upper : a + 16 * slots.length = (slot cpu site.frame 0).address) :
    Stored cpu'.mem 16 a (slots.map relocate) := by
  intro i x found
  rw [List.getElem?_map] at found
  obtain ⟨y, present, rfl⟩ := Option.map_eq_some_iff.mp found
  obtain ⟨inside, -⟩ := List.getElem?_eq_some_iff.mp present
  rw [leaves.operands _ (by omega) (by omega), stored i y present]

theorem Respects.callerWords {relocate : Cap → Cap}
    (respects : Respects site relocate cpu cpu')
    (carries : Carries site phase slots words cpu) {a : Nat}
    (lower : site.callerStart ≤ a) (upper : a < world.top) :
    cpu'.mem a = relocate (words a) := by
  rw [respects.caller a lower upper, carries.caller a lower upper]

end Invariant

section Pieces

variable {cheri : Intrinsics} {site : Site world} {phase phase' : Phase}
  {slots slots' : List Cap} {words words' : Nat → Cap} {cpu cpu' : Cpu}

/-- Outside of calls the place of `csp` is part of the soundness. -/
theorem Carries.intro (here : phase' ≠ .calling)
    (sound : Interpreter.Sound world.stack site.code phase'
      (activation cpu' site.frame))
    (kept : Kept site cpu') (method : cpu'.read rmethod = site.method)
    (stored : Stored cpu'.mem 16 (cpu'.read esp).address slots')
    (bottom : (cpu'.read esp).address + 16 * slots'.length =
      (slot cpu' site.frame 0).address)
    (caller : ∀ a, site.callerStart ≤ a → a < world.top →
      cpu'.mem a = words a) :
    Carries site phase' slots' words cpu' := by
  have newTop : top site phase' cpu' = cpu'.read esp := top_of_ne here
  have room := (sound.room here).2
  change (cpu'.read .sp).address + _ + _ ≤ (cpu'.read esp).address at room
  refine ⟨sound, kept, fun _ => method, sound.pointer here, ?_, ?_, ?_, caller⟩
  · rw [newTop]
    omega
  · rwa [newTop]
  · rwa [newTop]

theorem Carries.start (carries : Carries site .entered slots words cpu) :
    Carries site .running slots words cpu := by
  have here : Phase.entered ≠ .calling := by simp
  have sound := carries.sound
  exact
    { carries with
      sound :=
        { sound with
          operands := fun _ => sound.operands here
          empty := by simp
          saved := by simp
          pointer := fun _ => sound.pointer here
          below := fun _ => sound.below here }
      method := fun _ => carries.method here }

theorem Carries.push (laws : cheri.Laws) (placed : site.Placed)
    (carries : Carries site .running slots words cpu) {r : Register}
    (gpr : r.IsGpr) (other : r ≠ esp)
    (room : (slot cpu site.frame 0).address <
      (cpu.read esp).address + 16 * site.code.maxStack) :
    ∃ cpu', run cheri (pushPtr r) cpu = some cpu' ∧
      Carries site .running (cpu.read r :: slots) words cpu' := by
  have here : Phase.running ≠ .calling := by simp
  have lower := carries.lower here
  have above := carries.bottom_le
  have frameAbove := placed.above
  have inside := placed.inside
  have bottom := carries.bottom
  rw [top_of_ne here] at bottom
  have deep : (slot cpu site.frame 0).address < (cpu.read esp).address +
      site.code.maxStack * 16 := by omega
  have pushed := carries.sound.push laws deep (.value (cpu.read r))
  obtain ⟨onStack, address⟩ := (carries.sound.operands here).1.sub laws
    (n := 16) (by decide : Interpreter.wordSize ∣ 16)
    (by change _ ≤ (cpu.read esp).address; omega)
  have moved : Interpreter.capSub cheri (cpu.read esp) 16 =
      moveBy cheri (cpu.read esp) (-16) := capSub_eq_moveBy _ (by decide)
  generalize lowered : Interpreter.capSub cheri (cpu.read esp) 16 = e at moved
  change OnStack world.stack (Interpreter.capSub cheri (cpu.read esp) 16)
    at onStack
  change (Interpreter.capSub cheri (cpu.read esp) 16).address =
    (cpu.read esp).address - 16 at address
  rw [lowered] at onStack address
  have subtracted : (Code.emit (capSubImm esp esp 16)).exec cheri cpu =
      some (cpu.write esp e) := by
    rw [moved]
    exact exec_capSubImm cpu (by simp) (by simp) 16
  have reaches : Reaches ((cpu.write esp e).read esp) 0 := by
    rw [Cpu.read_write_self _ _ (by simp)]
    exact reaches_of_onStack onStack (by omega) (by decide)
  have written : (Code.emit (capStrImm r esp 0)).exec cheri
      (cpu.write esp e) = _ :=
    exec_capStrImm_here _ gpr (Register.isGpr_c 20) reaches
  rw [Cpu.read_write_self _ _ (by simp), Cpu.read_write_of_ne _ _ other]
    at written
  refine ⟨_, (run_cons subtracted _).trans (run_cons written []), ?_⟩
  have respects : Respects site id cpu
      ((cpu.write esp e).setMem e.address (cpu.read r)) :=
    (Respects.refl.write (by simp) e).setMem placed onStack.lower
      (.inl (by omega)) _
  have bottomSlot : slot ((cpu.write esp e).setMem e.address (cpu.read r))
      site.frame 0 = slot cpu site.frame 0 := by
    rw [slot, Cpu.setMem_mem, Function.update_of_ne (by omega), Cpu.write_mem,
      slot]
  have newTop : ((cpu.write esp e).setMem e.address (cpu.read r)).read esp =
      e := by
    rw [Cpu.read_setMem, Cpu.read_write_self _ _ (by simp)]
  apply Carries.intro here
  · apply sound_of_pointers pushed
    · change Cpu.read _ .sp = cpu.read .sp
      simp
    · exact newTop.trans lowered.symm
    · exact bottomSlot
    · rfl
    · simp
  · exact respects.kept carries.kept
  · rw [← carries.method here]
    simp
  · rw [newTop]
    refine stored_cons_iff.mpr ⟨Function.update_self .., ?_⟩
    have old : e.address + 16 = (cpu.read esp).address := by omega
    have kept := carries.stored_setMem (a := e.address) (.inl (by
      rw [top_of_ne here]; omega)) (cpu.read r)
    rw [top_of_ne here, ← old] at kept
    simpa using kept
  · rw [newTop, bottomSlot, List.length_cons]
    omega
  · exact fun a lower upper => respects.callerWords carries lower upper

theorem Carries.pop (laws : cheri.Laws) (placed : site.Placed)
    (carries : Carries site .running slots words cpu) {r : Register}
    (gpr : r.IsGpr) (other : r ∉ [esp, rmethod, rfp])
    (more : (cpu.read esp).address < (slot cpu site.frame 0).address) :
    ∃ cpu' rest, run cheri (popPtr r) cpu = some cpu' ∧
      slots = cpu'.read r :: rest ∧
      Carries site .running rest words cpu' := by
  have here : Phase.running ≠ .calling := by simp
  simp only [List.mem_cons, List.not_mem_nil, or_false, not_or] at other
  obtain ⟨notEsp, notMethod, notFrame⟩ := other
  have notSp : r ≠ .sp := gpr.ne_sp
  have above := carries.bottom_le
  have frameAbove := placed.above
  have inside := placed.inside
  have bottom := carries.bottom
  have stored := carries.stored
  have onStack := carries.onStack
  rw [top_of_ne here] at bottom stored onStack
  have aligned := onStack.aligned
  have bottomAligned : 16 ∣ (slot cpu site.frame 0).address :=
    carries.sound.bottom.aligned
  change 16 ∣ _ at aligned
  cases slots with
  | nil =>
      rw [List.length_nil] at bottom
      omega
  | cons v rest =>
      rw [List.length_cons] at bottom
      obtain ⟨first, others⟩ := stored_cons_iff.mp stored
      have popped := carries.sound.pop laws more
      obtain ⟨raised, address⟩ := onStack.add laws (n := 16)
        (by decide : Interpreter.wordSize ∣ 16)
        (by rw [World.top] at inside; omega)
      have reaches : Reaches (cpu.read esp) 0 :=
        reaches_of_onStack onStack (by omega) (by decide)
      have loaded : (Code.emit (capLdrImm r esp 0)).exec cheri cpu = _ :=
        exec_capLdrImm_here cpu gpr (Register.isGpr_c 20) reaches
      rw [first] at loaded
      have added : (Code.emit (capAddImm esp esp 16)).exec cheri
          (cpu.write r v) = some ((cpu.write r v).write esp
            (Interpreter.capAdd cheri (cpu.read esp) 16)) := by
        rw [capAdd_eq_moveBy,
          ← Cpu.read_write_of_ne cpu v (Ne.symm notEsp)]
        exact exec_capAddImm (cpu.write r v) (by simp) (by simp) 16
      change Interpreter.Sound world.stack site.code .running
        (Interpreter.pop cheri (activation cpu site.frame)) at popped
      change (Interpreter.capAdd cheri (cpu.read esp) 16).address =
        (cpu.read esp).address + 16 at address
      generalize sum : Interpreter.capAdd cheri (cpu.read esp) 16 = e
        at added address
      have newTop : ((cpu.write r v).write esp e).read esp = e :=
        Cpu.read_write_self _ _ (by simp)
      have others' : ∀ s, s ≠ esp → s ≠ r →
          ((cpu.write r v).write esp e).read s = cpu.read s := by
        intro s notTop notTarget
        rw [Cpu.read_write_of_ne _ _ notTop, Cpu.read_write_of_ne _ _ notTarget]
      have bottomSlot : slot ((cpu.write r v).write esp e) site.frame 0 =
          slot cpu site.frame 0 := by
        rw [slot_write, slot_write]
      have respects : Respects site id cpu ((cpu.write r v).write esp e) :=
        (Respects.refl.write notFrame v).write (by simp) e
      refine ⟨_, rest, (run_cons loaded _).trans (run_cons added []), ?_, ?_⟩
      · rw [Cpu.read_write_of_ne _ _ notEsp, Cpu.read_write_self _ _ gpr.ne_zr]
      apply Carries.intro here
      · apply sound_of_pointers popped
        · exact others' .sp (by simp) notSp.symm
        · exact newTop.trans sum.symm
        · exact bottomSlot
        · rfl
        · simp
      · exact respects.kept carries.kept
      · rw [others' _ (by simp) (Ne.symm notMethod), carries.method here]
      · rw [newTop, address, Cpu.write_mem, Cpu.write_mem]
        exact others
      · rw [newTop, address, bottomSlot]
        omega
      · exact fun a lower upper => respects.callerWords carries lower upper

theorem Carries.shuffleHolds (placed : site.Placed)
    (carries : Carries site .running slots words cpu) :
    StackShuffle.Holds cpu (site.code.maxStack - slots.length) slots := by
  have here : Phase.running ≠ .calling := by simp
  have lower := carries.lower here
  have few := carries.length_le
  have bottom := carries.bottom
  have stored := carries.stored
  have onStack := carries.onStack
  rw [top_of_ne here] at bottom stored onStack
  have base := base_of_onStack onStack
  have end_ := top_of_onStack onStack
  have frameAbove := placed.above
  have inside := placed.inside
  have word := word_of_onStack carries.sound.bottom
  change (slot cpu site.frame 0).address < _ at word
  have above := carries.bottom_le
  refine ⟨stored, onStack.tag, onStack.aligned, ?_, ?_, ?_⟩
  · change (cpu.read esp).base + _ ≤ (cpu.read esp).address
    omega
  · change (cpu.read esp).address + _ ≤
      (cpu.read esp).base + (cpu.read esp).length
    omega
  · change (cpu.read esp).address + _ < _
    omega

theorem Carries.shuffle (laws : cheri.Laws) (placed : site.Placed)
    (carries : Carries site .running slots words cpu) {b : Bytecode}
    (deep : (cpu.read esp).address + 16 * b.operands ≤
      (slot cpu site.frame 0).address)
    (roomy : (slot cpu site.frame 0).address + 16 * b.growth ≤
      (cpu.read esp).address + 16 * site.code.maxStack) :
    ∃ cpu' slots', run cheri b.code cpu = some cpu' ∧
      b.prescribed slots = some slots' ∧
      slots.length + b.growth ≤ site.code.maxStack ∧
      Carries site .running slots' words cpu' := by
  have here : Phase.running ≠ .calling := by simp
  have lower := carries.lower here
  have above := carries.bottom_le
  have frameAbove := placed.above
  have inside := placed.inside
  have bottom := carries.bottom
  have onStack := carries.onStack
  rw [top_of_ne here] at bottom onStack
  have holds := carries.shuffleHolds placed
  have enough : b.operands ≤ slots.length := by omega
  have room : b.growth ≤ site.code.maxStack - slots.length := by omega
  obtain ⟨temp, result, ran, prescribed⟩ :=
    StackShuffle.template_run b (fun t => cpu.read t.register)
      (List.length_take_of_le enough)
  have whole := prescribed (slots.drop b.operands)
  rw [List.take_append_drop] at whole
  obtain ⟨cpu', executed, done⟩ :=
    (holds.represents enough).run laws (holds.area enough room) ran
  have shuffled := holds.shuffled enough room whole done
  have fits : result.length ≤ b.operands + b.growth := done.fits
  generalize final : result ++ slots.drop b.operands = slots'
    at whole shuffled
  have length : slots'.length = result.length +
      (slots.length - b.operands) := by
    rw [← final, List.length_append, List.length_drop]
  have same : ∀ r, r ∈ [rmethod, rfp, .sp] → cpu'.read r = cpu.read r := by
    intro r member
    simp only [List.mem_cons, List.not_mem_nil, or_false] at member
    refine done.kept r ?_ fun t => ?_
    · rcases member with rfl | rfl | rfl <;> decide
    · rcases member with rfl | rfl | rfl <;> cases t <;> decide
  have top := shuffled.top
  have newStored := shuffled.holds.stored
  change cpu'.read esp = (cpu.read esp).withAddress ((cpu.read esp).address +
    16 * slots.length - 16 * slots'.length) at top
  have high : ∀ a, (slot cpu site.frame 0).address ≤ a →
      cpu'.mem a = cpu.mem a := by
    intro a far
    exact shuffled.below a (by
      change (cpu.read esp).address + _ ≤ a
      omega)
  have bottomSlot : slot cpu' site.frame 0 = slot cpu site.frame 0 :=
    high _ (by omega)
  have respects : Respects site id cpu cpu' := by
    refine .ofFrame placed (same _ (by simp)) (run_data executed) ?_
      (fun a far => high a (by omega))
    intro a low
    exact shuffled.above a (by
      change a + _ < (cpu.read esp).address
      omega)
  refine ⟨cpu', slots', executed, whole, by omega, ?_⟩
  apply Carries.intro here
  · apply sound_of_operand (g := activation cpu' site.frame) carries.sound
      (same .sp (by simp)) bottomSlot rfl
    change Interpreter.Operand world.stack site.code
      (activation cpu site.frame) (cpu'.read esp)
    rw [top]
    refine ⟨onStack_withAddress onStack (by omega) (by omega) ?_,
      slots'.length, by omega, ?_⟩
    · have aligned := carries.sound.bottom.aligned
      change 16 ∣ (slot cpu site.frame 0).address at aligned
      omega
    · change _ + slots'.length * 16 = (slot cpu site.frame 0).address
      rw [Cap.withAddress_address]
      omega
  · exact respects.kept carries.kept
  · rw [same _ (by simp), carries.method here]
  · exact newStored
  · rw [top, bottomSlot, Cap.withAddress_address]
    omega
  · exact fun a lower upper => respects.callerWords carries lower upper

theorem Carries.objectStored (placed : site.Placed)
    (carries : Carries site .running slots words cpu)
    (onStack : OnStack world.stack (cpu.read r1))
    (lower : (slot cpu site.frame 0).address ≤ (cpu.read r1).address)
    (upper : (cpu.read r1).address + site.code.entrySize ≤
      site.frame.address) :
    ∃ cpu', run cheri [storeObject site.code.objOffset] cpu = some cpu' ∧
      Carries site .running slots words cpu' := by
  have here : Phase.running ≠ .calling := by simp
  have frameAbove := placed.above
  have inside := placed.inside
  have bottom := carries.bottom
  have inEntry := site.code.objInEntry
  have entry : site.code.entrySize = site.code.monitorSize * 16 := rfl
  have word : Interpreter.wordSize = 16 := rfl
  have entrySmall := placed.entrySmall
  have objAligned := placed.objAligned
  rw [word] at inEntry
  have stackLower := onStack.lower
  have reaches : Reaches (cpu.read r1) site.code.objOffset :=
    reaches_of_onStack onStack (by omega) placed.objAligned
  have written : (storeObject site.code.objOffset).exec cheri cpu =
      some (cpu.setMem ((cpu.read r1).address + site.code.objOffset)
        (cpu.read r0)) :=
    exec_capStrImm_slot cpu (Register.isGpr_c 0) (Register.isGpr_c 1)
      ((memOffset_eq_iff _).mpr (.inl ⟨by omega, by omega, by omega⟩)) reaches
  generalize place : (cpu.read r1).address + site.code.objOffset = a at written
  refine ⟨_, run_cons written [], ?_⟩
  have respects : Respects site id cpu (cpu.setMem a (cpu.read r0)) :=
    Respects.refl.setMem placed (by omega) (.inl (by omega)) _
  have bottomSlot : slot (cpu.setMem a (cpu.read r0)) site.frame 0 =
      slot cpu site.frame 0 := by
    rw [slot, Cpu.setMem_mem, Function.update_of_ne (by omega), slot]
  have kept := carries.stored_setMem (a := a) (.inr (by omega)) (cpu.read r0)
  have same := Cpu.read_setMem cpu (cpu.read r0) a
  rw [top_of_ne here] at bottom kept
  apply Carries.intro here
  · exact sound_of_pointers (g := activation _ site.frame) carries.sound
      (same .sp) (same esp) bottomSlot rfl (by simp)
  · exact respects.kept carries.kept
  · rw [same, carries.method here]
  · rw [same]
    exact kept
  · rw [same, bottomSlot]
    exact bottom
  · exact fun a lower upper => respects.callerWords carries lower upper

theorem Carries.methodLocked (laws : cheri.Laws) (placed : site.Placed)
    (carries : Carries site .entered slots words cpu)
    (fits : world.stack.cap.base + site.code.entrySize ≤
      (cpu.read .sp).address) :
    ∃ cpu', run cheri (addMonitor site.code.entrySize site.code.objOffset)
        cpu = some cpu' ∧ slots = [] ∧ Carries site .entered [] words cpu' := by
  have here : Phase.entered ≠ .calling := by simp
  have above := carries.bottom_le
  have frameAbove := placed.above
  have inside := placed.inside
  have bottom := carries.bottom
  have inEntry := site.code.objInEntry
  have entry : site.code.entrySize = site.code.monitorSize * 16 := rfl
  have word : Interpreter.wordSize = 16 := rfl
  have room := (carries.sound.room here).1
  change _ ≤ (cpu.read esp).address at room
  rw [word] at inEntry room
  have empty : cpu.read esp = slot cpu site.frame 0 := carries.sound.empty rfl
  rw [top_of_ne here, ← empty] at bottom
  rw [← empty] at above
  have locked := carries.sound.lockMethod laws fits (cpu.read r0)
  obtain ⟨onStack, address⟩ := (carries.sound.operands here).1.sub laws
    (Interpreter.wordSize_dvd_entrySize site.code) (by
      change _ ≤ (cpu.read esp).address
      omega)
  change OnStack world.stack
    (Interpreter.capSub cheri (cpu.read esp) site.code.entrySize) at onStack
  change (Interpreter.capSub cheri (cpu.read esp) site.code.entrySize).address =
    (cpu.read esp).address - site.code.entrySize at address
  have lower := onStack.lower
  have reaches : Reaches
      (Interpreter.capSub cheri (cpu.read esp) site.code.entrySize)
        site.code.objOffset :=
    reaches_of_onStack onStack (by omega) placed.objAligned
  have ran := run_addMonitor placed carries.kept reaches
  refine ⟨_, ran, List.eq_nil_of_length_eq_zero (by omega), ?_⟩
  have csp : (monitorAdded cheri site cpu).read .sp =
      Interpreter.capSub cheri (cpu.read .sp) site.code.entrySize := by
    simp [monitorAdded]
  have newTop : (monitorAdded cheri site cpu).read esp =
      Interpreter.capSub cheri (cpu.read esp) site.code.entrySize := by
    simp [monitorAdded]
  have bottomSlot : slot (monitorAdded cheri site cpu) site.frame 0 =
      Interpreter.capSub cheri (cpu.read esp) site.code.entrySize := by
    rw [monitorAdded, slot, Cpu.setMem_mem, Function.update_of_ne (by omega),
      Cpu.setMem_mem, Function.update_self]
  have respects : Respects site id cpu (monitorAdded cheri site cpu) :=
    (((((Respects.refl.write (by simp) _).write (by simp) _).write
      (by simp) _).setMem placed (by omega) (.inl (by omega)) _).setMem placed
        (by omega) (.inl (by omega)) _)
  apply Carries.intro here
  · exact sound_of_pointers (g := activation _ site.frame) locked csp newTop
      bottomSlot rfl (by simp)
  · exact respects.kept carries.kept
  · rw [← carries.method here]
    simp [monitorAdded]
  · exact .nil
  · rw [newTop, bottomSlot]
    rfl
  · exact fun a lower upper => respects.callerWords carries lower upper

theorem Carries.initialSpSlot (carries : Carries site phase slots words cpu) :
    MonitorGrowth.initialSpSlot cpu = site.frame.address := by
  have framePointer : (cpu.read rfp).address = site.frame.address + 16 * 10 :=
    congrArg Cap.address carries.kept.framePointer
  change (cpu.read rfp).address - 10 * 16 = site.frame.address
  omega

theorem Carries.initialSp (carries : Carries site phase slots words cpu) :
    MonitorGrowth.initialSp cpu = slot cpu site.frame 0 := by
  rw [MonitorGrowth.initialSp, carries.initialSpSlot, slot, Nat.mul_zero,
    Nat.add_zero]

theorem lowers_of_onStack {c : Cap} (onStack : OnStack world.stack c)
    (room : world.stack.cap.base + site.code.entrySize ≤ c.address) :
    MonitorGrowth.Lowers c site.code.entrySize := by
  have base := base_of_onStack onStack
  have end_ := top_of_onStack onStack
  have upper := onStack.upper
  rw [World.top] at end_
  exact ⟨by omega, by omega, word_of_onStack onStack⟩

theorem Carries.growReady (placed : site.Placed)
    (carries : Carries site .running slots words cpu)
    (fits : world.stack.cap.base + site.code.entrySize ≤
      (cpu.read .sp).address) :
    MonitorGrowth.Ready cpu site.code.entrySize slots := by
  have here : Phase.running ≠ .calling := by simp
  obtain ⟨-, bottomOnStack, -, pointer, onStack, -, -, stored, bottom, -⟩ :=
    carries.holds here
  have lower := carries.lower here
  have above := carries.bottom_le
  have frameAbove := placed.above
  have inside := placed.inside
  have end_ := top_of_onStack onStack
  have inSpace := world.stack.inSpace
  have inEntry := Interpreter.entrySize_pos site.code
  have word : Interpreter.wordSize = 16 := rfl
  have slotsAligned := Interpreter.wordSize_dvd_entrySize site.code
  have room := (carries.sound.room here).1
  change _ ≤ (cpu.read esp).address at room
  rw [word] at inEntry slotsAligned room
  have initial := carries.initialSp
  have place := carries.initialSpSlot
  have framePointer : (cpu.read rfp).address = site.frame.address + 16 * 10 :=
    congrArg Cap.address carries.kept.framePointer
  rw [World.top] at inside end_
  constructor
  · exact ⟨by omega, slotsAligned, placed.entrySmall⟩
  · exact stored
  · rw [initial]
    exact bottom.symm
  · exact onStack.tag
  · exact onStack.aligned
  · change (cpu.read esp).address + _ ≤
      (cpu.read esp).base + (cpu.read esp).length
    omega
  · exact lowers_of_onStack onStack (by
      change _ ≤ (cpu.read esp).address
      omega)
  · rw [initial]
    exact lowers_of_onStack bottomOnStack (by omega)
  · exact lowers_of_onStack pointer fits
  · change 10 * 16 ≤ (cpu.read rfp).address
    omega
  · change (cpu.read rfp).address < _
    omega
  · rw [place]
    exact (carries.kept.slotAt placed (k := 0) (by decide)).2
  · rw [place, initial]
    exact .inr above

/-- The state after `monitorenter` has found no free entry, in which `c_rarg1`
is the new one. -/
theorem Carries.monitorsGrown (laws : cheri.Laws) (placed : site.Placed)
    (carries : Carries site .running slots words cpu)
    (fits : world.stack.cap.base + site.code.entrySize ≤
      (cpu.read .sp).address) :
    ∃ cpu', (∀ fuel, slots.length < fuel →
        MonitorGrowth.growMonitors cheri site.code.entrySize fuel cpu =
          some (slots.length, cpu')) ∧
      Carries site .running slots words cpu' ∧
      OnStack world.stack (cpu'.read r1) ∧
      (slot cpu' site.frame 0).address = (cpu'.read r1).address ∧
      (cpu'.read r1).address + site.code.entrySize ≤ site.frame.address := by
  have here : Phase.running ≠ .calling := by simp
  have lower := carries.lower here
  have above := carries.bottom_le
  have frameAbove := placed.above
  have inside := placed.inside
  have bottom := (carries.holds here).bottom
  have onStack := (carries.holds here).onStack
  have inEntry := Interpreter.entrySize_pos site.code
  have word : Interpreter.wordSize = 16 := rfl
  rw [word] at inEntry
  have room := (carries.sound.room here).1
  change _ ≤ (cpu.read esp).address at room
  have initial := carries.initialSp
  have place := carries.initialSpSlot
  have ready := carries.growReady placed fits
  obtain ⟨cpu', grows, copied⟩ := MonitorGrowth.growMonitors_copies laws ready
  have grown := grows (slots.length + 1) (Nat.lt_succ_self _)
  obtain ⟨espMoved, bottomMoved, cspMoved, operands, entry, fresh, frame⟩ :=
    ready.grown copied
  have others : ∀ r, r ∈ [rmethod, rfp] → cpu'.read r = cpu.read r := by
    intro r member
    simp only [List.mem_cons, List.not_mem_nil, or_false] at member
    rcases member with rfl | rfl
    · rw [copied.read _ (by simp) (by simp)]
      simp [MonitorGrowth.pointersMoved]
    · rw [copied.read _ (by simp) (by simp)]
      simp [MonitorGrowth.pointersMoved]
  rw [initial] at bottomMoved entry fresh
  rw [place] at bottomMoved frame
  have bottomSlot : slot cpu' site.frame 0 =
      MonitorGrowth.lowered site.code.entrySize (slot cpu site.frame 0) := by
    rw [← bottomMoved, slot, Nat.mul_zero, Nat.add_zero]
  have lowered := fun {c : Cap} (on : OnStack world.stack c)
      (enough : world.stack.cap.base + site.code.entrySize ≤ c.address) =>
    capSub_eq_lowered laws placed.entrySmall (lowers_of_onStack on enough)
  have bottomLowered := lowered carries.sound.bottom (by
    change _ ≤ (slot cpu site.frame 0).address
    omega)
  have sound := carries.sound.lowered laws here fits
    (activation cpu' site.frame).mem
  have high : ∀ a, site.frame.address < a → cpu'.mem a = cpu.mem a := by
    intro a far
    exact frame a (by omega) (.inr (by
      rw [entry, MonitorGrowth.lowered_address]
      omega))
  have espAddress : (cpu'.read esp).address =
      (cpu.read esp).address - site.code.entrySize :=
    congrArg Cap.address espMoved
  have respects : Respects site id cpu cpu' := by
    refine .ofFrame placed (others _ (by simp)) (growMonitors_data grown) ?_ high
    intro a low
    exact frame a (by omega) (.inl (by
      change a < (cpu'.read esp).address
      omega))
  have carries' : Carries site .running slots words cpu' := by
    apply Carries.intro here
    · refine sound_of_pointers (g := activation cpu' site.frame) sound ?_ ?_ ?_
        rfl (by simp)
      · exact cspMoved.trans (lowered carries.pointer fits).symm
      · refine espMoved.trans (lowered onStack ?_).symm
        omega
      · exact bottomSlot.trans bottomLowered.symm
    · exact respects.kept carries.kept
    · rw [others _ (by simp), carries.method here]
    · exact operands
    · rw [bottomSlot, espAddress, MonitorGrowth.lowered_address]
      omega
    · exact fun a lower upper => respects.callerWords carries lower upper
  refine ⟨cpu', grows, carries', ?_, ?_, ?_⟩
  · change OnStack world.stack (cpu'.read MonitorGrowth.c_rarg1)
    rw [entry, ← bottomSlot]
    exact carries'.sound.bottom
  · exact congrArg Cap.address (bottomSlot.trans entry.symm)
  · change (cpu'.read MonitorGrowth.c_rarg1).address + _ ≤ _
    rw [entry, MonitorGrowth.lowered_address]
    omega

end Pieces

end Activations

end Morello

end StoplessGC
