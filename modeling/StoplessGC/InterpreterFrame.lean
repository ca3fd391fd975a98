import StoplessGC.Collector

/-!
# Activations of the template interpreter

The machine stack pointer, the expression stack and the monitor block of one
interpreted activation, as `generate_fixed_frame`, `lock_method`,
`monitorenter` and the entries for returns, deoptimisation, exceptions and
`PopFrame` maintain them.  Stack slots are 16 bytes.

The slot at `interpreter_frame_initial_sp_offset` is also the one at
`interpreter_frame_monitor_block_top_offset`.  Its content separates the
monitor entries above from the operands below; its own address is the bottom of
the monitor block.
-/

namespace StoplessGC

namespace Interpreter

/-- `wordSize` and `Interpreter::stackElementSize`. -/
def wordSize : Nat := 16

/-- What the templates read of the method and of the platform: `max_stack`,
`frame::interpreter_frame_monitor_size()` and
`BasicObjectLock::obj_offset_in_bytes()`. -/
structure Code where
  maxStack : Nat
  monitorSize : Nat
  objOffset : Nat
  objInEntry : objOffset + wordSize ≤ monitorSize * wordSize

def Code.entrySize (code : Code) : Nat := code.monitorSize * wordSize

/-- `csp` and `esp`, the two pointer slots of the frame, the address of the
first of them, and the words of the stack. -/
structure Activation where
  csp : Cap
  esp : Cap
  initialSp : Cap
  lastSp : Cap
  initialSpSlot : Nat
  mem : Nat → Word

variable (cheri : Intrinsics) (code : Code)

/-- `cap_add_imm` and `cap_add_reg`. -/
def capAdd (c : Cap) (n : Nat) : Cap :=
  cheri.addressSet c ((c.address + n) % addressSpace)

/-- `cap_sub_imm`, and `neg` followed by a capability add. -/
def capSub (c : Cap) (n : Nat) : Cap :=
  cheri.addressSet c ((c.address + (addressSpace - n)) % addressSpace)

/-- The distance that the templates keep between the expression stack bottom
and `csp`; `extra` is 2 or 4. -/
def stackDelta (extra : Nat) : Nat :=
  (code.maxStack + code.monitorSize + extra) * wordSize

/-- `generate_fixed_frame(false)`.  The stores into the fixed part of the frame
lie above the slot.  The slot for the last `sp` gets what is in `c0`. -/
def generateFixedFrame (sp c0 : Cap) (mem : Nat → Word) : Activation :=
  let esp := capSub cheri sp (12 * wordSize)
  let sp := capSub cheri sp (12 * wordSize)
  { csp := capSub cheri sp (stackDelta code 2)
    esp := esp
    initialSp := esp
    lastSp := c0
    initialSpSlot := sp.address
    mem := mem }

/-- The store of the locked object into a monitor entry. -/
def Activation.storeObj (f : Activation) (entry : Nat) (obj : Cap) :
    Activation :=
  { f with mem := Function.update f.mem (entry + code.objOffset) (.value obj) }

/-- `lock_method` -/
def lockMethod (obj : Cap) (f : Activation) : Activation :=
  let esp := capSub cheri f.esp code.entrySize
  Activation.storeObj code
    { f with
      csp := capSub cheri f.csp code.entrySize
      esp := esp
      initialSp := esp } esp.address obj

/-- `csp` rebuilt from the capability in the slot. -/
def rebuildCsp (extra : Nat) (f : Activation) : Activation :=
  { f with csp := capSub cheri f.initialSp (stackDelta code extra) }

/-- `generate_return_entry_for`; the callee had `params` parameter slots. -/
def returnEntry (params : Nat) (f : Activation) : Activation :=
  rebuildCsp cheri code 2
    { f with
      esp := capAdd cheri f.lastSp (params * wordSize)
      lastSp := Cap.null }

/-- `generate_deopt_entry_for` -/
def deoptEntry (f : Activation) : Activation :=
  { rebuildCsp cheri code 2 f with esp := f.lastSp, lastSp := Cap.null }

/-- The rethrow entry: `empty_expression_stack`, and the dispatch to the
handler. -/
def exceptionEntry (f : Activation) : Activation :=
  rebuildCsp cheri code 4 { f with esp := f.initialSp, lastSp := Cap.null }

/-- The re-entry after `PopFrame`. -/
def popFrameEntry (f : Activation) : Activation :=
  rebuildCsp cheri code 4 { f with esp := f.lastSp, lastSp := Cap.null }

/-- An integer load from a slot: the address bits of what is there. -/
def ldr (mem : Nat → Word) (p : Nat) : Nat :=
  match mem p with
  | .value c => c.address
  | .header _ _ => 0

/-- The search of `monitorenter`: `free` is `c_rarg1`, `entry` is `c_rarg3`.
The result is the entry to use, or zero, and the entry for the same object at
which the search has stopped. -/
def enterSearch (mem : Nat → Word) (bottom obj : Nat) :
    Nat → Nat → Nat → Option (Nat × Option Nat)
  | 0, _, _ => none
  | fuel + 1, free, entry =>
      if entry = bottom then some (free, none)
      else
        let here := ldr mem (entry + code.objOffset)
        let free := if here = 0 then entry else free
        if here = obj then some (free, some entry)
        else enterSearch mem bottom obj fuel free (entry + code.entrySize)

/-- The search of `monitorexit`: the entry for the same object, if any. -/
def exitSearch (mem : Nat → Word) (bottom obj : Nat) :
    Nat → Nat → Option (Option Nat)
  | 0, _ => none
  | fuel + 1, entry =>
      if entry = bottom then some none
      else if ldr mem (entry + code.objOffset) = obj then some (some entry)
      else exitSearch mem bottom obj fuel (entry + code.entrySize)

/-- The loop that moves the operands down by one monitor entry. -/
def shiftOperands (bottom : Nat) :
    Nat → Nat → (Nat → Word) → Option (Nat → Word)
  | 0, _, _ => none
  | fuel + 1, p, mem =>
      if p = bottom then some mem
      else
        shiftOperands bottom fuel (p + wordSize)
          (Function.update mem p (mem (p + code.entrySize)))

/-- `monitorenter` when no entry is free. -/
def growMonitors (fuel : Nat) (f : Activation) : Option Activation :=
  let esp := capSub cheri f.esp code.entrySize
  let bottom := capSub cheri f.initialSp code.entrySize
  match shiftOperands code bottom.address fuel esp.address f.mem with
  | none => none
  | some mem =>
      some
        { f with
          csp := capSub cheri f.csp code.entrySize
          esp := esp
          initialSp := bottom
          mem := mem }

/-- `monitorenter` for the object that has been popped into `r0`. -/
def monitorenter (fuel : Nat) (obj : Cap) (f : Activation) :
    Option Activation :=
  match enterSearch code f.mem f.initialSpSlot obj.address fuel 0
      f.initialSp.address with
  | none => none
  | some (free, _) =>
      if free ≠ 0 then some (Activation.storeObj code f free obj)
      else
        match growMonitors cheri code fuel f with
        | none => none
        | some f => some (Activation.storeObj code f f.initialSp.address obj)

/-- `push` and `pop` of one operand. -/
def push (w : Word) (f : Activation) : Activation :=
  let esp := capSub cheri f.esp wordSize
  { f with esp := esp, mem := Function.update f.mem esp.address w }

def pop (f : Activation) : Activation :=
  { f with esp := capAdd cheri f.esp wordSize }

/-- The scratch save of `call_VM`, `stp x8, x12, [csp, #-32]!`. -/
def scratchSave (first second : Word) (f : Activation) : Activation :=
  let csp := capSub cheri f.csp 32
  { f with
    mem := Function.update (Function.update f.mem csp.address first)
      (csp.address + wordSize) second }

/-- The stack of a thread. -/
structure Stack where
  cap : Cap
  tagged : cap.tag = true
  inSpace : cap.base + cap.length < addressSpace

/-- A pointer that capability adds have made from the stack capability: tag,
bounds and permissions are those of the stack. -/
structure OnStack (stack : Stack) (c : Cap) : Prop where
  derived : c = { stack.cap with address := c.address }
  lower : stack.cap.base ≤ c.address
  upper : c.address ≤ stack.cap.base + stack.cap.length
  aligned : wordSize ∣ c.address

namespace OnStack

variable {cheri : Intrinsics} {stack : Stack} {c : Cap} {n : Nat}

theorem tag (onStack : OnStack stack c) : c.tag = true := by
  rw [onStack.derived]
  exact stack.tagged

theorem addressSet (laws : cheri.Laws) (onStack : OnStack stack c)
    {address : Nat} (lower : stack.cap.base ≤ address)
    (upper : address ≤ stack.cap.base + stack.cap.length) :
    cheri.addressSet c address = { stack.cap with address := address } := by
  have kept : cheri.representable c address = true := by
    apply laws.representable_inBounds
    · rw [onStack.derived]
      exact lower
    · rw [onStack.derived]
      exact upper
  rw [Intrinsics.addressSet, kept, onStack.derived]
  simp [stack.tagged]

theorem sub (laws : cheri.Laws) (onStack : OnStack stack c)
    (slots : wordSize ∣ n) (room : stack.cap.base + n ≤ c.address) :
    OnStack stack (capSub cheri c n) ∧
      (capSub cheri c n).address = c.address - n := by
  have upper := onStack.upper
  have small := stack.inSpace
  have wrapped : (c.address + (addressSpace - n)) % addressSpace =
      c.address - n := by
    have shifted : c.address + (addressSpace - n) =
        addressSpace + (c.address - n) := by omega
    rw [shifted, Nat.add_mod_left]
    exact Nat.mod_eq_of_lt (by omega)
  have result : capSub cheri c n =
      { stack.cap with address := c.address - n } := by
    rw [capSub, wrapped]
    exact onStack.addressSet laws (by omega) (by omega)
  rw [result]
  refine ⟨⟨rfl, ?_, ?_, ?_⟩, rfl⟩
  · change stack.cap.base ≤ c.address - n
    omega
  · change c.address - n ≤ _
    omega
  · exact Nat.dvd_sub onStack.aligned slots

theorem add (laws : cheri.Laws) (onStack : OnStack stack c)
    (slots : wordSize ∣ n)
    (room : c.address + n ≤ stack.cap.base + stack.cap.length) :
    OnStack stack (capAdd cheri c n) ∧
      (capAdd cheri c n).address = c.address + n := by
  have lower := onStack.lower
  have small := stack.inSpace
  have result : capAdd cheri c n =
      { stack.cap with address := c.address + n } := by
    rw [capAdd, Nat.mod_eq_of_lt (by omega)]
    exact onStack.addressSet laws (by omega) (by omega)
  rw [result]
  refine ⟨⟨rfl, ?_, room, ?_⟩, rfl⟩
  · change stack.cap.base ≤ c.address + n
    omega
  · exact Nat.dvd_add onStack.aligned slots

end OnStack

/-- Where an activation stands: in the prologue, between two bytecodes, or in a
call, when `csp` belongs to the callee. -/
inductive Phase where
  | entered
  | running
  | calling
deriving DecidableEq, Repr

/-- A pointer to an operand or to the bottom of the expression stack. -/
def Operand (stack : Stack) (code : Code) (f : Activation) (c : Cap) : Prop :=
  OnStack stack c ∧
    ∃ d, d ≤ code.maxStack ∧ c.address + d * wordSize = f.initialSp.address

/-- The invariant of an activation. -/
structure Sound (stack : Stack) (code : Code) (phase : Phase)
    (f : Activation) : Prop where
  bottom : OnStack stack f.initialSp
  entries : ∃ k, f.initialSp.address + k * code.entrySize = f.initialSpSlot
  operands : phase ≠ .calling → Operand stack code f f.esp
  empty : phase = .entered → f.esp = f.initialSp
  saved : phase = .calling → Operand stack code f f.lastSp
  pointer : phase ≠ .calling → OnStack stack f.csp
  below : phase ≠ .calling →
    f.csp.address + stackDelta code 2 ≤ f.initialSp.address

/-- How an activation begins: by `generate_fixed_frame`, or as a frame that the
deoptimiser has laid out for `generate_deopt_entry_for`.  The stack overflow
check has found room. -/
inductive Starts (cheri : Intrinsics) (stack : Stack) (code : Code) :
    Phase → Activation → Prop where
  | fixedFrame {sp c0 : Cap} {mem : Nat → Word} :
      OnStack stack sp →
      stack.cap.base + 12 * wordSize + stackDelta code 2 ≤ sp.address →
      Starts cheri stack code .entered
        (generateFixedFrame cheri code sp c0 mem)
  | deoptimized {f : Activation} {k : Nat} :
      OnStack stack f.initialSp →
      f.initialSp.address + k * code.entrySize = f.initialSpSlot →
      Operand stack code f f.lastSp → Starts cheri stack code .calling f

/-- What can happen to an activation.  At most `max_stack` operands are pushed,
a call leaves nothing of `csp`, and wherever `csp` is lowered the stack has
room. -/
inductive Step (cheri : Intrinsics) (stack : Stack) (code : Code) :
    Phase → Activation → Phase → Activation → Prop where
  | lockMethod {f : Activation} (obj : Cap) :
      stack.cap.base + code.entrySize ≤ f.csp.address →
      Step cheri stack code .entered f .entered (lockMethod cheri code obj f)
  | start {f : Activation} : Step cheri stack code .entered f .running f
  | push {f : Activation} (w : Word) :
      f.initialSp.address < f.esp.address + code.maxStack * wordSize →
      Step cheri stack code .running f .running (push cheri w f)
  | pop {f : Activation} :
      f.esp.address < f.initialSp.address →
      Step cheri stack code .running f .running (pop cheri f)
  | callVm {phase : Phase} {f : Activation} (first second : Word) :
      phase ≠ .calling →
      Step cheri stack code phase f phase (scratchSave cheri first second f)
  | monitorenter {f g : Activation} (fuel : Nat) (obj : Cap) :
      stack.cap.base + code.entrySize ≤ f.csp.address →
      monitorenter cheri code fuel obj f = some g →
      Step cheri stack code .running f .running g
  | invoke {f : Activation} (csp esp : Cap) (mem : Nat → Word) :
      Step cheri stack code .running f .calling
        { f with csp := csp, esp := esp, lastSp := f.esp, mem := mem }
  | returnEntry {f : Activation} (params : Nat) :
      stack.cap.base + stackDelta code 2 ≤ f.initialSp.address →
      f.lastSp.address + params * wordSize ≤ f.initialSp.address →
      Step cheri stack code .calling f .running
        (returnEntry cheri code params f)
  | deoptEntry {f : Activation} :
      stack.cap.base + stackDelta code 2 ≤ f.initialSp.address →
      Step cheri stack code .calling f .running (deoptEntry cheri code f)
  | exceptionEntry {phase : Phase} {f : Activation} :
      stack.cap.base + stackDelta code 4 ≤ f.initialSp.address →
      Step cheri stack code phase f .running (exceptionEntry cheri code f)
  | popFrameEntry {f : Activation} :
      stack.cap.base + stackDelta code 4 ≤ f.initialSp.address →
      Step cheri stack code .calling f .running (popFrameEntry cheri code f)

/-- The activations of any sequence of these steps. -/
inductive Reached (cheri : Intrinsics) (stack : Stack) (code : Code) :
    Phase → Activation → Prop where
  | starts {phase : Phase} {f : Activation} :
      Starts cheri stack code phase f → Reached cheri stack code phase f
  | step {phase phase' : Phase} {f f' : Activation} :
      Reached cheri stack code phase f →
      Step cheri stack code phase f phase' f' →
      Reached cheri stack code phase' f'

section Soundness

variable {cheri : Intrinsics} {stack : Stack} {code : Code} {phase : Phase}
  {f : Activation}

theorem wordSize_dvd_stackDelta (code : Code) (extra : Nat) :
    wordSize ∣ stackDelta code extra := Nat.dvd_mul_left _ _

theorem wordSize_dvd_entrySize (code : Code) : wordSize ∣ code.entrySize :=
  Nat.dvd_mul_left _ _

theorem entrySize_pos (code : Code) : wordSize ≤ code.entrySize := by
  have inside := code.objInEntry
  rw [Code.entrySize]
  omega

theorem entrySize_le_stackDelta (code : Code) (extra : Nat) :
    code.maxStack * wordSize + code.entrySize + extra * wordSize =
      stackDelta code extra := by
  rw [stackDelta, Code.entrySize, Nat.add_mul, Nat.add_mul]

theorem Starts.sound (laws : cheri.Laws)
    (starts : Starts cheri stack code phase f) : Sound stack code phase f := by
  cases starts with
  | @fixedFrame sp _ mem onStack room =>
      obtain ⟨frame, frame_address⟩ := onStack.sub laws
        (Nat.dvd_mul_left wordSize 12) (by omega)
      obtain ⟨pointer, pointer_address⟩ := frame.sub laws
        (wordSize_dvd_stackDelta code 2) (by rw [frame_address]; omega)
      constructor
      · exact frame
      · exact ⟨0, by simp [generateFixedFrame]⟩
      · exact fun _ => ⟨frame, 0, Nat.zero_le _, by simp [generateFixedFrame]⟩
      · exact fun _ => rfl
      · intro calling
        cases calling
      · exact fun _ => pointer
      · intro _
        change (capSub cheri (capSub cheri sp (12 * wordSize))
          (stackDelta code 2)).address + _ ≤
            (capSub cheri sp (12 * wordSize)).address
        rw [pointer_address, frame_address]
        omega
  | deoptimized bottom entries saved =>
      constructor
      · exact bottom
      · exact ⟨_, entries⟩
      · exact fun other => absurd rfl other
      · intro entered
        cases entered
      · exact fun _ => saved
      · exact fun other => absurd rfl other
      · exact fun other => absurd rfl other

namespace Sound

theorem room (sound : Sound stack code phase f) (here : phase ≠ .calling) :
    stack.cap.base + code.entrySize + 2 * wordSize ≤ f.esp.address ∧
      f.csp.address + code.entrySize + 2 * wordSize ≤ f.esp.address := by
  obtain ⟨_, d, few, depth⟩ := sound.operands here
  have below := sound.below here
  have lower := (sound.pointer here).lower
  have parts := entrySize_le_stackDelta code 2
  have less := Nat.mul_le_mul_right wordSize few
  omega

/-- What stays sound when only words of the stack change. -/
theorem withMem (sound : Sound stack code phase f) (mem : Nat → Word) :
    Sound stack code phase { f with mem := mem } :=
  { bottom := sound.bottom
    entries := sound.entries
    operands := sound.operands
    empty := sound.empty
    saved := sound.saved
    pointer := sound.pointer
    below := sound.below }

theorem lowered (laws : cheri.Laws) (sound : Sound stack code phase f)
    (here : phase ≠ .calling)
    (fits : stack.cap.base + code.entrySize ≤ f.csp.address)
    (mem : Nat → Word) :
    Sound stack code phase
      { f with
        csp := capSub cheri f.csp code.entrySize
        esp := capSub cheri f.esp code.entrySize
        initialSp := capSub cheri f.initialSp code.entrySize
        mem := mem } := by
  have slots := wordSize_dvd_entrySize code
  obtain ⟨room, _⟩ := sound.room here
  obtain ⟨onStack, d, few, depth⟩ := sound.operands here
  have below := sound.below here
  obtain ⟨k, entries⟩ := sound.entries
  obtain ⟨csp, csp_address⟩ := (sound.pointer here).sub laws slots fits
  obtain ⟨esp, esp_address⟩ := onStack.sub laws slots (by omega)
  obtain ⟨bottom, bottom_address⟩ := sound.bottom.sub laws slots (by omega)
  constructor
  · exact bottom
  · refine ⟨k + 1, ?_⟩
    change (capSub cheri f.initialSp code.entrySize).address + _ = f.initialSpSlot
    rw [bottom_address, Nat.succ_mul]
    omega
  · intro _
    refine ⟨esp, d, few, ?_⟩
    change (capSub cheri f.esp code.entrySize).address + _ =
      (capSub cheri f.initialSp code.entrySize).address
    rw [esp_address, bottom_address]
    omega
  · intro entered
    change capSub cheri f.esp code.entrySize =
      capSub cheri f.initialSp code.entrySize
    rw [sound.empty entered]
  · exact fun calling => absurd calling here
  · exact fun _ => csp
  · intro _
    change (capSub cheri f.csp code.entrySize).address + _ ≤
      (capSub cheri f.initialSp code.entrySize).address
    rw [csp_address, bottom_address]
    omega

theorem rebuilt (laws : cheri.Laws) (sound : Sound stack code phase f)
    {extra : Nat} (enough : 2 ≤ extra)
    (room : stack.cap.base + stackDelta code extra ≤ f.initialSp.address)
    {esp : Cap} (operands : Operand stack code f esp) (lastSp : Cap) :
    Sound stack code .running
      (rebuildCsp cheri code extra { f with esp := esp, lastSp := lastSp }) := by
  obtain ⟨pointer, address⟩ :=
    sound.bottom.sub laws (wordSize_dvd_stackDelta code extra) room
  have farther : stackDelta code 2 ≤ stackDelta code extra :=
    Nat.mul_le_mul_right _ (Nat.add_le_add_left enough _)
  constructor
  · exact sound.bottom
  · exact sound.entries
  · exact fun _ => operands
  · intro entered
    cases entered
  · intro calling
    cases calling
  · exact fun _ => pointer
  · intro _
    change (capSub cheri f.initialSp (stackDelta code extra)).address + _ ≤
      f.initialSp.address
    rw [address]
    omega

theorem lockMethod (laws : cheri.Laws) (sound : Sound stack code .entered f)
    (fits : stack.cap.base + code.entrySize ≤ f.csp.address) (obj : Cap) :
    Sound stack code .entered (lockMethod cheri code obj f) := by
  have lowered := sound.lowered laws (by simp) fits f.mem
  rw [← sound.empty rfl] at lowered
  exact lowered.withMem _

theorem push (laws : cheri.Laws) (sound : Sound stack code .running f)
    (few : f.initialSp.address < f.esp.address + code.maxStack * wordSize)
    (w : Word) : Sound stack code .running (push cheri w f) := by
  have here : Phase.running ≠ .calling := by simp
  obtain ⟨room, _⟩ := sound.room here
  obtain ⟨onStack, d, _, depth⟩ := sound.operands here
  obtain ⟨esp, address⟩ := onStack.sub laws (Nat.dvd_refl wordSize) (by omega)
  have stored := sound.withMem
    (Function.update f.mem (capSub cheri f.esp wordSize).address w)
  refine { stored with
    operands := fun _ => ⟨esp, d + 1, ?_, ?_⟩
    empty := by simp }
  · apply Nat.lt_of_mul_lt_mul_right
    change d * wordSize < code.maxStack * wordSize
    omega
  · change (capSub cheri f.esp wordSize).address + _ = f.initialSp.address
    rw [address, Nat.succ_mul]
    omega

theorem pop (laws : cheri.Laws) (sound : Sound stack code .running f)
    (some : f.esp.address < f.initialSp.address) :
    Sound stack code .running (pop cheri f) := by
  have here : Phase.running ≠ .calling := by simp
  obtain ⟨onStack, d, few, depth⟩ := sound.operands here
  have upper := sound.bottom.upper
  cases d with
  | zero => omega
  | succ d =>
      rw [Nat.succ_mul] at depth
      obtain ⟨esp, address⟩ :=
        onStack.add laws (Nat.dvd_refl wordSize) (by omega)
      refine { sound with
        operands := fun _ => ⟨esp, d, by omega, ?_⟩
        empty := by simp }
      change (capAdd cheri f.esp wordSize).address + _ = f.initialSp.address
      rw [address]
      omega

theorem monitorenter (laws : cheri.Laws) (sound : Sound stack code .running f)
    (fits : stack.cap.base + code.entrySize ≤ f.csp.address) {fuel : Nat}
    {obj : Cap} {g : Activation}
    (entered : monitorenter cheri code fuel obj f = some g) :
    Sound stack code .running g := by
  unfold Interpreter.monitorenter at entered
  split at entered
  · cases entered
  · split at entered
    · cases entered
      exact sound.withMem _
    · unfold growMonitors at entered
      simp only at entered
      cases shifted : shiftOperands code
          (capSub cheri f.initialSp code.entrySize).address fuel
          (capSub cheri f.esp code.entrySize).address f.mem with
      | none =>
          simp only [shifted] at entered
          cases entered
      | some mem =>
          simp only [shifted] at entered
          cases entered
          exact (sound.lowered laws (by simp) fits mem).withMem _

end Sound

theorem Step.sound (laws : cheri.Laws) {phase' : Phase} {f' : Activation}
    (before : Sound stack code phase f)
    (step : Step cheri stack code phase f phase' f') :
    Sound stack code phase' f' := by
  cases step with
  | lockMethod obj fits => exact before.lockMethod laws fits obj
  | start =>
      exact
        { before with
          operands := fun _ => before.operands (by simp)
          empty := by simp
          saved := by simp
          pointer := fun _ => before.pointer (by simp)
          below := fun _ => before.below (by simp) }
  | push w few => exact before.push laws few w
  | pop some => exact before.pop laws some
  | callVm first second _ => exact before.withMem _
  | monitorenter fuel obj fits entered =>
      exact before.monitorenter laws fits entered
  | invoke csp esp mem =>
      exact
        { bottom := before.bottom
          entries := before.entries
          operands := by simp
          empty := by simp
          saved := fun _ => before.operands (by simp)
          pointer := by simp
          below := by simp }
  | returnEntry params room popped =>
      obtain ⟨onStack, d, few, depth⟩ := before.saved rfl
      have upper := before.bottom.upper
      obtain ⟨esp, address⟩ := onStack.add laws
        (Nat.dvd_mul_left wordSize params) (by omega)
      refine before.rebuilt laws (Nat.le_refl 2) room
        ⟨esp, d - params, by omega, ?_⟩ Cap.null
      have fewer : params ≤ d := by
        apply Nat.le_of_mul_le_mul_right _ (by decide : 0 < wordSize)
        omega
      change (capAdd cheri f.lastSp (params * wordSize)).address + _ =
        f.initialSp.address
      rw [address, Nat.sub_mul]
      have order := Nat.mul_le_mul_right wordSize fewer
      omega
  | deoptEntry room =>
      exact before.rebuilt laws (Nat.le_refl 2) room (before.saved rfl) Cap.null
  | exceptionEntry room =>
      have bottom : Operand stack code f f.initialSp :=
        ⟨before.bottom, 0, Nat.zero_le _, by simp⟩
      exact before.rebuilt laws (by decide) room bottom Cap.null
  | popFrameEntry room =>
      exact before.rebuilt laws (by decide) room (before.saved rfl) Cap.null

theorem Reached.sound (laws : cheri.Laws)
    (reached : Reached cheri stack code phase f) :
    Sound stack code phase f := by
  induction reached with
  | starts begun => exact begun.sound laws
  | step _ last ih => exact last.sound laws ih

/-- Words below `csp` are not operands. -/
theorem Sound.csp_lt_operand (sound : Sound stack code phase f)
    (here : phase ≠ .calling) {p : Nat} (operand : f.esp.address ≤ p) :
    f.csp.address < p := by
  have apart := (sound.room here).2
  have positive : 0 < wordSize := by decide
  omega

theorem Sound.scratchSave (laws : cheri.Laws)
    (sound : Sound stack code phase f) (here : phase ≠ .calling)
    (fits : stack.cap.base + 32 ≤ f.csp.address) (first second : Word) {p : Nat}
    (operand : f.esp.address ≤ p) :
    (scratchSave cheri first second f).mem p = f.mem p := by
  obtain ⟨_, address⟩ := (sound.pointer here).sub laws
    (n := 32) (by decide : wordSize ∣ 32) fits
  have above := sound.csp_lt_operand here operand
  have word : wordSize = 16 := rfl
  change Function.update (Function.update f.mem
    (capSub cheri f.csp 32).address first)
    ((capSub cheri f.csp 32).address + wordSize) second p = f.mem p
  rw [Function.update_of_ne (by omega), Function.update_of_ne (by omega)]

/-- In every sequence of prologues, locks, calls, returns, deoptimisations,
exceptions and popped frames, `csp` stays below the expression stack: by
`max_stack` slots, one monitor entry and two slots, aligned, and with the tag
and bounds of the stack.  What is saved below `csp` is no operand. -/
theorem csp_below_expression_stack (laws : cheri.Laws)
    (reached : Reached cheri stack code phase f) (here : phase ≠ .calling) :
    f.csp.address + (code.maxStack + code.monitorSize + 2) * 16 ≤
        f.initialSp.address ∧
      16 ∣ f.csp.address ∧ 16 ∣ f.initialSp.address ∧
      f.csp.tag = true ∧ OnStack stack f.csp ∧ f.initialSp.tag = true ∧
      (∀ p, f.esp.address ≤ p → f.csp.address < p) ∧
      (∀ first second, stack.cap.base + 32 ≤ f.csp.address →
        ∀ p, f.esp.address ≤ p →
          (scratchSave cheri first second f).mem p = f.mem p) := by
  have sound := reached.sound laws
  have pointer := sound.pointer here
  refine ⟨sound.below here, pointer.aligned, sound.bottom.aligned, pointer.tag,
    pointer, sound.bottom.tag, ?_, ?_⟩
  · exact fun p operand => sound.csp_lt_operand here operand
  · exact fun first second fits p operand =>
      sound.scratchSave laws here fits first second operand

end Soundness

/-- The 1 MiB stack of a thread, below 2 MiB. -/
def Stack.small : Stack where
  cap :=
    { tag := true
      base := 2 ^ 20
      length := 2 ^ 20
      address := 2 ^ 21
      perms := { swVmem := true, rest := 1 } }
  tagged := rfl
  inSpace := by decide

/-- A method with four operand slots, and two-word monitor entries. -/
def Code.small : Code where
  maxStack := 4
  monitorSize := 2
  objOffset := 16
  objInEntry := by decide

/-- A synchronized method that calls another one, gets its exception and
catches it; `mem` is the memory that the callee leaves. -/
def caught (mem : Nat → Word) : Activation :=
  let locked := lockMethod Intrinsics.exact Code.small Cap.null
    (generateFixedFrame Intrinsics.exact Code.small Stack.small.cap Cap.null
      (fun _ => .value Cap.null))
  exceptionEntry Intrinsics.exact Code.small
    { locked with
      csp := Cap.null
      esp := Cap.null
      lastSp := locked.esp
      mem := mem }

theorem reached_caught (mem : Nat → Word) :
    Reached Intrinsics.exact Stack.small Code.small .running (caught mem) := by
  refine .step (.step (.step (.step (.starts (.fixedFrame ?_ ?_))
    (.lockMethod Cap.null ?_)) .start) (.invoke Cap.null Cap.null mem))
    (.exceptionEntry ?_)
  · exact ⟨rfl, by decide, by decide, by decide⟩
  · decide
  · decide
  · change Stack.small.cap.base + stackDelta Code.small 4 ≤
      (lockMethod Intrinsics.exact Code.small Cap.null
        (generateFixedFrame Intrinsics.exact Code.small Stack.small.cap
          Cap.null (fun _ => .value Cap.null))).initialSp.address
    decide

theorem csp_below_expression_stack_caught :
    (caught fun _ => .value Cap.null).csp.address + (4 + 2 + 2) * 16 ≤
        (caught fun _ => .value Cap.null).initialSp.address ∧
      (caught fun _ => .value Cap.null).csp.tag = true := by
  have below := csp_below_expression_stack Intrinsics.exact_laws
    (reached_caught fun _ => .value Cap.null) (by decide)
  exact ⟨below.1, below.2.2.2.1⟩

end Interpreter

end StoplessGC
