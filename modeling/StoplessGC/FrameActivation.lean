import StoplessGC.FixedFrame
import StoplessGC.InterpreterFrame
import StoplessGC.MonitorGrowth

/-!
# Activations and the code that starts them

The words that `generate_fixed_frame(false)` emits start an activation as the
model of the interpreter has it.
-/

namespace StoplessGC

namespace Morello

namespace FixedFrame

/-- What the interpreter sees of a machine state. -/
def activation (cpu : Cpu) (frame : Cap) : Interpreter.Activation where
  csp := cpu.read .sp
  esp := cpu.read esp
  initialSp := slot cpu frame 0
  lastSp := slot cpu frame 8
  initialSpSlot := frame.address
  mem := fun a => .value (cpu.mem a)

section Activation

variable {cheri : Intrinsics} {layout : Layout} {found : Found} {cpu : Cpu}

theorem capSub_eq_moveBy (c : Cap) {n : Nat} (small : n ≤ addressSpace) :
    Interpreter.capSub cheri c n = moveBy cheri c (-(n : Int)) := by
  rw [Interpreter.capSub, moveBy, offsetBy]
  congr 1
  rw [addressSpace] at *
  omega

theorem capSub_eq_moveBy_neg (c : Cap) {n : Nat} (small : n ≤ addressSpace) :
    Interpreter.capSub cheri c n =
      moveBy cheri c (((addressSpace - n) % addressSpace : Nat) : Int) := by
  rw [Interpreter.capSub, moveBy, offsetBy]
  congr 1
  rw [addressSpace] at *
  omega

theorem run_size {n : Nat} (here : cpu.read rscratch1 = Cap.ofInt n)
    (small : (n + layout.monitorSize + 2) * 16 < addressSpace)
    (rest : List Code) :
    run cheri (.stock (.addX rscratch1 rscratch1 (layout.monitorSize + 2)) ::
        .stock (.lslX rscratch1 rscratch1 4) ::
        .stock (.negX rscratch1 rscratch1) :: rest) cpu =
      run cheri rest (cpu.writeX rscratch1
        (addressSpace - (n + layout.monitorSize + 2) * 16)) := by
  have sum : offsetBy (Cap.ofInt n) (layout.monitorSize + 2) =
      n + layout.monitorSize + 2 :=
    offsetBy_eq (by rw [Cap.ofInt_address]; omega) (by omega)
  have added : (Code.stock (.addX rscratch1 rscratch1
      (layout.monitorSize + 2))).exec cheri cpu =
        some (cpu.writeX rscratch1 (n + layout.monitorSize + 2)) := by
    simp only [Code.exec, Instr.exec, here, sum]
  have slots : (n + layout.monitorSize + 2) * 2 ^ 4 % addressSpace =
      (n + layout.monitorSize + 2) * 16 := Nat.mod_eq_of_lt small
  rw [run_cons added,
    run_negatedSlots (Cpu.read_writeX_self _ (by simp) (by omega)) (by simp),
    slots]
  simp [Cpu.writeX]

theorem run_moveSp_csp (cheri : Intrinsics) {frame : Cap} {slots : Nat}
    (metadata : Metadata layout (cpu.read rmethod) found frame slots cpu.mem)
    (bytecodes : Bytecodes layout found.constMethod) {d : Nat}
    (size : (maxStack layout found cpu + layout.monitorSize + 2) * 16 = d)
    (small : d < addressSpace) :
    ∃ cpu', run cheri (moveSp layout) cpu = some cpu' ∧
      cpu'.mem = cpu.mem ∧ cpu'.read esp = cpu.read esp ∧
      cpu'.read .sp = Interpreter.capSub cheri (cpu.read .sp) d := by
  subst size
  have word : maxStack layout found cpu < addressSpace := by omega
  have lowered : ∀ cpu' : Cpu, (Code.emit (some (0xC2A06000 |||
      (rscratch1.encoding <<< 16) ||| (31 <<< 5) ||| 31))).exec cheri cpu' =
        some (cpu'.write .sp (moveBy cheri (cpu'.read .sp)
          (cpu'.read rscratch1).address)) := fun cpu' =>
    exec_emit_of_decode cpu' (i := .addReg .sp .sp rscratch1) (by decide)
  rw [moveSp, run_maxStack cheri metadata bytecodes,
    run_size (Cpu.read_writeX_self _ (by simp) word) small,
    run_cons (lowered _)]
  refine ⟨_, rfl, by simp [Cpu.writeX], by simp [Cpu.writeX], ?_⟩
  rw [capSub_eq_moveBy_neg _ (Nat.le_of_lt small),
    Cpu.read_write_self _ _ (by simp)]
  simp [Cpu.writeX]

/-- The model of activations starts where the emitted code leaves the machine:
`c0` is in the slot for the last `sp`. -/
theorem generateFixedFrame_activation (laws : cheri.Laws)
    (ready : Ready layout false found cpu) (mdp : Option Cap)
    {code : Interpreter.Code} (maxStack : code.maxStack =
      FixedFrame.maxStack layout found cpu)
    (monitorSize : code.monitorSize = layout.monitorSize)
    (small : Interpreter.stackDelta code 2 < addressSpace) :
    ∃ cpu', generateFixedFrame cheri layout false mdp cpu = some cpu' ∧
      activation cpu' (frame false cpu) =
        Interpreter.generateFixedFrame cheri code (cpu.read .sp)
          (cpu.read (.c 0)) (fun a => .value (cpu'.mem a)) := by
  obtain ⟨filled, ran, laid⟩ := run_fillFrame laws ready mdp
  have metadata := laid.metadata
  rw [← laid.method] at metadata
  have size : (FixedFrame.maxStack layout found filled + layout.monitorSize +
      2) * 16 = Interpreter.stackDelta code 2 := by
    rw [Interpreter.stackDelta, maxStack, monitorSize]
    simp only [FixedFrame.maxStack, laid.data]
    rfl
  obtain ⟨cpu', moved, mem, esp, sp⟩ :=
    run_moveSp_csp cheri metadata (ready.bytecodes rfl) size small
  have bottom : frame false cpu =
      Interpreter.capSub cheri (cpu.read .sp) (12 * Interpreter.wordSize) :=
    (ready.claim laws).symm.trans
      (capSub_eq_moveBy _ (by decide)).symm
  have slots : ∀ k, k < 12 → slot cpu' (frame false cpu) k =
      stored layout false found cpu k := by
    intro k below
    rw [slot, mem]
    exact laid.slots k below
  refine ⟨cpu', ?_, ?_⟩
  · rw [generateFixedFrame, ran]
    exact moved
  · rw [activation, sp, esp, laid.sp, laid.esp, slots 0 (by decide),
      slots 8 (by decide), Interpreter.generateFixedFrame, ← bottom]
    rfl

theorem generateFixedFrame_starts (laws : cheri.Laws)
    (ready : Ready layout false found cpu) (mdp : Option Cap)
    {code : Interpreter.Code} (maxStack : code.maxStack =
      FixedFrame.maxStack layout found cpu)
    (monitorSize : code.monitorSize = layout.monitorSize)
    {stack : Interpreter.Stack}
    (onStack : Interpreter.OnStack stack (cpu.read .sp))
    (room : stack.cap.base + 12 * Interpreter.wordSize +
      Interpreter.stackDelta code 2 ≤ (cpu.read .sp).address) :
    ∃ cpu', generateFixedFrame cheri layout false mdp cpu = some cpu' ∧
      Interpreter.Starts cheri stack code .entered
        (activation cpu' (frame false cpu)) := by
  have inSpace := stack.inSpace
  have upper := onStack.upper
  obtain ⟨cpu', ran, same⟩ := generateFixedFrame_activation laws ready mdp
    maxStack monitorSize (by omega)
  refine ⟨cpu', ran, ?_⟩
  rw [same]
  exact .fixedFrame onStack room

end Activation

open MonitorGrowth in
theorem capSub_eq_lowered {cheri : Intrinsics} (laws : cheri.Laws) {c : Cap}
    {n : Nat} (small : n < 4096) (lowers : Lowers c n) :
    Interpreter.capSub cheri c n = lowered n c := by
  obtain ⟨lower, upper, word⟩ := lowers
  rw [capSub_eq_moveBy c (Nat.le_trans (Nat.le_of_lt small) (by decide))]
  exact moveBy_eq laws (by omega) (by omega) (by omega) (by omega)

end FixedFrame

end Morello

end StoplessGC
