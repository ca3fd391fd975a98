import StoplessGC.FrameActivation
import StoplessGC.StackShuffle

/-!
# The code around an activation

What is emitted for the lock of a synchronized method, for calls of the VM and
of other methods, for the entries after returns, deoptimisations, exceptions
and popped frames, and for the removal of an activation: each piece of it runs
to its end, and the state it leaves is known.
-/

namespace StoplessGC

namespace Morello

namespace Activations

open Interpreter (OnStack Phase)
open FixedFrame StoredList
open ExpressionStack (pushPtr popPtr Temp)

abbrev rscratch2 : Register := .c 9
abbrev r0 : Register := .c 0
abbrev r1 : Register := .c 1
abbrev r13 : Register := .c 13

/-- `frame::interpreter_frame_last_sp_offset * wordSize` -/
def lastSpOffset : Int := -2 * 16

/-- `frame::interpreter_frame_method_offset * wordSize` -/
def methodOffset : Int := -3 * 16

/-- `frame::interpreter_frame_sender_sp_offset * wordSize` -/
def senderSpOffset : Int := -1 * 16

/-- `frame::interpreter_frame_initial_sp_offset * wordSize`, which is also the
offset of the monitor block top. -/
def initialSpOffset : Int := -10 * 16

/-- An eight-byte store of zero into the slot for the last `sp`. -/
def clearLastSp : Code := .stock (.strX .zr rfp lastSpOffset)

/-- `esp` from the slot for the last `sp`. -/
def restoreEsp : List Code :=
  [.emit (capLdrImm esp rfp lastSpOffset), clearLastSp]

/-- `InterpreterMacroAssembler::empty_expression_stack` -/
def emptyExpressionStack : List Code :=
  [.emit (capLdrImm esp rfp initialSpOffset), clearLastSp]

/-- `get_method(rmethod)` -/
def getMethod : Code := .emit (capLdrImm rmethod rfp methodOffset)

/-- The parameters of the callee, whose number is in `r1`. -/
def popParameters : List Code :=
  [.stock (.lslX rscratch1 r1 4), .emit (capAddReg esp esp rscratch1)]

/-- `csp` from the bottom of the expression stack; `extra` is 2 or 4. -/
def rebuildCsp (layout : Layout) (extra : Nat) : List Code :=
  [.emit (capLdrImm rscratch1 rmethod layout.constOffset.bytes),
    .stock (.ldrH rscratch1 rscratch1 layout.maxStackOffset),
    .stock (.addX rscratch1 rscratch1 ((layout.monitorSize + extra : Nat) : Int)),
    .stock (.lslX rscratch1 rscratch1 4),
    .stock (.negX rscratch1 rscratch1),
    .emit (capLdrImm rscratch2 rfp initialSpOffset),
    .emit (some (0xC2A06000 ||| (rscratch1.encoding <<< 16) |||
      (rscratch2.encoding <<< 5) ||| 31))]

/-- The end of `lock_method`, for the object in `r0`. -/
def addMonitor (entrySize objOffset : Nat) : List Code :=
  [.emit (capSubImm .sp .sp entrySize),
    .emit (capSubImm esp esp entrySize),
    movRegister rscratch1 esp,
    .emit (capStrImm rscratch1 rfp initialSpOffset),
    .emit (capStrImm r0 esp objOffset)]

/-- The store of the object in `r0` into the monitor entry in `c_rarg1`. -/
def storeObject (objOffset : Nat) : Code := .emit (capStrImm r0 r1 objOffset)

/-- `prepare_to_jump_from_interpreted` -/
def prepareToJump : List Code :=
  [movRegister r13 .sp, .emit (capStrImm esp rfp lastSpOffset)]

/-- The end of `call_VM_base`: the VM has kept the address of `esp`, but not its
tag. -/
def afterVm : List Code :=
  [getMethod,
    movRegister rscratch1 .sp,
    .stock (.subX rscratch2 esp rscratch1),
    .emit (some (0xC2A06000 ||| (rscratch2.encoding <<< 16) ||| (31 <<< 5) |||
      esp.encoding))]

/-- `leave`: the second word is `ldp c29, c30, [csp], #32`. -/
def leave (cheri : Intrinsics) (cpu : Cpu) : Option Cpu := do
  let cpu ← (Code.emit (some (0x02000000 ||| (29 <<< 5) ||| 31))).exec cheri cpu
  let cpu' ← (Instr.ldp rfp lr .sp 0).exec cheri cpu
  (Instr.addImm .sp .sp 32).exec cheri cpu'

/-- The end of `remove_activation`. -/
def removeActivation (cheri : Intrinsics) (cpu : Cpu) : Option Cpu := do
  let cpu ← run cheri [.emit (capLdrImm rscratch2 rfp senderSpOffset),
    .emit (capAddImm esp rscratch2 0)] cpu
  let cpu ← leave cheri cpu
  run cheri [.emit (capAddImm .sp esp 0)] cpu

/-- What the activations of a thread have in common: the stack, and the
metadata with its narrow fields, which nobody writes. -/
structure World where
  stack : Interpreter.Stack
  metadata : Nat → Option Cap
  data : Nat → Nat
  outside : ∀ a v, metadata a = some v →
    a < stack.cap.base ∨ stack.cap.base + stack.cap.length ≤ a

/-- The end of the stack. -/
def World.top (world : World) : Nat :=
  world.stack.cap.base + world.stack.cap.length

/-- An activation: its method, its frame with the slots that are written once,
and where the part of the stack begins that belongs to its callers. -/
structure Site (world : World) where
  code : Interpreter.Code
  layout : Layout
  frame : Cap
  constMethod : Cap
  fixed : Nat → Cap
  callerStart : Nat

namespace Site

variable {world : World} (site : Site world)

def method : Cap := site.fixed 7

/-- Where the `ConstMethod` is found. -/
def constAddress : Nat :=
  site.method.address + site.layout.constOffset.bytes

/-- `rfp` of the activation. -/
def fp : Cap := site.frame.withAddress (site.frame.address + 16 * 10)

/-- The frame is on the stack, the method is not, and the immediates of the
emitted code can express their values. -/
structure Placed : Prop where
  onStack : OnStack world.stack site.frame
  above : site.frame.address + 16 * 12 ≤ site.callerStart
  inside : site.callerStart ≤ world.top
  monitorSize : site.layout.monitorSize = site.code.monitorSize
  entrySmall : site.code.entrySize < 4096
  objAligned : 16 ∣ site.code.objOffset
  deltaSmall : Interpreter.stackDelta site.code 4 < addressSpace
  reaches : Reaches site.method site.layout.constOffset.bytes
  constMethod : world.metadata site.constAddress = some site.constMethod
  maxStack : Accessible site.constMethod
    (offsetBy site.constMethod site.layout.maxStackOffset) 2
  count : world.data (offsetBy site.constMethod site.layout.maxStackOffset) %
    2 ^ 16 = site.code.maxStack

end Site

/-- What no code of the activation, of its callees and of the VM touches. -/
structure Kept {world : World} (site : Site world) (cpu : Cpu) : Prop where
  framePointer : cpu.read rfp = site.fp
  metadata : ∀ a v, world.metadata a = some v → cpu.mem a = v
  data : cpu.data = world.data
  fixed : ∀ k, 7 ≤ k → k ≠ 8 → k < 12 → slot cpu site.frame k = site.fixed k

/-- A change of the machine that spares the callers, up to a collection that
replaces each word by another one, and what the activation has been given. -/
structure Respects {world : World} (site : Site world) (relocate : Cap → Cap)
    (cpu cpu' : Cpu) : Prop where
  framePointer : cpu'.read rfp = cpu.read rfp
  metadata : ∀ a v, world.metadata a = some v → cpu'.mem a = cpu.mem a
  data : cpu'.data = cpu.data
  fixed : ∀ k, 7 ≤ k → k ≠ 8 → k < 12 →
    slot cpu' site.frame k = slot cpu site.frame k
  caller : ∀ a, site.callerStart ≤ a → a < world.top →
    cpu'.mem a = relocate (cpu.mem a)

section Data

variable {cheri : Intrinsics}

theorem storeAt_data {cpu cpu' : Cpu} {c : Cap} {a : Nat} {v : Cap}
    (stored : cpu.storeAt c a v = some cpu') : cpu'.data = cpu.data := by
  obtain ⟨-, same⟩ := Option.ite_none_right_eq_some.mp stored
  cases same
  rfl

theorem store_data {cpu cpu' : Cpu} {n : Register} {offset : Int} {v : Cap}
    (stored : cpu.store n offset v = some cpu') : cpu'.data = cpu.data :=
  storeAt_data stored

/-- No instruction writes the narrow fields of metadata. -/
theorem exec_data {i : Instr} {cpu cpu' : Cpu}
    (ran : i.exec cheri cpu = some cpu') : cpu'.data = cpu.data := by
  cases i <;>
    simp only [Instr.exec, Option.bind_eq_bind, Option.bind_eq_some_iff,
      Option.some.injEq, Cpu.writeX] at ran <;>
    grind [→ store_data, → storeAt_data, Cpu.write_data, Cpu.setFlags]

theorem run_data {codes : List Code} {cpu cpu' : Cpu}
    (ran : run cheri codes cpu = some cpu') : cpu'.data = cpu.data := by
  induction codes generalizing cpu with
  | nil =>
      cases ran
      rfl
  | cons code codes ih =>
      obtain ⟨mid, first, rest⟩ := Option.bind_eq_some_iff.mp ran
      have same : mid.data = cpu.data := by
        cases code with
        | emit w =>
            obtain ⟨word, rfl, read⟩ := Option.bind_eq_some_iff.mp first
            obtain ⟨i, -, executed⟩ := Option.bind_eq_some_iff.mp read
            exact exec_data executed
        | stock i => exact exec_data first
      rw [ih rest, same]

@[simp] theorem setFlags_data (cpu : Cpu) (flags : Flags) :
    (cpu.setFlags flags).data = cpu.data := rfl

theorem copyLoop_data {entrySize fuel n : Nat} {cpu cpu' : Cpu}
    (looped : MonitorGrowth.copyLoop cheri entrySize fuel cpu =
      some (n, cpu')) : cpu'.data = cpu.data := by
  induction fuel generalizing cpu n with
  | zero => 
      rw [MonitorGrowth.copyLoop] at looped
      exact absurd looped (by simp)
  | succ fuel ih =>
      rw [MonitorGrowth.copyLoop_succ] at looped
      generalize compared : MonitorGrowth.compared cpu = start at looped
      have same : start.data = cpu.data := by
        rw [← compared, MonitorGrowth.compared, setFlags_data]
      split at looped
      · obtain ⟨-, rfl⟩ := Prod.mk.inj (Option.some.inj looped)
        exact same
      · obtain ⟨mid, copied, rest⟩ := Option.bind_eq_some_iff.mp looped
        obtain ⟨⟨m, last⟩, again, ends⟩ := Option.map_eq_some_iff.mp rest
        obtain ⟨-, rfl⟩ := Prod.mk.inj ends
        rw [ih again, run_data copied, same]

theorem growMonitors_data {entrySize fuel n : Nat} {cpu cpu' : Cpu}
    (grown : MonitorGrowth.growMonitors cheri entrySize fuel cpu =
      some (n, cpu')) : cpu'.data = cpu.data := by
  obtain ⟨mid, moved, looped⟩ := Option.bind_eq_some_iff.mp grown
  rw [copyLoop_data looped, run_data moved]

theorem copyLoop_mono {entrySize fuel : Nat} {cpu : Cpu} {result : Nat × Cpu}
    (looped : MonitorGrowth.copyLoop cheri entrySize fuel cpu = some result) :
    MonitorGrowth.copyLoop cheri entrySize (fuel + 1) cpu = some result := by
  induction fuel generalizing cpu result with
  | zero =>
      rw [MonitorGrowth.copyLoop] at looped
      exact absurd looped (by simp)
  | succ fuel ih =>
      rw [MonitorGrowth.copyLoop_succ] at looped ⊢
      split at looped
      · rename_i stops
        rwa [if_pos stops]
      · rename_i goesOn
        rw [if_neg goesOn]
        obtain ⟨mid, copied, rest⟩ := Option.bind_eq_some_iff.mp looped
        obtain ⟨last, again, ends⟩ := Option.map_eq_some_iff.mp rest
        rw [copied, Option.bind_some, ih again, Option.map_some, ends]

theorem growMonitors_mono {entrySize fuel : Nat} {cpu : Cpu}
    {result : Nat × Cpu}
    (grown : MonitorGrowth.growMonitors cheri entrySize fuel cpu =
      some result) (more : Nat) :
    MonitorGrowth.growMonitors cheri entrySize (fuel + more) cpu =
      some result := by
  induction more with
  | zero => exact grown
  | succ more ih =>
      obtain ⟨mid, moved, looped⟩ := Option.bind_eq_some_iff.mp ih
      exact Option.bind_eq_some_iff.mpr ⟨mid, moved, copyLoop_mono looped⟩

end Data

section OnStack

variable {cheri : Intrinsics} {world : World} {c : Cap}

theorem base_of_onStack (onStack : OnStack world.stack c) :
    c.base = world.stack.cap.base := by
  rw [onStack.derived]

theorem top_of_onStack (onStack : OnStack world.stack c) :
    c.base + c.length = world.top := by
  rw [onStack.derived]
  rfl

theorem word_of_onStack (onStack : OnStack world.stack c) :
    c.address < addressSpace :=
  Nat.lt_of_le_of_lt onStack.upper world.stack.inSpace

theorem moveBy_zero_of_onStack (laws : cheri.Laws)
    (onStack : OnStack world.stack c) : moveBy cheri c 0 = c := by
  have lower := onStack.lower
  have upper := onStack.upper
  have base := base_of_onStack onStack
  have top := top_of_onStack onStack
  rw [World.top] at top
  exact moveBy_zero laws (word_of_onStack onStack) (by omega) (by omega)

theorem reaches_of_onStack (onStack : OnStack world.stack c) {offset : Nat}
    (inside : c.address + offset + 16 ≤ world.top) (aligned : 16 ∣ offset) :
    Reaches c offset := by
  have lower := onStack.lower
  have base := base_of_onStack onStack
  have top := top_of_onStack onStack
  have inSpace := world.stack.inSpace
  rw [World.top] at inside top
  exact ⟨onStack.tag, by omega, by omega, by omega,
    Nat.dvd_add onStack.aligned aligned⟩

theorem onStack_withAddress (onStack : OnStack world.stack c) {a : Nat}
    (lower : world.stack.cap.base ≤ a) (upper : a ≤ world.top)
    (aligned : 16 ∣ a) : OnStack world.stack (c.withAddress a) := by
  refine ⟨?_, lower, upper, aligned⟩
  rw [Cap.withAddress, onStack.derived]

end OnStack

section Slots

variable {cheri : Intrinsics} {world : World} {site : Site world} {cpu : Cpu}

theorem Respects.refl : Respects site id cpu cpu where
  framePointer := rfl
  metadata := fun _ _ _ => rfl
  data := rfl
  fixed := fun _ _ _ _ => rfl
  caller := fun _ _ _ => rfl

theorem Respects.trans {relocate relocate' : Cap → Cap} {mid cpu' : Cpu}
    (first : Respects site relocate cpu mid)
    (second : Respects site relocate' mid cpu') :
    Respects site (relocate' ∘ relocate) cpu cpu' where
  framePointer := second.framePointer.trans first.framePointer
  metadata := fun a v present =>
    (second.metadata a v present).trans (first.metadata a v present)
  data := second.data.trans first.data
  fixed := fun k lower notLast upper =>
    (second.fixed k lower notLast upper).trans (first.fixed k lower notLast upper)
  caller := by
    intro a lower upper
    rw [second.caller a lower upper, first.caller a lower upper]
    rfl

theorem Respects.write {relocate : Cap → Cap} {cpu' : Cpu}
    (respects : Respects site relocate cpu cpu') {r : Register}
    (other : r ≠ rfp) (v : Cap) :
    Respects site relocate cpu (cpu'.write r v) where
  framePointer := by
    rw [Cpu.read_write_of_ne _ _ other.symm, respects.framePointer]
  metadata := by
    intro a w present
    rw [Cpu.write_mem, respects.metadata a w present]
  data := by rw [Cpu.write_data, respects.data]
  fixed := by
    intro k lower notLast upper
    rw [slot_write, respects.fixed k lower notLast upper]
  caller := by
    intro a lower upper
    rw [Cpu.write_mem, respects.caller a lower upper]

theorem Respects.setMem {relocate : Cap → Cap} {cpu' : Cpu}
    (placed : site.Placed) (respects : Respects site relocate cpu cpu') {a : Nat}
    (lower : world.stack.cap.base ≤ a)
    (own : a ≤ site.frame.address ∨ a = site.frame.address + 16 * 8) (v : Cap) :
    Respects site relocate cpu (cpu'.setMem a v) where
  framePointer := by rw [Cpu.read_setMem, respects.framePointer]
  metadata := by
    intro b w present
    have outside := world.outside b w present
    have above := placed.above
    have inside := placed.inside
    rw [World.top] at inside
    rw [Cpu.setMem_mem, Function.update_of_ne (by omega),
      respects.metadata b w present]
  data := respects.data
  fixed := by
    intro k lower notLast upper
    rw [slot, Cpu.setMem_mem, Function.update_of_ne (by omega)]
    exact respects.fixed k lower notLast upper
  caller := by
    intro b lower upper
    have above := placed.above
    rw [Cpu.setMem_mem, Function.update_of_ne (by omega),
      respects.caller b lower upper]

/-- Changes between the end of the stack and the frame. -/
theorem Respects.ofFrame (placed : site.Placed) {cpu' : Cpu}
    (framePointer : cpu'.read rfp = cpu.read rfp)
    (data : cpu'.data = cpu.data)
    (below : ∀ a, a < world.stack.cap.base → cpu'.mem a = cpu.mem a)
    (above : ∀ a, site.frame.address < a → cpu'.mem a = cpu.mem a) :
    Respects site id cpu cpu' where
  framePointer := framePointer
  metadata := by
    intro a v present
    have inside := placed.inside
    have frameAbove := placed.above
    rw [World.top] at inside
    rcases world.outside a v present with lower | upper
    · exact below a lower
    · exact above a (by omega)
  data := data
  fixed := fun k _ _ _ => above _ (by omega)
  caller := by
    intro a lower _
    have frameAbove := placed.above
    exact above a (by omega)

theorem Respects.kept {relocate : Cap → Cap} {cpu' : Cpu}
    (respects : Respects site relocate cpu cpu') (kept : Kept site cpu) :
    Kept site cpu' where
  framePointer := respects.framePointer.trans kept.framePointer
  metadata := fun a v present =>
    (respects.metadata a v present).trans (kept.metadata a v present)
  data := respects.data.trans kept.data
  fixed := fun k lower notLast upper =>
    (respects.fixed k lower notLast upper).trans
      (kept.fixed k lower notLast upper)

theorem Kept.write (kept : Kept site cpu) {r : Register} (other : r ≠ rfp)
    (v : Cap) : Kept site (cpu.write r v) :=
  (Respects.refl.write other v).kept kept

theorem Kept.slotAt (placed : site.Placed) (kept : Kept site cpu) {k : Nat}
    (below : k < 10) :
    offsetBy (cpu.read rfp) (memOffset (16 * k - 160)) =
        site.frame.address + 16 * k ∧
      Accessible (cpu.read rfp) (site.frame.address + 16 * k) 16 := by
  have above := placed.above
  have inside := placed.inside
  have inSpace := world.stack.inSpace
  have lower := placed.onStack.lower
  have base := base_of_onStack placed.onStack
  have top := top_of_onStack placed.onStack
  rw [World.top] at inside top
  have offset : memOffset (16 * k - 160) = 16 * k - 160 :=
    (memOffset_eq_iff _).mpr (.inr (by omega))
  rw [kept.framePointer, offset]
  constructor
  · apply offsetBy_eq
    · simp only [Site.fp, Cap.withAddress_address]
      omega
    · omega
  · refine ⟨placed.onStack.tag, ?_, ?_, ?_⟩
    · rw [Site.fp, Cap.withAddress_base]
      omega
    · rw [Site.fp, Cap.withAddress_base, Cap.withAddress_length]
      omega
    · exact Nat.dvd_add placed.onStack.aligned (Nat.dvd_mul_right 16 k)

theorem Kept.exec_ldrSlot (placed : site.Placed) (kept : Kept site cpu) {k : Nat}
    (below : k < 10) {t : Register} (gpr : t.IsGpr) {imm : Int}
    (same : imm = 16 * k - 160) :
    (Code.emit (capLdrImm t rfp imm)).exec cheri cpu =
      some (cpu.write t (slot cpu site.frame k)) := by
  obtain ⟨there, accessible⟩ := kept.slotAt placed below
  rw [← same] at there
  exact exec_capLdrImm_at cpu gpr (Register.isGpr_c 29) there accessible

theorem Kept.exec_strSlot (placed : site.Placed) (kept : Kept site cpu) {k : Nat}
    (below : k < 10) {t : Register} (gpr : t.IsGpr) {imm : Int}
    (same : imm = 16 * k - 160) :
    (Code.emit (capStrImm t rfp imm)).exec cheri cpu =
      some (cpu.setMem (site.frame.address + 16 * k) (cpu.read t)) := by
  obtain ⟨there, accessible⟩ := kept.slotAt placed below
  rw [← same] at there
  exact exec_capStrImm_at cpu gpr (Register.isGpr_c 29) there accessible

theorem Kept.exec_getMethod (placed : site.Placed) (kept : Kept site cpu) :
    getMethod.exec cheri cpu = some (cpu.write rmethod site.method) := by
  have loaded : getMethod.exec cheri cpu = _ :=
    kept.exec_ldrSlot placed (k := 7) (by decide) (Register.isGpr_c 12) rfl
  rw [loaded, kept.fixed 7 (by decide) (by decide) (by decide)]
  rfl

theorem Kept.exec_clearLastSp (placed : site.Placed) (kept : Kept site cpu) :
    clearLastSp.exec cheri cpu =
      some (cpu.setMem (site.frame.address + 16 * 8)
        (withLow (slot cpu site.frame 8) 0)) := by
  obtain ⟨there, accessible⟩ := kept.slotAt placed (k := 8) (by decide)
  have offset : memOffset (16 * (8 : Nat) - 160) = lastSpOffset := rfl
  rw [offset] at there
  rw [clearLastSp, Code.exec, Instr.exec, there,
    Cpu.store_at there accessible]
  rfl

end Slots

section Pieces

variable {cheri : Intrinsics} {world : World} {site : Site world} {cpu : Cpu}

/-- The state after `restoreEsp` or `emptyExpressionStack`. -/
def espTaken (site : Site world) (k : Nat) (cpu : Cpu) : Cpu :=
  (cpu.write esp (slot cpu site.frame k)).setMem (site.frame.address + 16 * 8)
    (withLow (slot cpu site.frame 8) 0)

@[simp] theorem espTaken_esp (k : Nat) :
    (espTaken site k cpu).read esp = slot cpu site.frame k := by
  simp [espTaken]

@[simp] theorem espTaken_sp (k : Nat) :
    (espTaken site k cpu).read .sp = cpu.read .sp := by
  simp [espTaken]

/-- Only the slot for the last `sp` is written. -/
@[simp] theorem slot_espTaken (k : Nat) :
    slot (espTaken site k cpu) site.frame 0 = slot cpu site.frame 0 := by
  rw [espTaken, slot_setMem, if_neg (by decide), slot_write]

theorem espTaken_respects (placed : site.Placed) (k : Nat) :
    Respects site id cpu (espTaken site k cpu) := by
  have lower := placed.onStack.lower
  exact (Respects.refl.write (by simp) _).setMem placed (by omega) (.inr rfl) _

theorem run_takeEsp (placed : site.Placed) (kept : Kept site cpu) {k : Nat}
    (below : k < 10) {imm : Int} (same : imm = 16 * k - 160) :
    run cheri [.emit (capLdrImm esp rfp imm), clearLastSp] cpu =
      some (espTaken site k cpu) := by
  have cleared : clearLastSp.exec cheri
      (cpu.write esp (slot cpu site.frame k)) = _ :=
    (kept.write (by simp) _).exec_clearLastSp placed
  rw [slot_write] at cleared
  rw [run_cons (kept.exec_ldrSlot placed below (Register.isGpr_c 20) same),
    run_cons cleared]
  rfl

theorem run_restoreEsp (placed : site.Placed) (kept : Kept site cpu) :
    run cheri restoreEsp cpu = some (espTaken site 8 cpu) :=
  run_takeEsp placed kept (by decide) rfl

theorem run_emptyExpressionStack (placed : site.Placed) (kept : Kept site cpu) :
    run cheri emptyExpressionStack cpu = some (espTaken site 0 cpu) :=
  run_takeEsp placed kept (by decide) rfl

theorem capAdd_eq_moveBy (c : Cap) (n : Nat) :
    Interpreter.capAdd cheri c n = moveBy cheri c (n : Int) := by
  rw [Interpreter.capAdd, moveBy, offsetBy]
  congr 1

theorem run_popParameters (cheri : Intrinsics) {params : Nat}
    (number : cpu.read r1 = Cap.ofInt params)
    (small : params * 16 < addressSpace) (rest : List Code) :
    run cheri (popParameters ++ rest) cpu =
      run cheri rest ((cpu.writeX rscratch1 (params * 16)).write esp
        (Interpreter.capAdd cheri (cpu.read esp) (params * 16))) := by
  have shifted : (Code.stock (.lslX rscratch1 r1 4)).exec cheri cpu =
      some (cpu.writeX rscratch1 (params * 16)) := by
    simp only [Code.exec, Instr.exec, number, Cap.ofInt_address]
    rfl
  have added : (Code.emit (capAddReg esp esp rscratch1)).exec cheri
      (cpu.writeX rscratch1 (params * 16)) = _ :=
    exec_capAddReg _ (Register.isGpr_c 20) (Register.isGpr_c 20)
      (Register.isGpr_c 8)
  have here : ((cpu.writeX rscratch1 (params * 16)).read rscratch1).address =
      params * 16 := by
    rw [Cpu.read_writeX_self _ (by simp) small, Cap.ofInt_address]
  have same : (cpu.writeX rscratch1 (params * 16)).read esp = cpu.read esp :=
    Cpu.read_write_of_ne _ _ (by simp)
  rw [here, same, ← capAdd_eq_moveBy] at added
  rw [popParameters, List.cons_append, List.cons_append, run_cons shifted,
    run_cons added]
  rfl

/-- The state after `csp` has been rebuilt. -/
def cspRebuilt (cheri : Intrinsics) (site : Site world) (extra : Nat) (cpu : Cpu) :
    Cpu :=
  ((cpu.writeX rscratch1
      (addressSpace - Interpreter.stackDelta site.code extra)).write rscratch2
        (slot cpu site.frame 0)).write .sp
    (Interpreter.capSub cheri (slot cpu site.frame 0)
      (Interpreter.stackDelta site.code extra))

theorem run_rebuildCsp (placed : site.Placed) (kept : Kept site cpu)
    (method : cpu.read rmethod = site.method) {extra : Nat}
    (small : Interpreter.stackDelta site.code extra < addressSpace) :
    run cheri (rebuildCsp site.layout extra) cpu =
      some (cspRebuilt cheri site extra cpu) := by
  have gpr := Register.isGpr_c
  generalize delta : Interpreter.stackDelta site.code extra = d at small
  have slots : (site.code.maxStack + (site.layout.monitorSize + extra)) * 2 ^ 4 =
      d := by
    rw [placed.monitorSize, ← Nat.add_assoc]
    exact delta
  have word : site.code.maxStack + (site.layout.monitorSize + extra) <
      addressSpace := by omega
  have reaches := placed.reaches
  rw [← method] at reaches
  have const : (Code.emit (capLdrImm rscratch1 rmethod
      site.layout.constOffset.bytes)).exec cheri cpu =
        some (cpu.write rscratch1 site.constMethod) := by
    rw [exec_capLdrImm_slot cpu (gpr 8) (gpr 12)
      site.layout.constOffset.memOffset reaches, method]
    exact congrArg (fun v => some (cpu.write rscratch1 v))
      (kept.metadata _ _ placed.constMethod)
  have count : (Code.stock (.ldrH rscratch1 rscratch1
      site.layout.maxStackOffset)).exec cheri
        (cpu.write rscratch1 site.constMethod) =
          some (cpu.writeX rscratch1 site.code.maxStack) := by
    rw [Code.exec, Instr.exec, Cpu.loadData,
      Cpu.read_write_self _ _ (by simp), if_pos placed.maxStack, Cpu.write_data]
    change some (Cpu.writeX _ rscratch1 _) = _
    rw [kept.data, placed.count, Cpu.writeX, Cpu.writeX, Cpu.write_write]
  have added : (Code.stock (.addX rscratch1 rscratch1
      ((site.layout.monitorSize + extra : Nat) : Int))).exec cheri
        (cpu.writeX rscratch1 site.code.maxStack) =
          some (cpu.writeX rscratch1
            (site.code.maxStack + (site.layout.monitorSize + extra))) := by
    have sum : offsetBy (Cap.ofInt site.code.maxStack)
        ((site.layout.monitorSize + extra : Nat) : Int) =
          site.code.maxStack + (site.layout.monitorSize + extra) :=
      offsetBy_eq (by rw [Cap.ofInt_address]; omega) word
    rw [Code.exec, Instr.exec, Cpu.read_writeX_self _ (by simp) (by omega), sum,
      Cpu.writeX_writeX]
  have shifted (rest : List Code) :
      run cheri (.stock (.lslX rscratch1 rscratch1 4) ::
        .stock (.negX rscratch1 rscratch1) :: rest) _ = _ :=
    run_negatedSlots (Cpu.read_writeX_self cpu (r := rscratch1) (by simp) word)
      (by simp) rest
  rw [slots, Nat.mod_eq_of_lt small, Cpu.writeX_writeX, Cpu.writeX_writeX]
    at shifted
  have bottom : (Code.emit (capLdrImm rscratch2 rfp initialSpOffset)).exec cheri
      (cpu.writeX rscratch1 (addressSpace - d)) = _ :=
    (kept.write (r := rscratch1) (by simp) _).exec_ldrSlot placed (k := 0)
      (by decide) (gpr 9) rfl
  rw [slot_write] at bottom
  have lowered : ∀ cpu' : Cpu, (Code.emit (some (0xC2A06000 |||
      (rscratch1.encoding <<< 16) ||| (rscratch2.encoding <<< 5) ||| 31))).exec
        cheri cpu' = some (cpu'.write .sp (moveBy cheri (cpu'.read rscratch2)
          (cpu'.read rscratch1).address)) := fun cpu' =>
    exec_emit_of_decode cpu' (i := .addReg .sp rscratch2 rscratch1) (by decide)
  rw [rebuildCsp, run_cons const, run_cons count, run_cons added, shifted,
    run_cons bottom, run_cons (lowered _)]
  rw [cspRebuilt, delta, capSub_eq_moveBy_neg _ (Nat.le_of_lt small),
    Cpu.read_write_self _ _ (by simp), Cpu.read_write_of_ne _ _ (by simp)]
  simp [run, Cpu.writeX]

/-- The state after `lock_method` has made room for the entry. -/
def monitorAdded (cheri : Intrinsics) (site : Site world) (cpu : Cpu) : Cpu :=
  let lowered := Interpreter.capSub cheri (cpu.read esp) site.code.entrySize
  ((((cpu.write .sp (Interpreter.capSub cheri (cpu.read .sp)
      site.code.entrySize)).write esp lowered).write rscratch1 lowered).setMem
        (site.frame.address + 16 * 0) lowered).setMem
    (lowered.address + site.code.objOffset) (cpu.read r0)

theorem run_addMonitor (placed : site.Placed) (kept : Kept site cpu)
    (reaches : Reaches (Interpreter.capSub cheri (cpu.read esp)
      site.code.entrySize) site.code.objOffset) :
    run cheri (addMonitor site.code.entrySize site.code.objOffset) cpu =
      some (monitorAdded cheri site cpu) := by
  have small := placed.entrySmall
  have aligned := placed.objAligned
  have inEntry := site.code.objInEntry
  have entry : site.code.entrySize = site.code.monitorSize * 16 := rfl
  have word : Interpreter.wordSize = 16 := rfl
  rw [word] at inEntry
  have lowers : ∀ {r : Register} (cpu' : Cpu), r ≠ .zr →
      (Code.emit (capSubImm r r site.code.entrySize)).exec cheri cpu' =
        some (cpu'.write r (Interpreter.capSub cheri (cpu'.read r)
          site.code.entrySize)) := by
    intro r cpu' real
    have cut : (site.code.entrySize : Int) % 4096 = site.code.entrySize := by
      omega
    rw [exec_capSubImm cpu' real real, cut, capSub_eq_moveBy _
      (Nat.le_trans (Nat.le_of_lt small) (by decide))]
  have copied : ∀ cpu' : Cpu, (movRegister rscratch1 esp).exec cheri cpu' =
      some (cpu'.write rscratch1 (cpu'.read esp)) := fun cpu' =>
    exec_movRegister cpu' (Register.isGpr_c 8) (Register.isGpr_c 20)
  have bottom : ∀ cpu' : Cpu, Kept site cpu' →
      (Code.emit (capStrImm rscratch1 rfp initialSpOffset)).exec cheri cpu' =
        some (cpu'.setMem (site.frame.address + 16 * 0)
          (cpu'.read rscratch1)) := fun cpu' kept' =>
    kept'.exec_strSlot placed (by decide) (Register.isGpr_c 8) rfl
  have object : ∀ cpu' : Cpu, cpu'.read esp = Interpreter.capSub cheri
      (cpu.read esp) site.code.entrySize →
      (Code.emit (capStrImm r0 esp site.code.objOffset)).exec cheri cpu' =
        some (cpu'.setMem ((cpu'.read esp).address + site.code.objOffset)
          (cpu'.read r0)) := by
    intro cpu' here
    exact exec_capStrImm_slot cpu' (Register.isGpr_c 0) (Register.isGpr_c 20)
      ((memOffset_eq_iff _).mpr (.inl ⟨by omega, by omega, by omega⟩))
      (here ▸ reaches)
  have kept' : ∀ v w x, Kept site
      (((cpu.write .sp v).write esp w).write rscratch1 x) := fun v w x =>
    ((kept.write (by simp) v).write (by simp) w).write (by simp) x
  rw [addMonitor, run_cons (lowers _ (by simp)), run_cons (lowers _ (by simp)),
    run_cons (copied _), run_cons (bottom _ (kept' _ _ _)),
    run_cons (object _ (by simp))]
  simp [run, monitorAdded]

/-- The sender `sp` for the callee, and `esp` for the return. -/
theorem run_prepareToJump (placed : site.Placed) (kept : Kept site cpu) :
    run cheri prepareToJump cpu =
      some ((cpu.write r13 (moveBy cheri (cpu.read .sp) 0)).setMem
        (site.frame.address + 16 * 8) (cpu.read esp)) := by
  have sender : (movRegister r13 .sp).exec cheri cpu =
      some (cpu.write r13 (moveBy cheri (cpu.read .sp) 0)) :=
    exec_emit_of_decode cpu (i := .addImm r13 .sp 0) (by decide)
  have saved : (Code.emit (capStrImm esp rfp lastSpOffset)).exec cheri
      (cpu.write r13 (moveBy cheri (cpu.read .sp) 0)) = _ :=
    (kept.write (by simp) _).exec_strSlot placed (k := 8) (by decide)
      (Register.isGpr_c 20) rfl
  rw [Cpu.read_write_of_ne _ _ (by simp)] at saved
  rw [prepareToJump, run_cons sender, run_cons saved]
  rfl

/-- After a call of the VM `rmethod` is the method and `esp` is a capability
for the stack again, although only its address has come back. -/
theorem run_afterVm (laws : cheri.Laws) (placed : site.Placed)
    (kept : Kept site cpu) (pointer : OnStack world.stack (cpu.read .sp))
    {e : Cap} (onStack : OnStack world.stack e)
    (came : (cpu.read esp).address = e.address)
    (above : (cpu.read .sp).address ≤ e.address) :
    run cheri afterVm cpu =
      some ((((cpu.write rmethod site.method).write rscratch1
        (cpu.read .sp)).writeX rscratch2
          (e.address - (cpu.read .sp).address)).write esp e) := by
  have word := word_of_onStack onStack
  have lower := onStack.lower
  have upper := onStack.upper
  have base := base_of_onStack pointer
  have top := top_of_onStack pointer
  rw [World.top] at top
  have stays := moveBy_zero_of_onStack laws pointer
  have method : getMethod.exec cheri cpu =
      some (cpu.write rmethod site.method) := kept.exec_getMethod placed
  have pointed : (movRegister rscratch1 .sp).exec cheri
      (cpu.write rmethod site.method) =
        some ((cpu.write rmethod site.method).write rscratch1
          (cpu.read .sp)) := by
    have moved : (movRegister rscratch1 .sp).exec cheri
        (cpu.write rmethod site.method) = _ :=
      exec_emit_of_decode _ (i := .addImm rscratch1 .sp 0) (by decide)
    rw [moved, Instr.exec, Cpu.read_write_of_ne _ _ (by simp), stays]
  have distance : offsetBy (cpu.read esp) (-((cpu.read .sp).address : Int)) =
      e.address - (cpu.read .sp).address :=
    offsetBy_eq (by omega) (by omega)
  have measured : (Code.stock (.subX rscratch2 esp rscratch1)).exec cheri
      ((cpu.write rmethod site.method).write rscratch1 (cpu.read .sp)) =
        some (((cpu.write rmethod site.method).write rscratch1
          (cpu.read .sp)).writeX rscratch2
            (e.address - (cpu.read .sp).address)) := by
    rw [Code.exec, Instr.exec, Cpu.read_write_self _ _ (by simp),
      Cpu.read_write_of_ne _ _ (by simp), Cpu.read_write_of_ne _ _ (by simp),
      distance]
  have rebuilt : moveBy cheri (cpu.read .sp)
      ((e.address - (cpu.read .sp).address : Nat) : Int) = e := by
    rw [moveBy_eq laws (a := e.address) (by omega) (by omega) (by omega)
      (by omega), Cap.withAddress, pointer.derived]
    exact onStack.derived.symm
  have added : ∀ cpu' : Cpu, (Code.emit (some (0xC2A06000 |||
      (rscratch2.encoding <<< 16) ||| (31 <<< 5) ||| esp.encoding))).exec cheri
        cpu' = some (cpu'.write esp (moveBy cheri (cpu'.read .sp)
          (cpu'.read rscratch2).address)) := fun cpu' =>
    exec_emit_of_decode cpu' (i := .addReg esp .sp rscratch2) (by decide)
  rw [afterVm, run_cons method, run_cons pointed, run_cons measured,
    run_cons (added _), Cpu.read_writeX_self _ (by simp) (by omega),
    Cap.ofInt_address, Cpu.writeX, Cpu.read_write_of_ne _ _ (by simp),
    Cpu.read_write_of_ne _ _ (by simp), Cpu.read_write_of_ne _ _ (by simp),
    rebuilt]
  rfl

theorem run_removeActivation (laws : cheri.Laws) (placed : site.Placed)
    (kept : Kept site cpu) (sender : OnStack world.stack (site.fixed 9)) :
    ∃ cpu', removeActivation cheri cpu = some cpu' ∧ cpu'.mem = cpu.mem ∧
      cpu'.data = cpu.data ∧ cpu'.read esp = site.fixed 9 ∧
      cpu'.read .sp = site.fixed 9 ∧ cpu'.read rfp = site.fixed 10 ∧
      cpu'.read lr = site.fixed 11 := by
  have above := placed.above
  have inside := placed.inside
  have slotFixed : ∀ k, 9 ≤ k → k < 12 →
      cpu.mem (site.frame.address + 16 * k) = site.fixed k := by
    intro k lower upper
    exact kept.fixed k (by omega) (by omega) upper
  generalize saved : site.fixed 9 = s at sender
  have loaded : (Code.emit (capLdrImm rscratch2 rfp senderSpOffset)).exec cheri
      cpu = some (cpu.write rscratch2 s) := by
    have found : (Code.emit (capLdrImm rscratch2 rfp senderSpOffset)).exec cheri
        cpu = _ :=
      kept.exec_ldrSlot placed (k := 9) (by decide) (Register.isGpr_c 9) rfl
    rw [found, slot, slotFixed 9 (by decide) (by decide), saved]
  have restored : (Code.emit (capAddImm esp rscratch2 0)).exec cheri
      (cpu.write rscratch2 s) = some ((cpu.write rscratch2 s).write esp s) := by
    rw [exec_capAddImm _ (by simp) (by simp), Cpu.read_write_self _ _ (by simp)]
    exact congrArg (fun v => some (Cpu.write _ esp v))
      (moveBy_zero_of_onStack laws sender)
  have fp : OnStack world.stack site.fp := by
    have lower := placed.onStack.lower
    exact onStack_withAddress placed.onStack (by omega) (by omega)
      (Nat.dvd_add placed.onStack.aligned (Nat.dvd_mul_right 16 10))
  have framed : ((cpu.write rscratch2 s).write esp s).read rfp = site.fp := by
    rw [Cpu.read_write_of_ne _ _ (by simp), Cpu.read_write_of_ne _ _ (by simp),
      kept.framePointer]
  have anchored : (Code.emit (some (0x02000000 ||| (29 <<< 5) ||| 31))).exec
      cheri ((cpu.write rscratch2 s).write esp s) =
        some (((cpu.write rscratch2 s).write esp s).write .sp site.fp) := by
    rw [exec_emit_of_decode _ (i := .addImm .sp rfp 0) (by decide), Instr.exec,
      framed, moveBy_zero_of_onStack laws fp]
  have reaches : ∀ k, k ≤ 1 → Reaches site.fp (16 * k) := by
    intro k small
    have address : site.fp.address = site.frame.address + 16 * 10 := rfl
    exact reaches_of_onStack fp (by omega) (Nat.dvd_mul_right 16 k)
  have loads : ∀ k, k ≤ 1 →
      (((cpu.write rscratch2 s).write esp s).write .sp site.fp).load .sp
        (16 * k : Nat) =
          some (site.fixed (10 + k)) := by
    intro k small
    have there := reaches k small
    rw [Cpu.load_reaches (by rwa [Cpu.read_write_self _ _ (by simp)]),
      Cpu.write_mem, Cpu.write_mem, Cpu.write_mem,
      Cpu.read_write_self _ _ (by simp), ← slotFixed _ (by omega) (by omega)]
    congr 2
    change site.frame.address + 16 * 10 + 16 * k = _
    omega
  have popped : (Instr.ldp rfp lr .sp 0).exec cheri
      (((cpu.write rscratch2 s).write esp s).write .sp site.fp) =
        some (((((cpu.write rscratch2 s).write esp s).write .sp site.fp).write
          rfp (site.fixed 10)).write lr (site.fixed 11)) := by
    have first := loads 0 (by decide)
    have second := loads 1 (by decide)
    have zero : ((16 * 0 : Nat) : Int) = 0 := rfl
    have one : ((16 * 1 : Nat) : Int) = 0 + 16 := rfl
    rw [zero] at first
    rw [one] at second
    rw [Instr.exec, first, Option.bind_eq_bind, Option.bind_some, second]
    rfl
  have copied : ∀ cpu' : Cpu, cpu'.read esp = s →
      run cheri [.emit (capAddImm .sp esp 0)] cpu' = some (cpu'.write .sp s) := by
    intro cpu' here
    have moved : (Code.emit (capAddImm .sp esp 0)).exec cheri cpu' = _ :=
      exec_capAddImm cpu' (by simp) (by simp) 0
    rw [run_cons moved, here]
    exact congrArg (fun v => some (cpu'.write .sp v))
      (moveBy_zero_of_onStack laws sender)
  have ran : removeActivation cheri cpu =
      some ((((((cpu.write rscratch2 s).write esp s).write .sp site.fp).write
        rfp (site.fixed 10)).write lr (site.fixed 11)).write .sp s) := by
    rw [removeActivation, run_cons loaded, run_cons restored]
    change (leave cheri _).bind _ = _
    rw [leave, anchored, Option.bind_eq_bind, Option.bind_some, popped,
      Option.bind_some, Instr.exec, Option.bind_some, copied _ (by simp),
      Cpu.write_write]
  exact ⟨_, ran, by simp, by simp, by simp, by simp, by simp, by simp⟩

end Pieces

section Entry

variable {cheri : Intrinsics} {layout : Layout} {found : Found} {cpu : Cpu}

theorem run_moveSp_others {frame : Cap} {slots : Nat}
    (metadata : Metadata layout (cpu.read rmethod) found frame slots cpu.mem)
    (bytecodes : Bytecodes layout found.constMethod) {cpu' : Cpu}
    (ran : run cheri (moveSp layout) cpu = some cpu') {r : Register}
    (notScratch : r ≠ rscratch1) (notSp : r ≠ .sp) :
    cpu'.read r = cpu.read r := by
  have goes : ∃ last, run cheri (moveSp layout) cpu = some last ∧
      last.read r = cpu.read r := by
    rw [moveSp, run_maxStack cheri metadata bytecodes]
    refine run_invariant ?_ (by simp [Cpu.writeX, notScratch])
    intro code member next kept
    simp only [List.mem_cons, List.not_mem_nil, or_false] at member
    rcases member with rfl | rfl | rfl | rfl
    · exact ⟨_, rfl, by simpa [Cpu.writeX, notScratch] using kept⟩
    · exact ⟨_, rfl, by simpa [Cpu.writeX, notScratch] using kept⟩
    · exact ⟨_, rfl, by simpa [Cpu.writeX, notScratch] using kept⟩
    · have lowered : (Code.emit (some (0xC2A06000 |||
          (rscratch1.encoding <<< 16) ||| (31 <<< 5) ||| 31))).exec cheri
            next = _ :=
        exec_emit_of_decode next (i := .addReg .sp .sp rscratch1) (by decide)
      exact ⟨_, lowered, by simpa [notSp] using kept⟩
  obtain ⟨last, ran', same⟩ := goes
  obtain rfl := Option.some.inj (ran.symm.trans ran')
  exact same

theorem storePair_outside {frame : Cap} {k : Nat} (below : k + 1 < 12)
    (v w : Cap) {a : Nat}
    (outside : a < frame.address ∨ frame.address + 16 * 12 ≤ a) :
    (storePair cpu frame k v w).mem a = cpu.mem a := by
  rw [storePair, Cpu.setMem_mem, Function.update_of_ne (by omega),
    Cpu.setMem_mem, Function.update_of_ne (by omega)]

/-- What an entered method finds: its frame, and everything else as it was. -/
structure Entered (layout : Layout) (found : Found) (cpu cpu' : Cpu) :
    Prop where
  rfp : cpu'.read rfp = (frame false cpu).withAddress
    ((frame false cpu).address + 16 * 10)
  method : cpu'.read rmethod = cpu.read rmethod
  esp : cpu'.read esp = frame false cpu
  slots : ∀ k, k < 12 →
    slot cpu' (frame false cpu) k = stored layout false found cpu k
  outside : ∀ a, a < (frame false cpu).address ∨
    (frame false cpu).address + 16 * 12 ≤ a → cpu'.mem a = cpu.mem a
  data : cpu'.data = cpu.data

theorem generateFixedFrame_enters (laws : cheri.Laws)
    (ready : Ready layout false found cpu) {mdp : Option Cap} {cpu' : Cpu}
    (ran : generateFixedFrame cheri layout false mdp cpu = some cpu') :
    Entered layout found cpu cpu' := by
  have prologue := run_prologue_interpreted laws ready
  have claimed := claimed_interpreted ready
  have outside : ∀ a, a < (frame false cpu).address ∨
      (frame false cpu).address + 16 * 12 ≤ a →
      (claimedInterpreted layout found cpu).mem a = cpu.mem a := by
    intro a far
    rw [claimedInterpreted, Cpu.write_mem, storePair_outside (by decide) _ _ far,
      Cpu.write_mem, Cpu.write_mem, Cpu.write_mem]
  -- with and without profiling
  have go : ∀ (start : Cpu) (profile : Bool),
      Claimed layout false found cpu start →
      (∀ a, a < (frame false cpu).address ∨
        (frame false cpu).address + 16 * 12 ≤ a →
        start.mem a = cpu.mem a) →
      (run cheri (storeMethod profile ++ storeMirror layout ++
        storeCache layout ++ storeLinks) start).bind
          (run cheri (moveSp layout)) = some cpu' →
      Entered layout found cpu cpu' := by
    intro start profile claimed same moves
    have metadata := claimed.metadata
    rw [← claimed.method] at metadata
    rw [run_pairs laws metadata ready.room (by decide) claimed.sp profile,
      Option.bind_some] at moves
    generalize start.read (if profile then rscratch1 else .c 0) = mdp at moves
    have filled := claimed.paired mdp
    have found := filled.metadata
    rw [← filled.method] at found
    obtain ⟨last, moved, mem, rfp⟩ :=
      run_moveSp cheri found (ready.bytecodes rfl)
    obtain rfl := Option.some.inj (moves.symm.trans moved)
    have others {r : Register} (notScratch : r ≠ rscratch1) (notSp : r ≠ .sp) :=
      run_moveSp_others found (ready.bytecodes rfl) moved notScratch notSp
    constructor
    · exact rfp.trans filled.rfp
    · exact (others (by simp) (by simp)).trans filled.method
    · exact (others (by simp) (by simp)).trans filled.esp
    · intro k below
      rw [slot, mem]
      exact filled.slots k below
    · intro a far
      rw [mem]
      simp only [paired]
      rw [storePair_outside (k := 8) (by decide) _ _ far, Cpu.write_mem,
        storePair_outside (k := 10) (by decide) _ _ far,
        storePair_outside (k := 2) (by decide) _ _ far, Cpu.write_mem,
        storePair_outside (k := 5) (by decide) _ _ far, Cpu.write_mem,
        storePair_outside (k := 6) (by decide) _ _ far, same a far]
    · exact (run_data moved).trans filled.data
  rw [generateFixedFrame, fillFrame, prologue, Option.bind_eq_bind,
    Option.bind_some] at ran
  cases mdp with
  | none => exact go _ false claimed outside ran
  | some v =>
      refine go _ true (claimed.write v) ?_ ran
      intro a far
      rw [Cpu.write_mem, outside a far]

end Entry

end Activations

end Morello

end StoplessGC
