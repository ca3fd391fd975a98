import StoplessGC.MachineCode
import StoplessGC.Foundation.StoredList

/-!
# Room for a monitor entry

When `monitorenter` finds no free entry it lowers `esp`, the bottom of the
expression stack and `csp` by one entry, and moves the operands down slot by
slot.  The old and the new place of the operands overlap.
-/

namespace StoplessGC

namespace Morello

namespace MonitorGrowth

open StoredList

abbrev c_rarg1 : Register := .c 1
abbrev c_rarg2 : Register := .c 2
abbrev c_rarg3 : Register := .c 3
abbrev esp : Register := .c 20
abbrev rfp : Register := .c 29

/-- `frame::interpreter_frame_initial_sp_offset * wordSize` -/
def initialSpOffset : Int := -10 * 16

/-- The new pointers. -/
def movePointers (entrySize : Nat) : List Code :=
  [.emit (capLdrImm c_rarg1 rfp initialSpOffset),
    .emit (capSubImm esp esp entrySize),
    .emit (capSubImm c_rarg1 c_rarg1 entrySize),
    movRegister c_rarg3 esp,
    .emit (capStrImm c_rarg1 rfp initialSpOffset),
    .emit (capSubImm .sp .sp entrySize)]

/-- One slot, from its old place to its new one. -/
def copySlot (entrySize : Nat) : List Code :=
  [.emit (capLdrImm c_rarg2 c_rarg3 entrySize),
    .emit (capStrImm c_rarg2 c_rarg3 0),
    .emit (capAddImm c_rarg3 c_rarg3 16)]

/-- The loop from the label `entry`, with the number of slots it moved. -/
def copyLoop (cheri : Intrinsics) (entrySize : Nat) :
    Nat → Cpu → Option (Nat × Cpu)
  | 0, _ => none
  | fuel + 1, cpu => do
      let cpu ← (Code.stock (.cmpX c_rarg3 c_rarg1)).exec cheri cpu
      if cpu.flags.z then some (0, cpu)
      else do
        let cpu ← run cheri (copySlot entrySize) cpu
        let (n, cpu) ← copyLoop cheri entrySize fuel cpu
        some (n + 1, cpu)

/-- The whole sequence. -/
def growMonitors (cheri : Intrinsics) (entrySize fuel : Nat) (cpu : Cpu) :
    Option (Nat × Cpu) := do
  let cpu ← run cheri (movePointers entrySize) cpu
  copyLoop cheri entrySize fuel cpu

/-- A monitor entry is a positive number of slots that an immediate can
express. -/
structure EntrySize (entrySize : Nat) : Prop where
  positive : 0 < entrySize
  aligned : 16 ∣ entrySize
  small : entrySize < 4096

/-- `n` slots to move to where `c_rarg3` points. -/
structure Pending (cpu : Cpu) (entrySize n : Nat) : Prop where
  stop : (cpu.read c_rarg1).address = (cpu.read c_rarg3).address + 16 * n
  tagged : (cpu.read c_rarg3).tag = true
  lower : (cpu.read c_rarg3).base ≤ (cpu.read c_rarg3).address
  upper : (cpu.read c_rarg3).address + entrySize + 16 * n ≤
    (cpu.read c_rarg3).base + (cpu.read c_rarg3).length
  word : (cpu.read c_rarg3).address + entrySize + 16 * n < addressSpace
  aligned : 16 ∣ (cpu.read c_rarg3).address

section Loop

variable {cheri : Intrinsics} {cpu : Cpu} {entrySize n : Nat}

theorem subFlags_z {a b : Nat} (wordA : a < addressSpace)
    (wordB : b < addressSpace) : (subFlags 64 a b).z = true ↔ a = b := by
  rw [addressSpace] at wordA wordB
  simp only [subFlags, beq_iff_eq]
  omega

/-- The state after one slot. -/
def moved (cpu : Cpu) (entrySize : Nat) : Cpu :=
  ((cpu.write c_rarg2
      (cpu.mem ((cpu.read c_rarg3).address + entrySize))).setMem
    (cpu.read c_rarg3).address
      (cpu.mem ((cpu.read c_rarg3).address + entrySize))).write c_rarg3
    ((cpu.read c_rarg3).withAddress ((cpu.read c_rarg3).address + 16))

theorem Pending.source (size : EntrySize entrySize)
    (pending : Pending cpu entrySize (n + 1)) :
    Reaches (cpu.read c_rarg3) entrySize := by
  have aligned := Nat.dvd_add pending.aligned size.aligned
  have upper := pending.upper
  have word := pending.word
  exact ⟨pending.tagged, pending.lower, by omega, by omega, aligned⟩

theorem Pending.target (pending : Pending cpu entrySize (n + 1)) :
    Reaches (cpu.read c_rarg3) 0 := by
  have upper := pending.upper
  have word := pending.word
  exact ⟨pending.tagged, pending.lower, by omega, by omega, pending.aligned⟩

theorem run_copySlot (laws : cheri.Laws) (size : EntrySize entrySize)
    (pending : Pending cpu entrySize (n + 1)) :
    run cheri (copySlot entrySize) cpu = some (moved cpu entrySize) := by
  have gpr := Register.isGpr_c
  have fits : memOffset (entrySize : Int) = entrySize := by
    have aligned := size.aligned
    have small := size.small
    exact (memOffset_eq_iff _).mpr (.inl ⟨by omega, by omega, by omega⟩)
  have source := pending.source size
  have load : (Code.emit (capLdrImm c_rarg2 c_rarg3 entrySize)).exec cheri
      cpu = _ :=
    exec_capLdrImm_slot cpu (gpr 2) (gpr 3) fits source
  have target := pending.target
  rw [← Cpu.read_write_of_ne cpu
    (cpu.mem ((cpu.read c_rarg3).address + entrySize))
    (show c_rarg3 ≠ c_rarg2 by simp)] at target
  have store : (Code.emit (capStrImm c_rarg2 c_rarg3 0)).exec cheri _ = _ :=
    exec_capStrImm_here _ (gpr 2) (gpr 3) target
  rw [Cpu.read_write_of_ne _ _ (by simp), Cpu.read_write_self _ _ (by simp)]
    at store
  have cut : (16 : Int) % 4096 = 16 := rfl
  have next : moveBy cheri (cpu.read c_rarg3) 16 =
      (cpu.read c_rarg3).withAddress ((cpu.read c_rarg3).address + 16) := by
    have lower := pending.lower
    have upper := pending.upper
    have word := pending.word
    exact moveBy_eq laws (by omega) (by omega) (by omega) (by omega)
  rw [copySlot, run_cons load, run_cons store,
    run_cons (exec_capAddImm _ (by simp) (by simp) _), cut,
    Cpu.read_setMem, Cpu.read_write_of_ne _ _ (by simp), next]
  rfl

@[simp] theorem moved_here :
    (moved cpu entrySize).read c_rarg3 =
      (cpu.read c_rarg3).withAddress ((cpu.read c_rarg3).address + 16) :=
  Cpu.read_write_self _ _ (by simp)

theorem moved_read {r : Register} (other : r ≠ c_rarg2) (notHere : r ≠ c_rarg3) :
    (moved cpu entrySize).read r = cpu.read r := by
  rw [moved, Cpu.read_write_of_ne _ _ notHere, Cpu.read_setMem,
    Cpu.read_write_of_ne _ _ other]

@[simp] theorem moved_mem :
    (moved cpu entrySize).mem =
      Function.update cpu.mem (cpu.read c_rarg3).address
        (cpu.mem ((cpu.read c_rarg3).address + entrySize)) := by
  simp [moved]

theorem Pending.moved (pending : Pending cpu entrySize (n + 1)) :
    Pending (moved cpu entrySize) entrySize n := by
  obtain ⟨stop, tagged, lower, upper, word, aligned⟩ := pending
  have end_ : (MonitorGrowth.moved cpu entrySize).read c_rarg1 =
      cpu.read c_rarg1 := moved_read (by simp) (by simp)
  constructor <;> simp only [moved_here, end_, Cap.withAddress]
  · omega
  · exact tagged
  · omega
  · omega
  · omega
  · omega

/-- What the loop leaves. -/
structure Copied (cpu cpu' : Cpu) (entrySize n : Nat) : Prop where
  mem : cpu'.mem =
    moveDown 16 entrySize n (cpu.read c_rarg3).address cpu.mem
  read : ∀ r, r ≠ c_rarg2 → r ≠ c_rarg3 → cpu'.read r = cpu.read r

/-- The state after the comparison. -/
def compared (cpu : Cpu) : Cpu :=
  cpu.setFlags (subFlags 64 (cpu.read c_rarg3).address
    (cpu.read c_rarg1).address)

@[simp] theorem compared_read (r : Register) :
    (compared cpu).read r = cpu.read r := Cpu.read_setFlags ..

@[simp] theorem compared_mem : (compared cpu).mem = cpu.mem := by
  rw [compared, Cpu.setFlags_mem]

theorem exec_cmp (cheri : Intrinsics) (cpu : Cpu) :
    (Code.stock (.cmpX c_rarg3 c_rarg1)).exec cheri cpu =
      some (compared cpu) := rfl

theorem copyLoop_succ (cheri : Intrinsics) (entrySize : Nat) (cpu : Cpu)
    (fuel : Nat) :
    copyLoop cheri entrySize (fuel + 1) cpu =
      if (compared cpu).flags.z then some (0, compared cpu)
      else (run cheri (copySlot entrySize) (compared cpu)).bind fun cpu' =>
        (copyLoop cheri entrySize fuel cpu').map fun result =>
          (result.1 + 1, result.2) := by
  rw [copyLoop, exec_cmp, Option.bind_eq_bind, Option.bind_some]
  split
  · rfl
  · rw [Option.bind_eq_bind]
    congr 1
    funext cpu'
    cases copyLoop cheri entrySize fuel cpu' <;> rfl

theorem Pending.compared_z (pending : Pending cpu entrySize n) :
    (compared cpu).flags.z = true ↔ n = 0 := by
  have stop := pending.stop
  have word := pending.word
  rw [compared, Cpu.setFlags_flags, subFlags_z (by omega) (by omega)]
  omega

theorem Pending.compared (pending : Pending cpu entrySize n) :
    Pending (compared cpu) entrySize n := by
  obtain ⟨stop, tagged, lower, upper, word, aligned⟩ := pending
  constructor <;> simpa only [compared_read]

theorem copyLoop_spec (laws : cheri.Laws) (size : EntrySize entrySize) :
    ∀ {n : Nat} {cpu : Cpu}, Pending cpu entrySize n →
      ∃ cpu', (∀ fuel, n < fuel →
          copyLoop cheri entrySize fuel cpu = some (n, cpu')) ∧
        Copied cpu cpu' entrySize n := by
  intro n
  induction n with
  | zero =>
      intro cpu pending
      have stop := pending.compared_z.mpr rfl
      refine ⟨MonitorGrowth.compared cpu, ?_,
        ⟨rfl, fun r _ _ => compared_read r⟩⟩
      intro fuel enough
      obtain ⟨fuel, rfl⟩ := Nat.exists_eq_add_of_le' enough
      exact (copyLoop_succ cheri entrySize cpu fuel).trans (if_pos stop)
  | succ n ih =>
      intro cpu pending
      have goOn := mt pending.compared_z.mp (Nat.succ_ne_zero n)
      obtain ⟨cpu', loops, mem, read⟩ := ih pending.compared.moved
      refine ⟨cpu', ?_, ?_, ?_⟩
      · intro fuel enough
        obtain ⟨fuel, rfl⟩ := Nat.exists_eq_add_of_le' enough
        have unrolled := copyLoop_succ cheri entrySize cpu (fuel + (n + 1))
        rw [if_neg goOn, run_copySlot laws size pending.compared,
          Option.bind_some, loops _ (by omega)] at unrolled
        exact unrolled
      · rw [mem, moved_here, moved_mem, compared_read, compared_mem]
        rfl
      · intro r other notHere
        rw [read r other notHere, moved_read other notHere, compared_read]

end Loop

/-- A pointer one entry lower. -/
def lowered (entrySize : Nat) (c : Cap) : Cap :=
  c.withAddress (c.address - entrySize)

@[simp] theorem lowered_address (entrySize : Nat) (c : Cap) :
    (lowered entrySize c).address = c.address - entrySize := rfl

/-- A pointer with room for an entry below it. -/
structure Lowers (c : Cap) (entrySize : Nat) : Prop where
  lower : c.base + entrySize ≤ c.address
  upper : c.address ≤ c.base + c.length
  word : c.address < addressSpace

/-- The address of the slot for the bottom of the expression stack. -/
def initialSpSlot (cpu : Cpu) : Nat := (cpu.read rfp).address - 10 * 16

/-- The bottom of the expression stack. -/
def initialSp (cpu : Cpu) : Cap := cpu.mem (initialSpSlot cpu)

/-- An interpreter frame whose expression stack holds `slots`, topmost first,
with room for another monitor entry. -/
structure Ready (cpu : Cpu) (entrySize : Nat) (slots : List Cap) : Prop where
  size : EntrySize entrySize
  stored : Stored cpu.mem 16 (cpu.read esp).address slots
  bottom : (initialSp cpu).address = (cpu.read esp).address + 16 * slots.length
  tagged : (cpu.read esp).tag = true
  aligned : 16 ∣ (cpu.read esp).address
  upper : (cpu.read esp).address + 16 * slots.length ≤
    (cpu.read esp).base + (cpu.read esp).length
  espLowers : Lowers (cpu.read esp) entrySize
  bottomLowers : Lowers (initialSp cpu) entrySize
  cspLowers : Lowers (cpu.read .sp) entrySize
  frame : 10 * 16 ≤ (cpu.read rfp).address
  frameWord : (cpu.read rfp).address < addressSpace
  frameSlot : Accessible (cpu.read rfp) (initialSpSlot cpu) 16
  outside : initialSpSlot cpu + 16 ≤ (cpu.read esp).address - entrySize ∨
    (initialSp cpu).address ≤ initialSpSlot cpu

/-- What the sequence leaves: everything one entry lower, and a fresh entry
between the operands and the old bottom. -/
structure Grown (cpu cpu' : Cpu) (entrySize : Nat) (slots : List Cap) :
    Prop where
  esp : cpu'.read esp = lowered entrySize (cpu.read esp)
  bottom : cpu'.mem (initialSpSlot cpu) = lowered entrySize (initialSp cpu)
  csp : cpu'.read .sp = lowered entrySize (cpu.read .sp)
  operands : Stored cpu'.mem 16 (cpu'.read MonitorGrowth.esp).address slots
  entry : cpu'.read c_rarg1 = lowered entrySize (initialSp cpu)
  fresh : (cpu'.read MonitorGrowth.esp).address + 16 * slots.length =
      (cpu'.read c_rarg1).address ∧
    (cpu'.read c_rarg1).address + entrySize = (initialSp cpu).address
  frame : ∀ a, a ≠ initialSpSlot cpu →
    a < (cpu'.read MonitorGrowth.esp).address ∨
      (cpu'.read c_rarg1).address ≤ a → cpu'.mem a = cpu.mem a

section Sequence

variable {cheri : Intrinsics} {cpu : Cpu} {entrySize : Nat} {slots : List Cap}

theorem exec_capSubImm_lowers (laws : cheri.Laws) {r : Register} {c : Cap}
    (numbered : r ≠ .zr) (size : EntrySize entrySize) (cpu : Cpu)
    (here : cpu.read r = c) (lowers : Lowers c entrySize) :
    (Code.emit (capSubImm r r entrySize)).exec cheri cpu =
      some (cpu.write r (lowered entrySize c)) := by
  subst here
  obtain ⟨lower, upper, word⟩ := lowers
  have small := size.small
  have cut : ((entrySize : Int) % 4096) = entrySize := by omega
  have less : moveBy cheri (cpu.read r) (-(entrySize : Int)) =
      lowered entrySize (cpu.read r) :=
    moveBy_eq laws (by omega) (by omega) (by omega) (by omega)
  rw [exec_capSubImm cpu numbered numbered, cut, less]

/-- The state at the start of the loop. -/
def pointersMoved (cpu : Cpu) (entrySize : Nat) : Cpu :=
  (((((cpu.write c_rarg1 (initialSp cpu)).write esp
      (lowered entrySize (cpu.read esp))).write c_rarg1
        (lowered entrySize (initialSp cpu))).write c_rarg3
          (lowered entrySize (cpu.read esp))).setMem (initialSpSlot cpu)
            (lowered entrySize (initialSp cpu))).write .sp
    (lowered entrySize (cpu.read .sp))

theorem run_movePointers (laws : cheri.Laws)
    (ready : Ready cpu entrySize slots) :
    run cheri (movePointers entrySize) cpu =
      some (pointersMoved cpu entrySize) := by
  have gpr := Register.isGpr_c
  have frame := ready.frame
  have frameWord := ready.frameWord
  have there : offsetBy (cpu.read rfp) (memOffset initialSpOffset) =
      initialSpSlot cpu := by
    have offset : memOffset initialSpOffset = initialSpOffset :=
      (memOffset_eq_iff _).mpr (.inr (by decide))
    have sum : ((cpu.read rfp).address : Int) + initialSpOffset =
        (initialSpSlot cpu : Nat) := by
      unfold initialSpOffset initialSpSlot
      omega
    rw [offset]
    exact offsetBy_eq sum (Nat.lt_of_le_of_lt (Nat.sub_le _ _) frameWord)
  have load : (Code.emit (capLdrImm c_rarg1 rfp initialSpOffset)).exec cheri
      cpu = some (cpu.write c_rarg1 (initialSp cpu)) :=
    exec_capLdrImm_at cpu (gpr 1) (gpr 29) there ready.frameSlot
  have copied : ∀ cpu' : Cpu, (movRegister c_rarg3 esp).exec cheri cpu' =
      some (cpu'.write c_rarg3 (cpu'.read esp)) := fun cpu' =>
    exec_emit_of_decode cpu' (i := .mov c_rarg3 esp) (by decide)
  have store : ∀ cpu' : Cpu, cpu'.read rfp = cpu.read rfp →
      (Code.emit (capStrImm c_rarg1 rfp initialSpOffset)).exec cheri cpu' =
        some (cpu'.setMem (initialSpSlot cpu) (cpu'.read c_rarg1)) := by
    intro cpu' same
    rw [← same] at there
    exact exec_capStrImm_at cpu' (gpr 1) (gpr 29) there
      (same ▸ ready.frameSlot)
  rw [movePointers, run_cons load,
    run_cons (exec_capSubImm_lowers laws (by simp) ready.size _ (by simp)
      ready.espLowers),
    run_cons (exec_capSubImm_lowers laws (by simp) ready.size _ (by simp)
      ready.bottomLowers),
    run_cons (copied _), run_cons (store _ (by simp)),
    run_cons (exec_capSubImm_lowers laws (by simp) ready.size _ (by simp)
      ready.cspLowers)]
  simp [run, pointersMoved]

@[simp] theorem pointersMoved_here :
    (pointersMoved cpu entrySize).read c_rarg3 =
      lowered entrySize (cpu.read esp) := by
  simp [pointersMoved]

@[simp] theorem pointersMoved_entry :
    (pointersMoved cpu entrySize).read c_rarg1 =
      lowered entrySize (initialSp cpu) := by
  simp [pointersMoved]

@[simp] theorem pointersMoved_esp :
    (pointersMoved cpu entrySize).read esp =
      lowered entrySize (cpu.read esp) := by
  simp [pointersMoved]

@[simp] theorem pointersMoved_sp :
    (pointersMoved cpu entrySize).read .sp =
      lowered entrySize (cpu.read .sp) := by
  simp [pointersMoved]

@[simp] theorem pointersMoved_mem :
    (pointersMoved cpu entrySize).mem =
      Function.update cpu.mem (initialSpSlot cpu)
        (lowered entrySize (initialSp cpu)) := by
  simp [pointersMoved]

theorem Ready.pending (ready : Ready cpu entrySize slots) :
    Pending (pointersMoved cpu entrySize) entrySize slots.length := by
  have bottom := ready.bottom
  have upper := ready.upper
  obtain ⟨lower, _, _⟩ := ready.espLowers
  obtain ⟨_, _, word⟩ := ready.bottomLowers
  have aligned := ready.aligned
  have size := ready.size.aligned
  constructor <;>
    simp only [pointersMoved_here, pointersMoved_entry, lowered,
      Cap.withAddress]
  · omega
  · exact ready.tagged
  · omega
  · omega
  · omega
  · omega

theorem Ready.grown (ready : Ready cpu entrySize slots) {cpu' : Cpu}
    (copied : Copied (pointersMoved cpu entrySize) cpu' entrySize
      slots.length) : Grown cpu cpu' entrySize slots := by
  obtain ⟨mem, read⟩ := copied
  obtain ⟨lower, _, _⟩ := ready.espLowers
  have bottom := ready.bottom
  have outside := ready.outside
  have positive := ready.size.positive
  have esp : cpu'.read esp = lowered entrySize (cpu.read MonitorGrowth.esp) :=
    (read _ (by simp) (by simp)).trans pointersMoved_esp
  have entry : cpu'.read c_rarg1 = lowered entrySize (initialSp cpu) :=
    (read _ (by simp) (by simp)).trans pointersMoved_entry
  have top : (cpu'.read MonitorGrowth.esp).address =
      (cpu.read MonitorGrowth.esp).address - entrySize := by
    rw [esp, lowered_address]
  have end_ : (cpu'.read c_rarg1).address =
      (initialSp cpu).address - entrySize := by
    rw [entry, lowered_address]
  rw [pointersMoved_here, pointersMoved_mem, lowered_address] at mem
  have untouched : ∀ a, a < (cpu'.read MonitorGrowth.esp).address ∨
      (cpu'.read c_rarg1).address ≤ a →
      cpu'.mem a = Function.update cpu.mem (initialSpSlot cpu)
        (lowered entrySize (initialSp cpu)) a := by
    intro a away
    rw [mem]
    exact moveDown_outside (by decide) (by omega)
  constructor
  · exact esp
  · rw [untouched _ (by omega), Function.update_self]
  · exact (read _ (by simp) (by simp)).trans pointersMoved_sp
  · have stored := ready.stored.update_outside (b := initialSpSlot cpu)
      (by omega) (by decide) (lowered entrySize (initialSp cpu))
    have old : (cpu.read MonitorGrowth.esp).address - entrySize + entrySize =
        (cpu.read MonitorGrowth.esp).address := by omega
    rw [← old] at stored
    rw [mem, top]
    exact stored_moveDown (by decide) stored
  · exact entry
  · omega
  · intro a notSlot away
    rw [untouched a away, Function.update_of_ne notSlot]

theorem growMonitors_copies (laws : cheri.Laws)
    (ready : Ready cpu entrySize slots) :
    ∃ cpu', (∀ fuel, slots.length < fuel →
        growMonitors cheri entrySize fuel cpu = some (slots.length, cpu')) ∧
      Copied (pointersMoved cpu entrySize) cpu' entrySize slots.length := by
  obtain ⟨cpu', loops, copied⟩ := copyLoop_spec laws ready.size ready.pending
  refine ⟨cpu', ?_, copied⟩
  intro fuel enough
  rw [growMonitors, run_movePointers laws ready, Option.bind_eq_bind,
    Option.bind_some, loops fuel enough]

/-- The growth moves every operand down by one entry. -/
theorem growMonitors_grows (laws : cheri.Laws)
    (ready : Ready cpu entrySize slots) :
    ∃ cpu', (∀ fuel, slots.length < fuel →
        growMonitors cheri entrySize fuel cpu = some (slots.length, cpu')) ∧
      Grown cpu cpu' entrySize slots := by
  obtain ⟨cpu', grows, copied⟩ := growMonitors_copies laws ready
  exact ⟨cpu', grows, ready.grown copied⟩

end Sequence

/-- A frame at 32 KiB of a stack of 64 KiB, with two operands. -/
def sampleFrame : Cpu where
  reg := fun i =>
    if i = 29 then
      { tag := true
        base := 0
        length := 2 ^ 16
        address := 2 ^ 15 + 512
        perms := { swVmem := false, rest := 1 } }
    else
      { tag := true
        base := 0
        length := 2 ^ 16
        address := 2 ^ 15
        perms := { swVmem := false, rest := 1 } }
  csp :=
    { tag := true
      base := 0
      length := 2 ^ 16
      address := 2 ^ 14
      perms := { swVmem := false, rest := 1 } }
  mem := fun a =>
    { tag := true
      base := 0
      length := 2 ^ 16
      address := if a = 2 ^ 15 + 352 then 2 ^ 15 + 32 else a
      perms := { swVmem := false, rest := 1 } }
  data := fun _ => 0
  flags := ⟨false, false, false, false⟩

def sampleSlots : List Cap :=
  [sampleFrame.mem (2 ^ 15), sampleFrame.mem (2 ^ 15 + 16)]

theorem sampleFrame_ready : Ready sampleFrame 32 sampleSlots where
  size := ⟨by decide, by decide, by decide⟩
  stored := by
    apply stored_cons_iff.mpr
    refine ⟨rfl, stored_cons_iff.mpr ⟨rfl, .nil⟩⟩
  bottom := by decide
  tagged := by decide
  aligned := by decide
  upper := by decide
  espLowers := ⟨by decide, by decide, by decide⟩
  bottomLowers := ⟨by decide, by decide, by decide⟩
  cspLowers := ⟨by decide, by decide, by decide⟩
  frame := by decide
  frameWord := by decide
  frameSlot := by decide
  outside := by decide

theorem growMonitors_grows_sample :
    ∃ cpu', (∀ fuel, 2 < fuel →
        growMonitors Intrinsics.exact 32 fuel sampleFrame = some (2, cpu')) ∧
      Grown sampleFrame cpu' 32 sampleSlots :=
  growMonitors_grows Intrinsics.exact_laws sampleFrame_ready

end MonitorGrowth

end Morello

end StoplessGC
