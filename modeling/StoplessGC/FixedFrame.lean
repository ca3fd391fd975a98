import StoplessGC.MachineCode
import Mathlib.Tactic.IntervalCases

/-!
# The fixed part of an interpreter frame

`generate_fixed_frame` lowers `csp` and fills the slots of the new frame with
pairs of capability stores.  Three of the pairs name `zr`, whose encoding 32
does not fit an operand field, so that other registers and slots are reached.

The load of the method data pointer is not among the sources.  It leaves the
pointer in `rscratch1`, and is a parameter here.
-/

namespace StoplessGC

namespace Morello

namespace FixedFrame

abbrev rscratch1 : Register := .c 8
abbrev rmethod : Register := .c 12
abbrev esp : Register := .c 20
abbrev rbcp : Register := .c 22
abbrev rlocals : Register := .c 24
abbrev rcpool : Register := .c 26
abbrev rfp : Register := .c 29
abbrev lr : Register := .c 30

/-- The offsets of the metadata fields that the code reads, and
`frame::interpreter_frame_monitor_size()`. -/
structure Layout where
  constOffset : FieldOffset
  constantsOffset : FieldOffset
  poolHolderOffset : FieldOffset
  mirrorOffset : FieldOffset
  cacheOffset : FieldOffset
  codesOffset : Nat
  maxStackOffset : Nat
  monitorSize : Nat
  codesSmall : codesOffset < 4096

/-- `load_mirror`, with the load of `resolve_oop_handle` at its end. -/
def loadMirror (layout : Layout) (dst : Register) : List Code :=
  [.emit (capLdrImm dst rmethod layout.constOffset.bytes),
    .emit (capLdrImm dst dst layout.constantsOffset.bytes),
    .emit (capLdrImm dst dst layout.poolHolderOffset.bytes),
    .emit (capLdrImm dst dst layout.mirrorOffset.bytes),
    .emit (capLdrImm dst dst 0)]

/-- The frame is claimed and its lowest slots are filled. -/
def prologue (layout : Layout) : Bool → List Code
  | true =>
      [.emit (capSubImm esp .sp (14 * 16)),
        movRegister rbcp .zr,
        .stock (.stpXzrPre esp .sp (-14 * 16)),
        .emit (capAddImm rscratch1 .sp 0),
        .emit (capStrImm esp rscratch1 0),
        .stock (.stpXzr .zr .sp (12 * 16)),
        .stock (.stpXzr .zr .sp (13 * 16))]
  | false =>
      [.emit (capSubImm esp .sp (12 * 16)),
        .emit (capLdrImm rscratch1 rmethod layout.constOffset.bytes),
        .emit (some (0x02000000 ||| ((layout.codesOffset &&& 0xFFF) <<< 10) |||
          (rscratch1.encoding <<< 5) ||| rbcp.encoding)),
        .emit (capStpSpPre esp rbcp (-12 * 16))]

/-- The method data pointer, if there is one, and the method. -/
def storeMethod (profile : Bool) : List Code :=
  [.emit (capStpSp (if profile then rscratch1 else .zr) rmethod (6 * 16))]

def storeMirror (layout : Layout) : List Code :=
  loadMirror layout (.c 10) ++ [.emit (capStpSp (.c 10) .zr (4 * 16))]

def storeCache (layout : Layout) : List Code :=
  [.emit (capLdrImm rcpool rmethod layout.constOffset.bytes),
    .emit (capLdrImm rcpool rcpool layout.constantsOffset.bytes),
    .emit (capLdrImm rcpool rcpool layout.cacheOffset.bytes),
    .emit (capStpSp rlocals rcpool (2 * 16))]

/-- The links to the caller. -/
def storeLinks : List Code :=
  [.emit (capStpSp rfp lr (10 * 16)),
    .emit (some (0x02000000 ||| ((10 * 16) <<< 10) ||| (31 <<< 5) ||| 29)),
    .emit (capStpSp .zr (.c 13) (8 * 16))]

/-- `csp` below the expression stack, for interpreted methods. -/
def moveSp (layout : Layout) : List Code :=
  [.emit (capLdrImm rscratch1 rmethod layout.constOffset.bytes),
    .stock (.ldrH rscratch1 rscratch1 layout.maxStackOffset),
    .stock (.addX rscratch1 rscratch1 (layout.monitorSize + 2)),
    .stock (.lslX rscratch1 rscratch1 4),
    .stock (.negX rscratch1 rscratch1),
    .emit (some (0xC2A06000 ||| (rscratch1.encoding <<< 16) ||| (31 <<< 5) |||
      31))]

/-- The stores of `generate_fixed_frame`.  With `ProfileInterpreter`, `mdp` is
the method data pointer or null. -/
def fillFrame (cheri : Intrinsics) (layout : Layout) (nativeCall : Bool)
    (mdp : Option Cap) (cpu : Cpu) : Option Cpu := do
  let cpu ← run cheri (prologue layout nativeCall) cpu
  let cpu := match mdp with
    | none => cpu
    | some v => cpu.write rscratch1 v
  run cheri (storeMethod mdp.isSome ++ storeMirror layout ++
    storeCache layout ++ storeLinks) cpu

/-- `generate_fixed_frame(native_call)` -/
def generateFixedFrame (cheri : Intrinsics) (layout : Layout)
    (nativeCall : Bool) (mdp : Option Cap) (cpu : Cpu) : Option Cpu := do
  let cpu ← fillFrame cheri layout nativeCall mdp cpu
  if nativeCall then some cpu else run cheri (moveSp layout) cpu

/-- The number of slots below the old `csp`. -/
def slots (nativeCall : Bool) : Nat := if nativeCall then 14 else 12

/-- The new frame. -/
def frame (nativeCall : Bool) (cpu : Cpu) : Cap :=
  (cpu.read .sp).withAddress ((cpu.read .sp).address - 16 * slots nativeCall)

def slot (cpu : Cpu) (frame : Cap) (k : Nat) : Cap :=
  cpu.mem (frame.address + 16 * k)

/-- What the code finds behind the method. -/
structure Found where
  constMethod : Cap
  constants : Cap
  poolHolder : Cap
  handle : Cap
  mirror : Cap
  cache : Cap

/-- The first bytecode. -/
def Found.bcp (found : Found) (layout : Layout) : Cap :=
  found.constMethod.withAddress (found.constMethod.address + layout.codesOffset)

/-- What belongs into the slots. -/
def expected (layout : Layout) (nativeCall : Bool) (mdp : Option Cap)
    (found : Found) (cpu : Cpu) : Nat → Cap
  | 0 => frame nativeCall cpu
  | 1 => if nativeCall then Cap.null else found.bcp layout
  | 2 => cpu.read rlocals
  | 3 => found.cache
  | 4 => found.mirror
  | 6 => mdp.getD Cap.null
  | 7 => cpu.read rmethod
  | 9 => cpu.read (.c 13)
  | 10 => cpu.read rfp
  | 11 => cpu.read lr
  | _ => Cap.null

/-- After the stores `csp` and `esp` point to the frame, and in the end each
slot holds what belongs there and `rfp` points to slot 10. -/
structure Laid (layout : Layout) (nativeCall : Bool) (mdp : Option Cap)
    (found : Found) (cpu filled cpu' : Cpu) : Prop where
  sp : filled.read .sp = frame nativeCall cpu
  esp : filled.read esp = frame nativeCall cpu
  slots : ∀ k, k < FixedFrame.slots nativeCall →
    slot cpu' (frame nativeCall cpu) k =
      expected layout nativeCall mdp found cpu k
  rfp : cpu'.read rfp = (frame nativeCall cpu).withAddress
    ((frame nativeCall cpu).address + 16 * 10)

/-- A field of metadata that does not lie in the frame. -/
structure Holds (mem : Nat → Cap) (frame : Cap) (slots : Nat) (c : Cap)
    (offset : Nat) (v : Cap) : Prop where
  reaches : Reaches c offset
  value : mem (c.address + offset) = v
  outside : c.address + offset < frame.address ∨
    frame.address + 16 * slots ≤ c.address + offset

/-- The way from the method to its mirror and its constant-pool cache. -/
structure Metadata (layout : Layout) (method : Cap) (found : Found)
    (frame : Cap) (slots : Nat) (mem : Nat → Cap) : Prop where
  constMethod : Holds mem frame slots method layout.constOffset.bytes
    found.constMethod
  constants : Holds mem frame slots found.constMethod
    layout.constantsOffset.bytes found.constants
  poolHolder : Holds mem frame slots found.constants
    layout.poolHolderOffset.bytes found.poolHolder
  handle : Holds mem frame slots found.poolHolder layout.mirrorOffset.bytes
    found.handle
  mirror : Holds mem frame slots found.handle 0 found.mirror
  cache : Holds mem frame slots found.constants layout.cacheOffset.bytes
    found.cache

/-- Room for the slots at `frame`. -/
structure Room (frame : Cap) (slots : Nat) : Prop where
  tagged : frame.tag = true
  lower : frame.base ≤ frame.address
  upper : frame.address + 16 * slots ≤ frame.base + frame.length
  word : frame.address + 16 * slots < addressSpace
  aligned : 16 ∣ frame.address

/-- The bytecodes lie within the bounds of the `ConstMethod`, whose `max_stack`
can be read. -/
structure Bytecodes (layout : Layout) (constMethod : Cap) : Prop where
  codes : constMethod.address + layout.codesOffset ≤
    constMethod.base + constMethod.length
  word : constMethod.address + layout.codesOffset < addressSpace
  maxStack : Accessible constMethod
    (offsetBy constMethod layout.maxStackOffset) 2

/-- A stack with room for the frame, and a method. -/
structure Ready (layout : Layout) (nativeCall : Bool) (found : Found)
    (cpu : Cpu) : Prop where
  below : 16 * slots nativeCall ≤ (cpu.read .sp).address
  room : Room (frame nativeCall cpu) (slots nativeCall)
  metadata : Metadata layout (cpu.read rmethod) found (frame nativeCall cpu)
    (slots nativeCall) cpu.mem
  bytecodes : nativeCall = false → Bytecodes layout found.constMethod

section Stores

variable {cheri : Intrinsics} {cpu : Cpu} {frame : Cap} {slots : Nat}

theorem Room.reaches {k : Nat} (room : Room frame slots) (below : k < slots) :
    Reaches frame (16 * k) := by
  obtain ⟨tagged, lower, upper, word, aligned⟩ := room
  exact ⟨tagged, lower, by omega, by omega, by omega⟩

/-- The state after a pair is stored at slot `k`. -/
def storePair (cpu : Cpu) (frame : Cap) (k : Nat) (v w : Cap) : Cpu :=
  (cpu.setMem (frame.address + 16 * k) v).setMem
    (frame.address + 16 * (k + 1)) w

variable (k : Nat) (v w : Cap)

@[simp] theorem read_storePair (r : Register) :
    (storePair cpu frame k v w).read r = cpu.read r := by
  simp [storePair]

@[simp] theorem storePair_data :
    (storePair cpu frame k v w).data = cpu.data := rfl

@[simp] theorem slot_write (r : Register) (j : Nat) :
    slot (cpu.write r v) frame j = slot cpu frame j := by
  simp [slot]

@[simp] theorem slot_setMem (j : Nat) :
    slot (cpu.setMem (frame.address + 16 * k) v) frame j =
      if j = k then v else slot cpu frame j := by
  simp [slot, Function.update_apply]

theorem slot_storePair (j : Nat) :
    slot (storePair cpu frame k v w) frame j =
      if j = k + 1 then w else if j = k then v else slot cpu frame j := by
  rw [storePair, slot_setMem, slot_setMem]

theorem exec_stp (room : Room frame slots) {k : Nat} (below : k + 1 < slots)
    (here : cpu.read .sp = frame) (t t2 : Register) :
    (Instr.stp t t2 .sp (16 * k)).exec cheri cpu =
      some (storePair cpu frame k (cpu.read t) (cpu.read t2)) := by
  have low : Reaches (cpu.read .sp) (16 * k) :=
    here ▸ room.reaches (Nat.lt_of_succ_lt below)
  have high : Reaches ((cpu.setMem ((cpu.read .sp).address + 16 * k)
      (cpu.read t)).read .sp) (16 * (k + 1)) := by
    rw [Cpu.read_setMem, here]
    exact room.reaches below
  have first := Cpu.store_reaches low (cpu.read t)
  have second := Cpu.store_reaches high (cpu.read t2)
  rw [Cpu.read_setMem] at second
  have lowOffset : ((16 * k : Nat) : Int) = 16 * k := by omega
  have highOffset : ((16 * (k + 1) : Nat) : Int) = 16 * k + 16 := by omega
  rw [lowOffset] at first
  rw [highOffset] at second
  rw [Instr.exec, first, Option.bind_eq_bind, Option.bind_some, second, here,
    storePair]

end Stores

section Chain

variable {cheri : Intrinsics} {cpu : Cpu} {layout : Layout} {found : Found}
  {method frame : Cap} {slots : Nat} {mem : Nat → Cap}

theorem Holds.update {c w : Cap} {offset k : Nat}
    (holds : Holds mem frame slots c offset w) (below : k < slots) (v : Cap) :
    Holds (Function.update mem (frame.address + 16 * k) v) frame slots c
      offset w := by
  have outside := holds.outside
  refine ⟨holds.reaches, ?_, outside⟩
  rw [Function.update_of_ne (by omega)]
  exact holds.value

theorem Metadata.update {k : Nat}
    (metadata : Metadata layout method found frame slots mem)
    (below : k < slots) (v : Cap) :
    Metadata layout method found frame slots
      (Function.update mem (frame.address + 16 * k) v) where
  constMethod := metadata.constMethod.update below v
  constants := metadata.constants.update below v
  poolHolder := metadata.poolHolder.update below v
  handle := metadata.handle.update below v
  mirror := metadata.mirror.update below v
  cache := metadata.cache.update below v

theorem Metadata.storePair {k : Nat}
    (metadata : Metadata layout method found frame slots cpu.mem)
    (below : k + 1 < slots) (v w : Cap) :
    Metadata layout method found frame slots
      (FixedFrame.storePair cpu frame k v w).mem :=
  (metadata.update (Nat.lt_of_succ_lt below) v).update below w

theorem exec_load_holds {t n : Register} {c v : Cap} {field : FieldOffset}
    (gprT : t.IsGpr) (gprN : n.IsGpr) (same : cpu.mem = mem)
    (here : cpu.read n = c) (holds : Holds mem frame slots c field.bytes v) :
    (Code.emit (capLdrImm t n field.bytes)).exec cheri cpu =
      some (cpu.write t v) := by
  subst same here
  rw [exec_capLdrImm_slot cpu gprT gprN field.memOffset holds.reaches,
    holds.value]

/-- The pair that `zr` is part of has `c0` in its place. -/
theorem run_storeMirror
    (metadata : Metadata layout (cpu.read rmethod) found frame slots cpu.mem)
    (room : Room frame slots) (enough : 12 ≤ slots)
    (here : cpu.read .sp = frame) :
    run cheri (storeMirror layout) cpu =
      some (storePair (cpu.write (.c 10) found.mirror) frame 5 found.mirror
        (cpu.read (.c 0))) := by
  have gpr := Register.isGpr_c
  have resolved : ∀ cpu' : Cpu, cpu'.mem = cpu.mem →
      cpu'.read (.c 10) = found.handle →
      (Code.emit (capLdrImm (.c 10) (.c 10) 0)).exec cheri cpu' =
        some (cpu'.write (.c 10) found.mirror) := by
    intro cpu' same handle
    obtain ⟨reaches, value, -⟩ := metadata.mirror
    rw [Nat.add_zero] at value
    rw [← handle] at reaches
    rw [exec_capLdrImm_here cpu' (gpr 10) (gpr 10) reaches, same, handle, value]
  have stored : ∀ cpu' : Cpu,
      (Code.emit (capStpSp (.c 10) .zr (4 * 16))).exec cheri cpu' =
        (Instr.stp (.c 10) (.c 0) .sp (16 * (5 : Nat))).exec cheri cpu' :=
    fun cpu' => exec_emit_of_decode cpu' (by decide)
  have pair := (stored (cpu.write (.c 10) found.mirror)).trans
    (exec_stp room (by omega) (by simpa using here) _ _)
  rw [Cpu.read_write_self _ _ (by simp),
    Cpu.read_write_of_ne _ _ (by simp)] at pair
  simp only [storeMirror, loadMirror, List.cons_append, List.nil_append]
  rw [run_cons (exec_load_holds (gpr 10) (gpr 12) rfl rfl
      metadata.constMethod),
    run_cons (exec_load_holds (gpr 10) (gpr 10) (by simp) (by simp)
      metadata.constants), Cpu.write_write,
    run_cons (exec_load_holds (gpr 10) (gpr 10) (by simp) (by simp)
      metadata.poolHolder), Cpu.write_write,
    run_cons (exec_load_holds (gpr 10) (gpr 10) (by simp) (by simp)
      metadata.handle), Cpu.write_write,
    run_cons (resolved _ (by simp) (by simp)), Cpu.write_write,
    run_cons pair]
  rfl

theorem run_storeCache
    (metadata : Metadata layout (cpu.read rmethod) found frame slots cpu.mem)
    (room : Room frame slots) (enough : 12 ≤ slots)
    (here : cpu.read .sp = frame) :
    run cheri (storeCache layout) cpu =
      some (storePair (cpu.write rcpool found.cache) frame 2
        (cpu.read rlocals) found.cache) := by
  have gpr := Register.isGpr_c
  have stored : ∀ cpu' : Cpu,
      (Code.emit (capStpSp rlocals rcpool (2 * 16))).exec cheri cpu' =
        (Instr.stp rlocals rcpool .sp (16 * (2 : Nat))).exec cheri cpu' :=
    fun cpu' => exec_emit_of_decode cpu' (by decide)
  have pair := (stored (cpu.write rcpool found.cache)).trans
    (exec_stp room (by omega) (by simpa using here) _ _)
  rw [Cpu.read_write_self _ _ (by simp),
    Cpu.read_write_of_ne _ _ (by simp)] at pair
  rw [storeCache, run_cons (exec_load_holds (gpr 26) (gpr 12) rfl rfl
      metadata.constMethod),
    run_cons (exec_load_holds (gpr 26) (gpr 26) (by simp) (by simp)
      metadata.constants), Cpu.write_write,
    run_cons (exec_load_holds (gpr 26) (gpr 26) (by simp) (by simp)
      metadata.cache), Cpu.write_write, run_cons pair]
  rfl

theorem run_storeMethod (room : Room frame slots) (enough : 12 ≤ slots)
    (here : cpu.read .sp = frame) (profile : Bool) :
    run cheri (storeMethod profile) cpu =
      some (storePair cpu frame 6
        (cpu.read (if profile then rscratch1 else .c 0))
        (cpu.read rmethod)) := by
  have stored : (Code.emit (capStpSp (if profile then rscratch1 else .zr)
      rmethod (6 * 16))).exec cheri cpu =
        (Instr.stp (if profile then rscratch1 else .c 0) rmethod .sp
          (16 * (6 : Nat))).exec cheri cpu := by
    cases profile <;> exact exec_emit_of_decode cpu (by decide)
  rw [storeMethod, run_cons (stored.trans (exec_stp room (by omega) here _ _))]
  rfl

theorem run_storeLinks (laws : cheri.Laws) (room : Room frame slots)
    (enough : 12 ≤ slots) (here : cpu.read .sp = frame) :
    run cheri storeLinks cpu =
      some (storePair ((storePair cpu frame 10 (cpu.read rfp)
          (cpu.read lr)).write rfp
        (frame.withAddress (frame.address + 16 * 10))) frame 8
        (cpu.read (.c 0)) (cpu.read (.c 13))) := by
  have links : (Code.emit (capStpSp rfp lr (10 * 16))).exec cheri cpu =
      (Instr.stp rfp lr .sp (16 * (10 : Nat))).exec cheri cpu :=
    exec_emit_of_decode cpu (by decide)
  have lifted : ∀ cpu' : Cpu, cpu'.read .sp = frame →
      (Code.emit (some (0x02000000 ||| ((10 * 16) <<< 10) ||| (31 <<< 5) |||
        29))).exec cheri cpu' = some (cpu'.write rfp
          (frame.withAddress (frame.address + 16 * 10))) := by
    intro cpu' top
    have reaches : Reaches frame (16 * 10 + 0) := room.reaches (by omega)
    have moved := reaches.moveBy laws
    rw [← top] at moved
    rw [exec_emit_of_decode cpu' (i := .addImm rfp .sp (16 * 10 : Nat))
      (by decide), Instr.exec, moved, top]
  have last : ∀ cpu' : Cpu,
      (Code.emit (capStpSp .zr (.c 13) (8 * 16))).exec cheri cpu' =
        (Instr.stp (.c 0) (.c 13) .sp (16 * (8 : Nat))).exec cheri cpu' :=
    fun cpu' => exec_emit_of_decode cpu' (by decide)
  have pair := (last ((storePair cpu frame 10 (cpu.read rfp)
      (cpu.read lr)).write rfp
        (frame.withAddress (frame.address + 16 * 10)))).trans
    (exec_stp room (by omega) (by simpa using here) _ _)
  rw [Cpu.read_write_of_ne _ _ (by simp), Cpu.read_write_of_ne _ _ (by simp),
    read_storePair, read_storePair] at pair
  rw [storeLinks, run_cons (links.trans (exec_stp room (by omega) here _ _)),
    run_cons (lifted _ (by simpa using here)), run_cons pair]
  rfl

/-- `max_stack` of the method. -/
def maxStack (layout : Layout) (found : Found) (cpu : Cpu) : Nat :=
  cpu.data (offsetBy found.constMethod layout.maxStackOffset) % 2 ^ 16

theorem run_maxStack (cheri : Intrinsics)
    (metadata : Metadata layout (cpu.read rmethod) found frame slots cpu.mem)
    (bytecodes : Bytecodes layout found.constMethod) (rest : List Code) :
    run cheri (.emit (capLdrImm rscratch1 rmethod layout.constOffset.bytes) ::
        .stock (.ldrH rscratch1 rscratch1 layout.maxStackOffset) :: rest) cpu =
      run cheri rest (cpu.writeX rscratch1 (maxStack layout found cpu)) := by
  have gpr := Register.isGpr_c
  have read : (Code.stock (.ldrH rscratch1 rscratch1
      layout.maxStackOffset)).exec cheri
        (cpu.write rscratch1 found.constMethod) =
          some ((cpu.write rscratch1 found.constMethod).writeX rscratch1
            (maxStack layout found cpu)) := by
    rw [Code.exec, Instr.exec, Cpu.loadData,
      Cpu.read_write_self _ _ (by simp), if_pos bytecodes.maxStack,
      Cpu.write_data]
    rfl
  rw [run_cons (exec_load_holds (gpr 8) (gpr 12) rfl rfl metadata.constMethod),
    run_cons read, Cpu.writeX, Cpu.writeX, Cpu.write_write]

theorem run_moveSp (cheri : Intrinsics)
    (metadata : Metadata layout (cpu.read rmethod) found frame slots cpu.mem)
    (bytecodes : Bytecodes layout found.constMethod) :
    ∃ cpu', run cheri (moveSp layout) cpu = some cpu' ∧
      cpu'.mem = cpu.mem ∧ cpu'.read rfp = cpu.read rfp := by
  rw [moveSp, run_maxStack cheri metadata bytecodes]
  refine run_invariant ?_ ⟨by simp [Cpu.writeX], by simp [Cpu.writeX]⟩
  intro code member next kept
  obtain ⟨mem, rfp⟩ := kept
  -- each of the others writes `rscratch1` or `csp`
  simp only [List.mem_cons, List.not_mem_nil, or_false] at member
  rcases member with rfl | rfl | rfl | rfl
  · exact ⟨_, rfl, by simpa [Cpu.writeX] using mem,
      by simpa [Cpu.writeX] using rfp⟩
  · exact ⟨_, rfl, by simpa [Cpu.writeX] using mem,
      by simpa [Cpu.writeX] using rfp⟩
  · exact ⟨_, rfl, by simpa [Cpu.writeX] using mem,
      by simpa [Cpu.writeX] using rfp⟩
  · have lowered : (Code.emit (some (0xC2A06000 |||
        (rscratch1.encoding <<< 16) ||| (31 <<< 5) ||| 31))).exec cheri
          next = _ :=
      exec_emit_of_decode next (i := .addReg .sp .sp rscratch1) (by decide)
    exact ⟨_, lowered, by simpa using mem, by simpa using rfp⟩

end Chain

section Prologue

variable {cheri : Intrinsics} {layout : Layout} {nativeCall : Bool}
  {found : Found} {cpu : Cpu}

/-- The frame after the prologue. -/
structure Claimed (layout : Layout) (nativeCall : Bool) (found : Found)
    (cpu cpu' : Cpu) : Prop where
  sp : cpu'.read .sp = frame nativeCall cpu
  esp : cpu'.read esp = frame nativeCall cpu
  others : ∀ r, r ≠ .sp → r ≠ FixedFrame.esp → r ≠ rbcp → r ≠ rscratch1 →
    cpu'.read r = cpu.read r
  slots : ∀ k, slot cpu' (frame nativeCall cpu) k =
    if k = 0 then frame nativeCall cpu
    else if k = 1 ∧ nativeCall = false then found.bcp layout
    else if nativeCall = true ∧ (k = 12 ∨ k = 13) then Cap.null
    else slot cpu (frame nativeCall cpu) k
  metadata : Metadata layout (cpu.read rmethod) found (frame nativeCall cpu)
    (FixedFrame.slots nativeCall) cpu'.mem
  data : cpu'.data = cpu.data

theorem Ready.claim (laws : cheri.Laws)
    (ready : Ready layout nativeCall found cpu) :
    moveBy cheri (cpu.read .sp) (-(16 * slots nativeCall : Nat)) =
      frame nativeCall cpu := by
  have below := ready.below
  have lower := ready.room.lower
  have upper := ready.room.upper
  have word := ready.room.word
  simp only [frame, Cap.withAddress] at lower upper word
  exact moveBy_eq laws (by omega) (by omega) lower (by omega)

theorem Ready.store (ready : Ready layout nativeCall found cpu) {cpu' : Cpu}
    (here : cpu'.read .sp = cpu.read .sp) {k : Nat}
    (below : k < slots nativeCall) {offset : Int}
    (counted : offset = 16 * k - 16 * slots nativeCall) (v : Cap) :
    cpu'.store .sp offset v =
      some (cpu'.setMem ((frame nativeCall cpu).address + 16 * k) v) := by
  have enough := ready.below
  have reaches := ready.room.reaches below
  have place : offsetBy (cpu.read .sp) offset =
      (frame nativeCall cpu).address + 16 * k := by
    refine offsetBy_eq ?_ reaches.word
    simp only [frame, Cap.withAddress]
    omega
  have accessible : Accessible (cpu.read .sp)
      ((frame nativeCall cpu).address + 16 * k) 16 := reaches.accessible
  rw [Cpu.store, here, place, Cpu.storeAt, if_pos accessible]

/-- The state after the prologue for native methods.  Its first store writes
one slot, since its words take eight bytes. -/
def claimedNative (cpu : Cpu) : Cpu :=
  let f := frame true cpu
  ((((((((cpu.write esp f).writeX rbcp 0).setMem (f.address + 16 * 0)
    (Cap.ofInt f.address)).write .sp f).write rscratch1 f).setMem
      (f.address + 16 * 0) f).setMem (f.address + 16 * 12) Cap.null).setMem
        (f.address + 16 * 13) Cap.null)

theorem run_prologue_native (laws : cheri.Laws)
    (ready : Ready layout true found cpu) :
    run cheri (prologue layout true) cpu = some (claimedNative cpu) := by
  have gpr := Register.isGpr_c
  have top := ready.claim laws
  have room := ready.room
  have first : (Code.emit (capSubImm esp .sp (14 * 16))).exec cheri cpu =
      some (cpu.write esp (frame true cpu)) :=
    (exec_capSubImm cpu (by simp) (by simp) _).trans
      (congrArg (fun c => some (cpu.write esp c)) top)
  have pushed : ∀ cpu' : Cpu, cpu'.read .sp = cpu.read .sp →
      (Code.stock (.stpXzrPre esp .sp (-14 * 16))).exec cheri cpu' =
        some ((cpu'.setMem ((frame true cpu).address + 16 * 0)
          (Cap.ofInt (cpu'.read esp).address)).write .sp (frame true cpu)) := by
    intro cpu' here
    have counted : (-14 * 16 : Int) = 16 * (0 : Nat) - 16 * slots true := rfl
    have stored := ready.store here (by decide) counted
      (Cap.ofInt (cpu'.read esp).address)
    have moved : moveBy cheri (cpu.read .sp) (-14 * 16) = frame true cpu := top
    rw [Code.exec, Instr.exec, stored, Option.bind_eq_bind, Option.bind_some,
      here, moved]
  have copied : ∀ cpu' : Cpu, cpu'.read .sp = frame true cpu →
      (Code.emit (capAddImm rscratch1 .sp 0)).exec cheri cpu' =
        some (cpu'.write rscratch1 (frame true cpu)) := by
    intro cpu' here
    have same : moveBy cheri (frame true cpu) 0 = frame true cpu :=
      moveBy_zero laws (by have := room.word; omega) room.lower
        (by have := room.upper; omega)
    rw [exec_capAddImm cpu' (by simp) (by simp) 0, here, Int.zero_emod, same]
  have replaced : ∀ cpu' : Cpu, cpu'.read rscratch1 = frame true cpu →
      (Code.emit (capStrImm esp rscratch1 0)).exec cheri cpu' =
        some (cpu'.setMem ((frame true cpu).address + 16 * 0)
          (cpu'.read esp)) := by
    intro cpu' here
    have reaches : Reaches (frame true cpu) (16 * 0) :=
      room.reaches (by decide)
    rw [← here] at reaches ⊢
    exact exec_capStrImm_here cpu' (gpr 20) (gpr 8) reaches
  have cleared : ∀ (k : Nat) (offset : Int), k < slots true →
      offset = (16 * k : Nat) → ∀ cpu' : Cpu, cpu'.read .sp = frame true cpu →
      (Code.stock (.stpXzr .zr .sp offset)).exec cheri cpu' =
        some (cpu'.setMem ((frame true cpu).address + 16 * k) Cap.null) := by
    intro k offset below counted cpu' here
    have reaches := room.reaches below
    rw [← here] at reaches ⊢
    rw [counted]
    exact Cpu.store_reaches reaches Cap.null
  rw [prologue, run_cons first,
    run_cons (rfl : (movRegister rbcp .zr).exec cheri _ =
      some ((cpu.write esp (frame true cpu)).writeX rbcp 0)),
    run_cons (pushed _ (by simp [Cpu.writeX])),
    run_cons (copied _ (by simp)), run_cons (replaced _ (by simp)),
    run_cons (cleared 12 (12 * 16) (by decide) rfl _ (by simp)),
    run_cons (cleared 13 (13 * 16) (by decide) rfl _ (by simp))]
  simp [run, claimedNative, Cpu.writeX]

theorem claimed_native (ready : Ready layout true found cpu) :
    Claimed layout true found cpu (claimedNative cpu) := by
  have metadata := ready.metadata
  constructor
  · simp [claimedNative]
  · simp [claimedNative, Cpu.writeX]
  · intro r notSp notEsp notRbcp notScratch
    simp [claimedNative, Cpu.writeX, notSp, notEsp, notRbcp, notScratch]
  · intro k
    simp only [claimedNative, slot_setMem, slot_write, Cpu.writeX]
    grind
  · have kept := (((metadata.update (k := 0) (by decide)
      (Cap.ofInt (frame true cpu).address)).update (k := 0) (by decide)
        (frame true cpu)).update (k := 12) (by decide) Cap.null).update
          (k := 13) (by decide) Cap.null
    simpa [claimedNative, Cpu.writeX] using kept
  · simp [claimedNative, Cpu.writeX]

/-- The word put together by hand is that of `cap_add_imm`. -/
theorem codes_word (layout : Layout) :
    some (0x02000000 ||| ((layout.codesOffset &&& 0xFFF) <<< 10) |||
      (rscratch1.encoding <<< 5) ||| rbcp.encoding) =
        capAddImm rbcp rscratch1 layout.codesOffset := by
  have small := layout.codesSmall
  have cut : unsigned layout.codesOffset = layout.codesOffset := by
    rw [unsigned]
    omega
  rw [capAddImm, capArithImm, cut]
  rfl

/-- The state after the prologue for interpreted methods. -/
def claimedInterpreted (layout : Layout) (found : Found) (cpu : Cpu) : Cpu :=
  let f := frame false cpu
  (storePair (((cpu.write esp f).write rscratch1 found.constMethod).write rbcp
    (found.bcp layout)) f 0 f (found.bcp layout)).write .sp f

theorem run_prologue_interpreted (laws : cheri.Laws)
    (ready : Ready layout false found cpu) :
    run cheri (prologue layout false) cpu =
      some (claimedInterpreted layout found cpu) := by
  have gpr := Register.isGpr_c
  have top := ready.claim laws
  have metadata := ready.metadata
  obtain ⟨codes, word, -⟩ := ready.bytecodes rfl
  have first : (Code.emit (capSubImm esp .sp (12 * 16))).exec cheri cpu =
      some (cpu.write esp (frame false cpu)) :=
    (exec_capSubImm cpu (by simp) (by simp) _).trans
      (congrArg (fun c => some (cpu.write esp c)) top)
  have lower := metadata.constants.reaches.lower
  have bcp : moveBy cheri found.constMethod
      ((layout.codesOffset : Int) % 4096) = found.bcp layout := by
    have small := layout.codesSmall
    have whole : (layout.codesOffset : Int) % 4096 = layout.codesOffset := by
      omega
    rw [whole]
    exact moveBy_eq laws (by omega) word (by omega) codes
  have pushed : ∀ cpu' : Cpu, cpu'.read .sp = cpu.read .sp →
      (Code.emit (capStpSpPre esp rbcp (-12 * 16))).exec cheri cpu' =
        some ((storePair cpu' (frame false cpu) 0 (cpu'.read esp)
          (cpu'.read rbcp)).write .sp (frame false cpu)) := by
    intro cpu' here
    have low : (-192 : Int) = 16 * (0 : Nat) - 16 * slots false := rfl
    have high : (-192 + 16 : Int) = 16 * (1 : Nat) - 16 * slots false := rfl
    have moved : moveBy cheri (cpu.read .sp) (-192) = frame false cpu := top
    have stored := ready.store here (by decide) low (cpu'.read esp)
    have below : (cpu'.setMem ((frame false cpu).address + 16 * 0)
        (cpu'.read esp)).read .sp = cpu.read .sp := by simpa using here
    have storedNext := ready.store below (by decide) high (cpu'.read rbcp)
    rw [exec_emit_of_decode cpu' (i := .stpPre esp rbcp .sp (-192)) (by decide),
      Instr.exec, stored, Option.bind_eq_bind, Option.bind_some, storedNext,
      Option.bind_some, here, moved]
    rfl
  rw [prologue, codes_word, run_cons first,
    run_cons (exec_load_holds (gpr 8) (gpr 12) (by simp) (by simp)
      metadata.constMethod),
    run_cons (exec_capAddImm _ (by simp) (by simp) _),
    Cpu.read_write_self _ _ (by simp), bcp, run_cons (pushed _ (by simp))]
  simp [run, claimedInterpreted]

theorem claimed_interpreted (ready : Ready layout false found cpu) :
    Claimed layout false found cpu (claimedInterpreted layout found cpu) := by
  constructor
  · simp [claimedInterpreted]
  · simp [claimedInterpreted]
  · intro r notSp notEsp notRbcp notScratch
    simp [claimedInterpreted, notSp, notEsp, notRbcp, notScratch]
  · intro k
    simp only [claimedInterpreted, slot_storePair, slot_write]
    grind
  · have kept := (ready.metadata.update (k := 0) (by decide)
      (frame false cpu)).update (k := 1) (by decide) (found.bcp layout)
    simpa [claimedInterpreted, storePair] using kept
  · simp [claimedInterpreted]

theorem run_prologue (laws : cheri.Laws)
    (ready : Ready layout nativeCall found cpu) :
    ∃ cpu', run cheri (prologue layout nativeCall) cpu = some cpu' ∧
      Claimed layout nativeCall found cpu cpu' := by
  cases nativeCall with
  | true =>
      exact ⟨_, run_prologue_native laws ready, claimed_native ready⟩
  | false =>
      exact ⟨_, run_prologue_interpreted laws ready, claimed_interpreted ready⟩

end Prologue

section Frame

variable {cheri : Intrinsics} {layout : Layout} {nativeCall : Bool}
  {found : Found} {cpu : Cpu}

/-- What the slots hold in the end. -/
def stored (layout : Layout) (nativeCall : Bool) (found : Found)
    (cpu : Cpu) : Nat → Cap
  | 0 => frame nativeCall cpu
  | 1 => if nativeCall then slot cpu (frame nativeCall cpu) 1
      else found.bcp layout
  | 2 => cpu.read rlocals
  | 3 => found.cache
  | 4 => slot cpu (frame nativeCall cpu) 4
  | 5 => found.mirror
  | 6 => cpu.read (.c 0)
  | 7 => cpu.read rmethod
  | 8 => cpu.read (.c 0)
  | 9 => cpu.read (.c 13)
  | 10 => cpu.read rfp
  | 11 => cpu.read lr
  | _ => Cap.null

/-- The frame after the stores. -/
structure Filled (layout : Layout) (nativeCall : Bool) (found : Found)
    (cpu filled : Cpu) : Prop where
  sp : filled.read .sp = frame nativeCall cpu
  esp : filled.read esp = frame nativeCall cpu
  method : filled.read rmethod = cpu.read rmethod
  rfp : filled.read rfp = (frame nativeCall cpu).withAddress
    ((frame nativeCall cpu).address + 16 * 10)
  slots : ∀ k, k < FixedFrame.slots nativeCall →
    slot filled (frame nativeCall cpu) k = stored layout nativeCall found cpu k
  metadata : Metadata layout (cpu.read rmethod) found (frame nativeCall cpu)
    (FixedFrame.slots nativeCall) filled.mem
  data : filled.data = cpu.data

theorem slots_le (nativeCall : Bool) : slots nativeCall ≤ 14 := by
  cases nativeCall <;> decide

theorem twelve_le_slots (nativeCall : Bool) : 12 ≤ slots nativeCall := by
  cases nativeCall <;> decide

/-- The state after the pairs above the lowest slots. -/
def paired (found : Found) (frame : Cap) (mdp : Cap) (cpu : Cpu) : Cpu :=
  let method := storePair cpu frame 6 mdp (cpu.read rmethod)
  let mirror := storePair (method.write (.c 10) found.mirror) frame 5
    found.mirror (cpu.read (.c 0))
  let cache := storePair (mirror.write rcpool found.cache) frame 2
    (cpu.read rlocals) found.cache
  storePair ((storePair cache frame 10 (cpu.read rfp) (cpu.read lr)).write rfp
    (frame.withAddress (frame.address + 16 * 10))) frame 8 (cpu.read (.c 0))
      (cpu.read (.c 13))

theorem run_pairs (laws : cheri.Laws) {frame : Cap} {slots : Nat}
    (metadata : Metadata layout (cpu.read rmethod) found frame slots cpu.mem)
    (room : Room frame slots) (enough : 12 ≤ slots)
    (here : cpu.read .sp = frame) (profile : Bool) :
    run cheri (storeMethod profile ++ storeMirror layout ++ storeCache layout ++
      storeLinks) cpu =
        some (paired found frame
          (cpu.read (if profile then rscratch1 else .c 0)) cpu) := by
  have method : run cheri (storeMethod profile) cpu = _ :=
    run_storeMethod room enough here profile
  generalize cpu.read (if profile then rscratch1 else .c 0) = mdp at method ⊢
  -- each block finds the metadata and `csp` as the one before it did
  have afterMethod := metadata.storePair (k := 6) (by omega) mdp
    (cpu.read rmethod)
  have mirror : run cheri (storeMirror layout)
      (storePair cpu frame 6 mdp (cpu.read rmethod)) = _ :=
    run_storeMirror (by simpa using afterMethod) room enough
      (by simpa using here)
  have afterMirror : Metadata layout (cpu.read rmethod) found frame slots
      (storePair ((storePair cpu frame 6 mdp (cpu.read rmethod)).write (.c 10)
        found.mirror) frame 5 found.mirror (cpu.read (.c 0))).mem :=
    Metadata.storePair (by simpa using afterMethod) (by omega) _ _
  rw [read_storePair] at mirror
  have cache : run cheri (storeCache layout)
      (storePair ((storePair cpu frame 6 mdp (cpu.read rmethod)).write (.c 10)
        found.mirror) frame 5 found.mirror (cpu.read (.c 0))) = _ :=
    run_storeCache (by simpa using afterMirror) room enough
      (by simpa using here)
  have links : run cheri storeLinks
      (storePair ((storePair ((storePair cpu frame 6 mdp
        (cpu.read rmethod)).write (.c 10) found.mirror) frame 5 found.mirror
          (cpu.read (.c 0))).write rcpool found.cache) frame 2
            (cpu.read rlocals) found.cache) = _ :=
    run_storeLinks laws room enough (by simpa using here)
  rw [run_append, run_append, run_append, method, Option.bind_some, mirror,
    Option.bind_some, cache, Option.bind_some]
  simp only [read_storePair, ne_eq, not_false_eq_true, Cpu.read_write_of_ne,
    Register.c.injEq, Fin.reduceEq] at links ⊢
  exact links

theorem Claimed.write {start : Cpu}
    (claimed : Claimed layout nativeCall found cpu start) (v : Cap) :
    Claimed layout nativeCall found cpu (start.write rscratch1 v) where
  sp := by simpa using claimed.sp
  esp := by simpa using claimed.esp
  others := by
    intro r notSp notEsp notRbcp notScratch
    rw [Cpu.read_write_of_ne _ _ notScratch]
    exact claimed.others r notSp notEsp notRbcp notScratch
  slots := by simpa using claimed.slots
  metadata := by simpa using claimed.metadata
  data := by simpa using claimed.data

theorem Claimed.method {start : Cpu}
    (claimed : Claimed layout nativeCall found cpu start) :
    start.read rmethod = cpu.read rmethod :=
  claimed.others rmethod (by simp) (by simp) (by simp) (by simp)

/-- The slots that the pairs leave out keep what the prologue left there. -/
theorem Claimed.paired {start : Cpu}
    (claimed : Claimed layout nativeCall found cpu start) (mdp : Cap) :
    Filled layout nativeCall found cpu
      (paired found (frame nativeCall cpu) mdp start) := by
  obtain ⟨sp, esp, others, slots, metadata, data⟩ := claimed
  have kept : ∀ i : Fin 31, i ≠ 20 → i ≠ 22 → i ≠ 8 →
      start.read (.c i) = cpu.read (.c i) := by
    intro i notEsp notRbcp notScratch
    exact others _ (by simp) (by simpa using notEsp) (by simpa using notRbcp)
      (by simpa using notScratch)
  have enough := twelve_le_slots nativeCall
  constructor
  · simpa [FixedFrame.paired] using sp
  · simpa [FixedFrame.paired] using esp
  · simpa [FixedFrame.paired] using
      kept 12 (by decide) (by decide) (by decide)
  · simp [FixedFrame.paired]
  · intro k below
    have few : k < 14 := below.trans_le (slots_le nativeCall)
    simp only [FixedFrame.paired, slot_storePair, slot_write, slots]
    cases nativeCall with
    | true => interval_cases k <;> simp [stored, kept]
    | false =>
        have last : k < 12 := below
        interval_cases k <;> simp [stored, kept]
  · have afterMethod := metadata.storePair (k := 6) (by omega) mdp
      (start.read rmethod)
    have afterMirror := afterMethod.storePair (k := 5) (by omega) found.mirror
      (start.read (.c 0))
    have afterCache := afterMirror.storePair (k := 2) (by omega)
      (start.read rlocals) found.cache
    have afterLinks := (afterCache.storePair (k := 10) (by omega)
      (start.read rfp) (start.read lr)).storePair (k := 8) (by omega)
        (start.read (.c 0)) (start.read (.c 13))
    simpa [FixedFrame.paired, storePair] using afterLinks
  · simpa [FixedFrame.paired] using data

theorem run_fillFrame (laws : cheri.Laws)
    (ready : Ready layout nativeCall found cpu) (mdp : Option Cap) :
    ∃ filled, fillFrame cheri layout nativeCall mdp cpu = some filled ∧
      Filled layout nativeCall found cpu filled := by
  obtain ⟨start, ran, claimed⟩ := run_prologue laws ready
  have enough := twelve_le_slots nativeCall
  have go : ∀ (profiled : Cpu) (profile : Bool),
      Claimed layout nativeCall found cpu profiled →
      ∃ filled, run cheri (storeMethod profile ++ storeMirror layout ++
          storeCache layout ++ storeLinks) profiled = some filled ∧
        Filled layout nativeCall found cpu filled := by
    intro profiled profile claimed
    have metadata := claimed.metadata
    rw [← claimed.method] at metadata
    exact ⟨_, run_pairs laws metadata ready.room enough claimed.sp profile,
      claimed.paired _⟩
  rw [fillFrame, ran, Option.bind_eq_bind, Option.bind_some]
  cases mdp with
  | none => exact go start false claimed
  | some v => exact go _ true (claimed.write v)

/-- Every slot and `rfp`, for every content of the registers. -/
theorem generateFixedFrame_spec (laws : cheri.Laws)
    (ready : Ready layout nativeCall found cpu) (mdp : Option Cap) :
    ∃ filled cpu', fillFrame cheri layout nativeCall mdp cpu = some filled ∧
      generateFixedFrame cheri layout nativeCall mdp cpu = some cpu' ∧
      Filled layout nativeCall found cpu filled ∧
      cpu'.mem = filled.mem ∧ cpu'.read rfp = filled.read rfp := by
  obtain ⟨filled, ran, frame⟩ := run_fillFrame laws ready mdp
  cases nativeCall with
  | true =>
      refine ⟨filled, filled, ran, ?_, frame, rfl, rfl⟩
      rw [generateFixedFrame, ran]
      rfl
  | false =>
      have metadata := frame.metadata
      rw [← frame.method] at metadata
      obtain ⟨cpu', moved, mem, rfp⟩ :=
        run_moveSp cheri metadata (ready.bytecodes rfl)
      refine ⟨filled, cpu', ran, ?_, frame, mem, rfp⟩
      rw [generateFixedFrame, ran]
      exact moved

/-- The misplaced values are null, and so are the slots left out. -/
structure Clear (nativeCall : Bool) (mdp : Option Cap) (found : Found)
    (cpu : Cpu) : Prop where
  mirror : found.mirror = Cap.null
  c0 : cpu.read (.c 0) = Cap.null
  mdp : mdp.getD Cap.null = Cap.null
  slot4 : slot cpu (frame nativeCall cpu) 4 = Cap.null
  slot1 : nativeCall = true → slot cpu (frame nativeCall cpu) 1 = Cap.null

theorem stored_eq_expected_iff (layout : Layout) (mdp : Option Cap) :
    (∀ k, k < slots nativeCall → stored layout nativeCall found cpu k =
      expected layout nativeCall mdp found cpu k) ↔
        Clear nativeCall mdp found cpu := by
  have enough := twelve_le_slots nativeCall
  constructor
  · intro same
    have slot1 := same 1 (by omega)
    have slot4 := same 4 (by omega)
    have slot5 := same 5 (by omega)
    have slot6 := same 6 (by omega)
    have slot8 := same 8 (by omega)
    simp only [stored, expected] at slot1 slot4 slot5 slot6 slot8
    refine ⟨slot5, slot8, slot6.symm.trans slot8, slot4.trans slot5, ?_⟩
    rintro rfl
    exact slot1
  · intro clear k below
    obtain ⟨mirror, c0, mdp, slot4, slot1⟩ := clear
    have few : k < 14 := below.trans_le (slots_le nativeCall)
    interval_cases k <;> simp only [stored, expected]
    · cases nativeCall with
      | true => exact slot1 rfl
      | false => rfl
    · exact slot4.trans mirror.symm
    · exact mirror
    · exact c0.trans mdp.symm
    · exact c0

/-- The frame is laid out as documented exactly if nothing that the encoding of
`zr` misplaces differs from null. -/
theorem fixedFrame_laid_iff (laws : cheri.Laws)
    (ready : Ready layout nativeCall found cpu) (mdp : Option Cap) :
    (∃ filled cpu', fillFrame cheri layout nativeCall mdp cpu = some filled ∧
      generateFixedFrame cheri layout nativeCall mdp cpu = some cpu' ∧
      Laid layout nativeCall mdp found cpu filled cpu') ↔
        Clear nativeCall mdp found cpu := by
  obtain ⟨filled, cpu', ranFill, ran, frame, mem, rfp⟩ :=
    generateFixedFrame_spec laws ready mdp
  have slots : ∀ k, k < FixedFrame.slots nativeCall →
      slot cpu' (FixedFrame.frame nativeCall cpu) k =
        stored layout nativeCall found cpu k := by
    intro k below
    rw [slot, mem]
    exact frame.slots k below
  rw [← stored_eq_expected_iff layout]
  constructor
  · rintro ⟨filled', last, -, ranLast, laid⟩ k below
    obtain rfl := Option.some.inj (ran.symm.trans ranLast)
    rw [← slots k below]
    exact laid.slots k below
  · intro same
    refine ⟨filled, cpu', ranFill, ran, frame.sp, frame.esp, ?_,
      rfp.trans frame.rfp⟩
    intro k below
    rw [slots k below]
    exact same k below

end Frame

def Layout.sample : Layout where
  constOffset := ⟨16, rfl, by decide⟩
  constantsOffset := ⟨16, rfl, by decide⟩
  poolHolderOffset := ⟨16, rfl, by decide⟩
  mirrorOffset := ⟨16, rfl, by decide⟩
  cacheOffset := ⟨32, rfl, by decide⟩
  codesOffset := 48
  maxStackOffset := 32
  monitorSize := 2
  codesSmall := by decide

/-- A capability for the first 64 KiB. -/
def sampleCap (address : Nat) : Cap :=
  { tag := true
    base := 0
    length := 65536
    address
    perms := { swVmem := false, rest := 1 } }

def Found.sample (mirror : Cap) : Found where
  constMethod := sampleCap 8192
  constants := sampleCap 12288
  poolHolder := sampleCap 16384
  handle := sampleCap 20480
  mirror
  cache := sampleCap 24576

/-- A method at 4096 and a stack that ends at 65536. -/
def sampleCpu (c0 mirror : Cap) : Cpu where
  reg := fun i =>
    if i = 0 then c0 else if i = 12 then sampleCap 4096 else Cap.null
  csp := sampleCap 65536
  mem := fun a =>
    if a = 4112 then sampleCap 8192
    else if a = 8208 then sampleCap 12288
    else if a = 12304 then sampleCap 16384
    else if a = 16400 then sampleCap 20480
    else if a = 20480 then mirror
    else if a = 12320 then sampleCap 24576
    else Cap.null
  data := fun _ => 8
  flags := ⟨false, false, false, false⟩

theorem Holds.sample {mem : Nat → Cap} {a offset : Nat} {v : Cap}
    (aligned : 16 ∣ a + offset) (below : a + offset < 65344)
    (value : mem (a + offset) = v) :
    Holds mem (sampleCap 65344) 12 (sampleCap a) offset v where
  reaches := by
    constructor <;> simp only [sampleCap, addressSpace] <;> omega
  value := value
  outside := .inl below

theorem sample_frame (c0 mirror : Cap) :
    frame false (sampleCpu c0 mirror) = sampleCap 65344 := by
  simp [frame, slots, sampleCpu, sampleCap, Cap.withAddress, Cpu.read]

theorem sample_ready (c0 mirror : Cap) :
    Ready Layout.sample false (Found.sample mirror) (sampleCpu c0 mirror) where
  below := by
    have stackTop : (sampleCpu c0 mirror).read .sp = sampleCap 65536 := rfl
    rw [stackTop]
    decide
  room := by
    rw [sample_frame]
    exact ⟨rfl, by decide, by decide, by decide, by decide⟩
  metadata := by
    rw [sample_frame]
    exact
      { constMethod := .sample (a := 4096) (by decide) (by decide) rfl
        constants := .sample (a := 8192) (by decide) (by decide) rfl
        poolHolder := .sample (a := 12288) (by decide) (by decide) rfl
        handle := .sample (a := 16384) (by decide) (by decide) rfl
        mirror := .sample (a := 20480) (by decide) (by decide) rfl
        cache := .sample (a := 12288) (by decide) (by decide) rfl }
  bytecodes := by
    intro _
    have here : (Found.sample mirror).constMethod = sampleCap 8192 := rfl
    rw [here]
    exact ⟨by decide, by decide, by decide⟩

theorem fixedFrame_laid_iff_null :
    ∃ filled cpu', fillFrame Intrinsics.exact Layout.sample false none
        (sampleCpu Cap.null Cap.null) = some filled ∧
      generateFixedFrame Intrinsics.exact Layout.sample false none
        (sampleCpu Cap.null Cap.null) = some cpu' ∧
      Laid Layout.sample false none (Found.sample Cap.null)
        (sampleCpu Cap.null Cap.null) filled cpu' :=
  (fixedFrame_laid_iff Intrinsics.exact_laws (sample_ready _ _) none).mpr
    ⟨rfl, rfl, rfl, rfl, by decide⟩

/-- A mirror goes to slot 5, and slot 8 is not null. -/
theorem fixedFrame_misplaces :
    Ready Layout.sample false (Found.sample (sampleCap 28672))
        (sampleCpu (sampleCap 32768) (sampleCap 28672)) ∧
      (∃ cpu', generateFixedFrame Intrinsics.exact Layout.sample false none
          (sampleCpu (sampleCap 32768) (sampleCap 28672)) = some cpu' ∧
        slot cpu' (sampleCap 65344) 4 = Cap.null ∧
        slot cpu' (sampleCap 65344) 5 = sampleCap 28672 ∧
        slot cpu' (sampleCap 65344) 6 = sampleCap 32768 ∧
        slot cpu' (sampleCap 65344) 8 = sampleCap 32768) ∧
      ¬ ∃ filled cpu', fillFrame Intrinsics.exact Layout.sample false none
          (sampleCpu (sampleCap 32768) (sampleCap 28672)) = some filled ∧
        generateFixedFrame Intrinsics.exact Layout.sample false none
          (sampleCpu (sampleCap 32768) (sampleCap 28672)) = some cpu' ∧
        Laid Layout.sample false none (Found.sample (sampleCap 28672))
          (sampleCpu (sampleCap 32768) (sampleCap 28672)) filled cpu' := by
  have ready := sample_ready (sampleCap 32768) (sampleCap 28672)
  obtain ⟨filled, cpu', -, ran, frame, mem, -⟩ :=
    generateFixedFrame_spec Intrinsics.exact_laws ready none
  have slots : ∀ k, k < 12 → slot cpu' (sampleCap 65344) k =
      stored Layout.sample false (Found.sample (sampleCap 28672))
        (sampleCpu (sampleCap 32768) (sampleCap 28672)) k := by
    intro k below
    rw [slot, mem]
    exact frame.slots k below
  have slot5 := slots 5 (by decide)
  refine ⟨ready, ⟨cpu', ran, slots 4 (by decide), slot5, slots 6 (by decide),
    slots 8 (by decide)⟩, ?_⟩
  rintro ⟨filled', last, -, ranLast, laid⟩
  obtain rfl := Option.some.inj (ran.symm.trans ranLast)
  have null : sampleCap 28672 = Cap.null :=
    slot5.symm.trans (laid.slots 5 (by decide))
  exact absurd null (by decide)

end FixedFrame

end Morello

end StoplessGC
