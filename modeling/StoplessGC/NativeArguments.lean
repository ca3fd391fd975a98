import StoplessGC.MachineCode
import StoplessGC.Foundation.SerialLayout

/-!
# Native arguments on the stack

The signature handler passes the arguments of a native method that do not fit
into registers in slots of 8 or 16 bytes above `sp`.  The native entry reserves
16 bytes for each parameter slot of the method below the frame.
-/

namespace StoplessGC

namespace Morello

namespace NativeArguments

open SerialLayout

/-- `sizeof` of a native argument. -/
structure ElemSize where
  bytes : Nat
  native : bytes ∈ [1, 2, 4, 8, 16]

def slot (elemSize : Nat) : Nat := if elemSize < 8 then 8 else elemSize

/-- `next_stack_offset`: the offset of the argument and the new
`_stack_offset`. -/
def nextStackOffset (stackOffset elemSize : Nat) : Nat × Nat :=
  let stackOffset := Alignment.up (slot elemSize) stackOffset
  (stackOffset, stackOffset + slot elemSize)

/-- Successive calls. -/
def stackOffsets : Nat → List ElemSize → List Nat
  | _, [] => []
  | stackOffset, size :: sizes =>
      let (offset, stackOffset) := nextStackOffset stackOffset size.bytes
      offset :: stackOffsets stackOffset sizes

/-- A parameter, with the number of words that it has in the Java signature. -/
structure Param where
  size : ElemSize
  words : Nat
  positive : 0 < words

/-- `Method::size_of_parameters()` -/
def sizeOfParameters (isStatic : Bool) (params : List Param) : Nat :=
  (if isStatic then 0 else 1) + (params.map Param.words).sum

abbrev rscratch1 : Register := .c 8
abbrev rscratch2 : Register := .c 9
abbrev t : Register := .c 11
abbrev rmethod : Register := .c 12
abbrev esp : Register := .c 20

/-- `generate_native_entry`: the space for parameters. -/
def allocateParameters (constOffset : FieldOffset)
    (sizeOfParametersOffset : Int) : List Code :=
  [.emit (capLdrImm t rmethod constOffset.bytes),
    .stock (.ldrH t t sizeOfParametersOffset),
    .stock (.lslX rscratch1 t 4),
    .stock (.negX rscratch2 rscratch1),
    .emit (capAddReg esp esp rscratch2),
    .emit (capAddImm .sp esp 0)]

namespace ElemSize

theorem slot_eq_max (size : ElemSize) : slot size.bytes = max 8 size.bytes := by
  unfold slot
  split <;> omega

theorem slot_cases (size : ElemSize) :
    slot size.bytes = 8 ∨ slot size.bytes = 16 := by
  have native := size.native
  simp only [List.mem_cons, List.not_mem_nil, or_false] at native
  unfold slot
  split <;> omega

/-- The slot as an item of a layout. -/
def item (size : ElemSize) : Item where
  align := slot size.bytes
  size := slot size.bytes
  positive := by
    rcases size.slot_cases with small | large
    · omega
    · omega

theorem item_fits (size : ElemSize) :
    size.item.align ∣ 16 ∧ size.item.size ≤ 16 := by
  change slot size.bytes ∣ 16 ∧ slot size.bytes ≤ 16
  rcases size.slot_cases with small | large
  · rw [small]
    exact ⟨by decide, by decide⟩
  · rw [large]
    exact ⟨by decide, by decide⟩

end ElemSize

/-- Offsets that the calling convention allows: in order and each at a multiple
of its slot. -/
abbrev Aapcs (sizes : List ElemSize) (offsets : List Nat) : Prop :=
  Placement 0 (sizes.map ElemSize.item) offsets

theorem stackOffsets_eq_place (stackOffset : Nat) (sizes : List ElemSize) :
    stackOffsets stackOffset sizes =
      place stackOffset (sizes.map ElemSize.item) := by
  induction sizes generalizing stackOffset with
  | nil => rfl
  | cons size sizes ih =>
      have rest := ih (nextStackOffset stackOffset size.bytes).2
      exact congrArg (List.cons _) rest

section Layout

variable (sizes : List ElemSize)

theorem stackOffsets_aapcs : Aapcs sizes (stackOffsets 0 sizes) := by
  rw [stackOffsets_eq_place]
  exact place_placement 0 _

variable {sizes} {k offset : Nat} {size : ElemSize}

theorem stackOffsets_end_le (at_ : (stackOffsets 0 sizes)[k]? = some offset)
    (here : sizes[k]? = some size) :
    offset + slot size.bytes ≤ 16 * (k + 1) := by
  rw [stackOffsets_eq_place] at at_
  have fits : ∀ item ∈ sizes.map ElemSize.item,
      item.align ∣ 16 ∧ item.size ≤ 16 := by
    intro item member
    obtain ⟨s, -, rfl⟩ := List.mem_map.mp member
    exact s.item_fits
  have item : (sizes.map ElemSize.item)[k]? = some size.item := by
    rw [List.getElem?_map, here]
    rfl
  have bound := @place_end_le 16 0 0 _ fits (Nat.zero_le _) _ _ _ at_ item
  rwa [Nat.zero_add] at bound

end Layout

/-- An argument is at least one word of the signature. -/
theorem length_le_sizeOfParameters (isStatic : Bool) (params : List Param) :
    params.length ≤ sizeOfParameters isStatic params := by
  refine le_trans ?_ (Nat.le_add_left _ _)
  induction params with
  | nil => exact Nat.le_refl 0
  | cons param params ih =>
      have positive := param.positive
      rw [List.length_cons, List.map_cons, List.sum_cons]
      omega

/-- A native entry with the parameters of the method on the stack. -/
structure Ready (constOffset : FieldOffset) (sizeOfParametersOffset : Int)
    (size : Nat) (cpu : Cpu) : Prop where
  method : Reaches (cpu.read rmethod) constOffset.bytes
  field : Accessible
    (cpu.mem ((cpu.read rmethod).address + constOffset.bytes))
    (offsetBy (cpu.mem ((cpu.read rmethod).address + constOffset.bytes))
      sizeOfParametersOffset) 2
  value : cpu.data
    (offsetBy (cpu.mem ((cpu.read rmethod).address + constOffset.bytes))
      sizeOfParametersOffset) % 2 ^ 16 = size
  room : (cpu.read esp).base + 16 * size ≤ (cpu.read esp).address
  upper : (cpu.read esp).address ≤ (cpu.read esp).base + (cpu.read esp).length
  word : (cpu.read esp).address < addressSpace

/-- The stack pointer below the space for parameters. -/
def lowered (cpu : Cpu) (size : Nat) : Cap :=
  (cpu.read esp).withAddress ((cpu.read esp).address - 16 * size)

section Allocation

variable {cheri : Intrinsics} {constOffset : FieldOffset}
  {sizeOfParametersOffset : Int} {size : Nat} {cpu : Cpu}

theorem Ready.run_count
    (ready : Ready constOffset sizeOfParametersOffset size cpu)
    (rest : List Code) :
    run cheri (.emit (capLdrImm t rmethod constOffset.bytes) ::
        .stock (.ldrH t t sizeOfParametersOffset) :: rest) cpu =
      run cheri rest (cpu.writeX t size) := by
  obtain ⟨method, field, value, -, -, -⟩ := ready
  generalize found : cpu.mem ((cpu.read rmethod).address + constOffset.bytes) =
    constMethod at *
  have loaded : (Code.emit (capLdrImm t rmethod constOffset.bytes)).exec cheri
      cpu = some (cpu.write t constMethod) := by
    apply exec_loadField cpu (Register.isGpr_c 11) (Register.isGpr_c 12)
    rw [Cpu.load_reaches method, found]
  have counted : (Code.stock (.ldrH t t sizeOfParametersOffset)).exec cheri
      (cpu.write t constMethod) =
        some ((cpu.write t constMethod).writeX t size) := by
    have here : (cpu.write t constMethod).read t = constMethod :=
      Cpu.read_write_self _ _ (by simp)
    simp only [Code.exec, Instr.exec, Cpu.loadData, here, if_pos field,
      Cpu.write_data]
    rw [value]
    rfl
  rw [Cpu.writeX, Cpu.write_write] at counted
  exact (run_cons loaded _).trans (run_cons counted rest)

theorem run_lowerPointers (laws : cheri.Laws)
    (number : cpu.read t = Cap.ofInt size)
    (room : (cpu.read esp).base + 16 * size ≤ (cpu.read esp).address)
    (upper : (cpu.read esp).address ≤
      (cpu.read esp).base + (cpu.read esp).length)
    (word : (cpu.read esp).address < addressSpace) :
    ∃ cpu', run cheri [.stock (.lslX rscratch1 t 4),
        .stock (.negX rscratch2 rscratch1),
        .emit (capAddReg esp esp rscratch2), .emit (capAddImm .sp esp 0)]
        cpu = some cpu' ∧
      cpu'.read .sp = lowered cpu size ∧ cpu'.read esp = lowered cpu size ∧
      cpu'.mem = cpu.mem := by
  have negated (rest : List Code) : run cheri (.stock (.lslX rscratch1 t 4) ::
      .stock (.negX rscratch2 rscratch1) :: rest) cpu = _ :=
    run_negatedSlots number (by simp) rest
  generalize distance : (cpu.writeX rscratch1 (size * 2 ^ 4)).writeX rscratch2
    (addressSpace - size * 2 ^ 4 % addressSpace) = cpu₁ at negated
  have offset : (cpu₁.read rscratch2).address =
      (addressSpace - size * 2 ^ 4 % addressSpace) % addressSpace := by
    rw [← distance, Cpu.writeX, Cpu.read_write_self _ _ (by simp),
      Cap.ofInt_address]
  have kept : cpu₁.read esp = cpu.read esp := by
    simp [← distance, Cpu.writeX]
  have mem : cpu₁.mem = cpu.mem := by
    simp [← distance, Cpu.writeX]
  have added : (Code.emit (capAddReg esp esp rscratch2)).exec cheri cpu₁ =
      some (cpu₁.write esp (lowered cpu size)) := by
    rw [exec_capAddReg cpu₁ (Register.isGpr_c 20) (Register.isGpr_c 20)
      (Register.isGpr_c 9), kept, offset, lowered,
      moveBy_offsetBy laws (offsetBy_negatedSlots (by omega) word) (by omega)
        (by omega)]
  have here : (cpu₁.write esp (lowered cpu size)).read esp =
      lowered cpu size := Cpu.read_write_self _ _ (by simp)
  have same : moveBy cheri (lowered cpu size) (0 % 4096) =
      lowered cpu size := by
    apply moveBy_zero laws <;>
      simp only [lowered, Cap.withAddress_address, Cap.withAddress_base,
        Cap.withAddress_length] <;> omega
  have copied : (Code.emit (capAddImm .sp esp 0)).exec cheri
      (cpu₁.write esp (lowered cpu size)) =
        some ((cpu₁.write esp (lowered cpu size)).write .sp
          (lowered cpu size)) := by
    rw [exec_capAddImm _ (by simp) (by simp), here, same]
  refine ⟨_, (negated _).trans ((run_cons added _).trans
    (run_cons copied [])), Cpu.read_write_self _ _ (by simp), ?_, ?_⟩
  · rw [Cpu.read_write_of_ne _ _ (by simp), here]
  · rw [Cpu.write_mem, Cpu.write_mem, mem]

theorem Ready.run_allocateParameters (laws : cheri.Laws)
    (ready : Ready constOffset sizeOfParametersOffset size cpu) :
    ∃ cpu', run cheri (allocateParameters constOffset sizeOfParametersOffset)
        cpu = some cpu' ∧
      cpu'.read .sp = lowered cpu size ∧ cpu'.read esp = lowered cpu size ∧
      cpu'.mem = cpu.mem := by
  have small : size < addressSpace := by
    rw [← ready.value]
    exact Nat.lt_trans (Nat.mod_lt _ (by decide)) (by decide)
  have pointer : (cpu.writeX t size).read esp = cpu.read esp :=
    Cpu.read_write_of_ne _ _ (by simp)
  have same : lowered (cpu.writeX t size) size = lowered cpu size := by
    rw [lowered, lowered, pointer]
  obtain ⟨cpu', ran, sp, top, mem⟩ := run_lowerPointers laws
    (Cpu.read_writeX_self cpu (by simp) small)
    (by rw [pointer]; exact ready.room) (by rw [pointer]; exact ready.upper)
    (by rw [pointer]; exact ready.word)
  rw [same] at sp top
  exact ⟨cpu', (ready.run_count _).trans ran, sp, top,
    mem.trans (Cpu.write_mem ..)⟩

end Allocation

theorem stack_arguments_below_frame {isStatic : Bool} {params stack : List Param}
    (part : stack.Sublist params) {k offset : Nat} {param : Param}
    (at_ : (stackOffsets 0 (stack.map Param.size))[k]? = some offset)
    (here : stack[k]? = some param) :
    offset + slot param.size.bytes ≤ 16 * sizeOfParameters isStatic params := by
  have size : (stack.map Param.size)[k]? = some param.size := by
    rw [List.getElem?_map, here]
    rfl
  have bound := stackOffsets_end_le at_ size
  have inside : k < stack.length := (List.getElem?_eq_some_iff.mp here).1
  have fewer := part.length_le
  have words := length_le_sizeOfParameters isStatic params
  omega

/-- Successive arguments lie one above the other, aligned and as low as the
calling convention allows, and all of them in the space that the native entry
reserves below the frame. -/
theorem native_stack_arguments_fit {cheri : Intrinsics} (laws : cheri.Laws) :
    (∀ sizes : List ElemSize,
      (stackOffsets 0 sizes).length = sizes.length ∧
      (∀ (k offset : Nat) (size : ElemSize), (stackOffsets 0 sizes)[k]? = some offset →
        sizes[k]? = some size →
        max 8 size.bytes ∣ offset ∧
          offset + max 8 size.bytes ≤ 16 * (k + 1) ∧
          ∀ j next : Nat, k < j → (stackOffsets 0 sizes)[j]? = some next →
            offset < next ∧ offset + max 8 size.bytes ≤ next) ∧
      ∀ offsets, Aapcs sizes offsets →
        List.Forall₂ (· ≤ ·) (stackOffsets 0 sizes) offsets) ∧
    ∀ (isStatic : Bool) (params stack : List Param), stack.Sublist params →
      ∀ (constOffset : FieldOffset) (sizeOfParametersOffset : Int) (cpu : Cpu),
        Ready constOffset sizeOfParametersOffset
          (sizeOfParameters isStatic params) cpu →
        ∃ cpu', run cheri (allocateParameters constOffset
            sizeOfParametersOffset) cpu = some cpu' ∧
          ∀ (k offset : Nat) (param : Param),
            (stackOffsets 0 (stack.map Param.size))[k]? = some offset →
            stack[k]? = some param →
            (cpu'.read .sp).address + offset + max 8 param.size.bytes ≤
              (cpu.read esp).address := by
  constructor
  · intro sizes
    have placement := stackOffsets_aapcs sizes
    refine ⟨?_, ?_, ?_⟩
    · have length := placement.length_eq
      rwa [List.length_map] at length
    · intro k offset size at_ here
      have item : (sizes.map ElemSize.item)[k]? = some size.item := by
        rw [List.getElem?_map, here]
        rfl
      rw [← size.slot_eq_max]
      refine ⟨placement.aligned at_ item, stackOffsets_end_le at_ here, ?_⟩
      intro j next before later
      have ends : offset + slot size.bytes ≤ next :=
        placement.end_le before at_ item later
      have positive : 0 < slot size.bytes := size.item.positive
      exact ⟨by omega, ends⟩
    · intro offsets other
      rw [stackOffsets_eq_place]
      exact place_least (Nat.le_refl 0) other
  · intro isStatic params stack part constOffset sizeOfParametersOffset cpu ready
    obtain ⟨cpu', ran, pointer, -, -⟩ := ready.run_allocateParameters laws
    refine ⟨cpu', ran, ?_⟩
    intro k offset param at_ here
    have below : offset + slot param.size.bytes ≤
        16 * sizeOfParameters isStatic params :=
      stack_arguments_below_frame part at_ here
    have room := ready.room
    rw [← param.size.slot_eq_max, pointer, lowered, Cap.withAddress_address]
    omega

/-- Three parameters, of which two go on the stack. -/
def sampleParams : List Param :=
  [⟨⟨4, by decide⟩, 1, by decide⟩, ⟨⟨16, by decide⟩, 1, by decide⟩,
    ⟨⟨8, by decide⟩, 2, by decide⟩]

def sampleEntry : Cpu where
  reg := fun i =>
    { tag := true
      base := 0
      length := 2 ^ 16
      address := if i = 20 then 2 ^ 15 else 2 ^ 10
      perms := { swVmem := false, rest := 1 } }
  csp := Cap.null
  mem := fun _ =>
    { tag := true
      base := 2 ^ 16
      length := 4096
      address := 2 ^ 16
      perms := { swVmem := false, rest := 1 } }
  data := fun _ => 4
  flags := ⟨false, false, false, false⟩

theorem sampleEntry_ready :
    Ready ⟨16, by decide, by decide⟩ 42
      (sizeOfParameters true sampleParams) sampleEntry where
  method := ⟨by decide, by decide, by decide, by decide, by decide⟩
  field := by decide
  value := by decide
  room := by decide
  upper := by decide
  word := by decide

theorem native_stack_arguments_fit_sample :
    ∃ cpu', run Intrinsics.exact (allocateParameters ⟨16, by decide, by decide⟩
        42) sampleEntry = some cpu' ∧
      (cpu'.read .sp).address + 16 + 8 ≤ 2 ^ 15 := by
  obtain ⟨cpu', ran, below⟩ :=
    (native_stack_arguments_fit Intrinsics.exact_laws).2 true sampleParams
      (sampleParams.drop 1) (List.drop_sublist 1 _) _ _ sampleEntry
      sampleEntry_ready
  exact ⟨cpu', ran, below 1 16 ⟨⟨8, by decide⟩, 2, by decide⟩ rfl rfl⟩

end NativeArguments

end Morello

end StoplessGC
