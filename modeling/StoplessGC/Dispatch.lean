import StoplessGC.TlabAllocate

/-!
# Virtual and interface dispatch

An index into a vtable or itable is given in a register or as a constant.  In
a register it is shifted and added whole.  As a constant it goes into the
immediate of a load (`lookup_virtual_method`) or of an addition
(`lookup_interface_method`), where it may not fit.

The loop of `lookup_interface_method` that searches the itable is a parameter.
It leaves the receiver klass alone and ends with the scan register at the entry
of the interface.
-/

namespace StoplessGC

namespace Morello

open BitFields

/-- `RegisterOrConstant` -/
inductive RegisterOrConstant where
  | reg (r : Fin 31)
  | con (i : Nat)
deriving DecidableEq, Repr

/-- The value of an index. -/
def RegisterOrConstant.value (index : RegisterOrConstant) (cpu : Cpu) : Nat :=
  match index with
  | reg r => (cpu.read (.c r)).address
  | con i => i

/-- A conversion to `int`. -/
def toInt (n : Nat) : Int := signed 32 (n % 2 ^ 32)

/-- `lookup_virtual_method`; `tableBase` and `methodOffset` stand for
`vtable_start_offset` and `vtableEntry::method_offset_in_bytes`. -/
def lookupVirtualMethod (recvKlass : Fin 31) (index : RegisterOrConstant)
    (methodResult : Fin 31) (tableBase methodOffset : Nat) : List Code :=
  match index with
  | .reg r =>
      [.stock (.lslX rscratch1 (.c r) 4),
        .emit (capAddReg (.c methodResult) (.c recvKlass) rscratch1),
        .emit (capLdrImm (.c methodResult) (.c methodResult)
          (toInt (tableBase + methodOffset)))]
  | .con i =>
      [.emit (capLdrImm (.c methodResult) (.c recvKlass)
        (toInt (tableBase + methodOffset + i * 16)))]

section Loads

theorem memOffset_bounds (imm : Int) :
    -256 ≤ memOffset imm ∧ memOffset imm < 65536 := by
  have cut := @signed_bounds 9 (imm % 2 ^ 9).toNat (by decide) (by omega)
  unfold memOffset
  split <;> omega

theorem memOffset_toInt_iff (offset : Nat) :
    memOffset (toInt offset) = offset ↔ MemEncodable offset := by
  constructor
  · intro same
    have cut := @signed_bounds 9 (toInt offset % 2 ^ 9).toNat (by decide)
      (by omega)
    unfold MemEncodable
    unfold memOffset at same
    split at same <;> omega
  · intro fits
    have small : toInt offset = offset := by
      unfold MemEncodable at fits
      unfold toInt signed
      split <;> omega
    rw [small]
    exact (memOffset_eq_iff _).mpr fits

end Loads

section Virtual

variable {cheri : Intrinsics} {recvKlass methodResult : Fin 31}
  {tableBase methodOffset : Nat}

/-- The code loads the `Method*` of entry `i` of every klass that has one. -/
def LoadsMethod (cheri : Intrinsics) (recvKlass : Fin 31)
    (index : RegisterOrConstant) (methodResult : Fin 31)
    (tableBase methodOffset i : Nat) : Prop :=
  ∀ cpu : Cpu, index.value cpu = i →
    Reaches (cpu.read (.c recvKlass)) (tableBase + i * 16 + methodOffset) →
    ∃ cpu', run cheri (lookupVirtualMethod recvKlass index methodResult
        tableBase methodOffset) cpu = some cpu' ∧
      cpu'.read (.c methodResult) =
        cpu.mem ((cpu.read (.c recvKlass)).address +
          (tableBase + i * 16 + methodOffset))

theorem run_capLdrImm (cpu : Cpu) (t n : Fin 31) (imm : Int) :
    run cheri [.emit (capLdrImm (.c t) (.c n) imm)] cpu =
      (cpu.load (.c n) (memOffset imm)).map (cpu.write (.c t)) := by
  rw [run, exec_capLdrImm cpu (Register.isGpr_c t) (Register.isGpr_c n)]
  simp only [Instr.exec]
  cases cpu.load (.c n) (memOffset imm) <;> rfl

/-- The state before the load, when the index is in a register. -/
def indexed (cheri : Intrinsics) (cpu : Cpu) (recvKlass r methodResult : Fin 31) :
    Cpu :=
  (cpu.writeX rscratch1 ((cpu.read (.c r)).address * 2 ^ 4)).write
    (.c methodResult)
    (moveBy cheri (cpu.read (.c recvKlass))
      ((cpu.read (.c r)).address * 2 ^ 4 % addressSpace : Nat))

theorem run_lookup_reg (cpu : Cpu) {r : Fin 31} (klassFree : recvKlass ≠ 8) :
    run cheri (lookupVirtualMethod recvKlass (.reg r) methodResult tableBase
        methodOffset) cpu =
      run cheri [.emit (capLdrImm (.c methodResult) (.c methodResult)
        (toInt (tableBase + methodOffset)))]
        (indexed cheri cpu recvKlass r methodResult) := by
  have gpr := Register.isGpr_c
  have shifted : (Code.stock (.lslX rscratch1 (.c r) 4)).exec cheri cpu =
      some (cpu.writeX rscratch1 ((cpu.read (.c r)).address * 2 ^ 4)) := rfl
  rw [lookupVirtualMethod, run_cons shifted,
    run_cons (exec_capAddReg _ (gpr _) (gpr _) (gpr _))]
  simp [indexed, Cpu.writeX, klassFree]

theorem indexed_base (laws : cheri.Laws) {cpu : Cpu} {r : Fin 31} {i rest : Nat}
    (value : (cpu.read (.c r)).address = i)
    (reaches : Reaches (cpu.read (.c recvKlass)) (i * 16 + rest))
    (methodResult : Fin 31) :
    (indexed cheri cpu recvKlass r methodResult).read (.c methodResult) =
      (cpu.read (.c recvKlass)).withAddress
        ((cpu.read (.c recvKlass)).address + i * 16) := by
  have word := reaches.word
  have whole : i * 2 ^ 4 % addressSpace = i * 16 := Nat.mod_eq_of_lt (by omega)
  simp only [indexed, value, whole, reaches.moveBy laws]
  simp

theorem indexed_mem (cpu : Cpu) (r : Fin 31) :
    (indexed cheri cpu recvKlass r methodResult).mem = cpu.mem := by
  simp [indexed, Cpu.writeX]

theorem loadsMethod_reg (laws : cheri.Laws) {r : Fin 31}
    (klassFree : recvKlass ≠ 8) (i : Nat)
    (fits : MemEncodable (tableBase + methodOffset : Nat)) :
    LoadsMethod cheri recvKlass (.reg r) methodResult tableBase methodOffset
      i := by
  intro cpu value reaches
  change (cpu.read (.c r)).address = i at value
  have split : tableBase + i * 16 + methodOffset =
      i * 16 + (tableBase + methodOffset) := by omega
  rw [split] at reaches ⊢
  have base := indexed_base laws value reaches methodResult
  have slot := reaches.withAddress
  rw [← base] at slot
  have loaded := Cpu.load_reaches slot
  rw [base] at loaded
  rw [run_lookup_reg cpu klassFree, run_capLdrImm,
    (memOffset_toInt_iff _).mpr fits, loaded]
  refine ⟨_, rfl, ?_⟩
  simp [indexed_mem, Cap.withAddress, Nat.add_assoc]

theorem loadsMethod_con (i : Nat)
    (fits : MemEncodable (tableBase + methodOffset + i * 16 : Nat)) :
    LoadsMethod cheri recvKlass (.con i) methodResult tableBase methodOffset
      i := by
  intro cpu _ reaches
  have order : tableBase + i * 16 + methodOffset =
      tableBase + methodOffset + i * 16 := by omega
  rw [order] at reaches ⊢
  rw [lookupVirtualMethod, run_capLdrImm, (memOffset_toInt_iff _).mpr fits,
    Cpu.load_reaches reaches]
  exact ⟨_, rfl, by simp⟩

/-- A klass in one register, its index in the others, and a single method. -/
def Cpu.probe (recvKlass : Fin 31) (klass : Cap) (i slot : Nat) : Cpu where
  reg := fun k => if k = recvKlass then klass else Cap.ofInt i
  csp := Cap.null
  mem := fun p => if p = slot then klass else Cap.null
  data := fun _ => 0
  flags := ⟨false, false, false, false⟩

/-- A klass over all of memory, with an aligned slot at the offset. -/
def probeKlass (offset : Nat) : Cap :=
  { tag := true
    base := 0
    length := addressSpace
    address := 4096 - offset % 16
    perms := { swVmem := false, rest := 1 } }

theorem probeKlass_reaches {offset : Nat} (small : offset < 2 ^ 63) :
    Reaches (probeKlass offset) offset := by
  constructor
  · rfl
  · exact Nat.zero_le _
  · simp only [probeKlass, addressSpace]
    omega
  · simp only [probeKlass, addressSpace]
    omega
  · simp only [probeKlass]
    omega

theorem probe_value {r : Fin 31} (indexFree : r ≠ recvKlass) (klass : Cap)
    (i slot : Nat) :
    RegisterOrConstant.value (.reg r) (Cpu.probe recvKlass klass i slot) =
      i := by
  simp [RegisterOrConstant.value, Cpu.probe, Cpu.read, indexFree]

@[simp] theorem probe_klass (klass : Cap) (i slot : Nat) :
    (Cpu.probe recvKlass klass i slot).read (.c recvKlass) = klass := by
  simp [Cpu.probe, Cpu.read]

theorem offsetBy_ne {c : Cap} {offset : Nat} {imm : Int}
    (high : 256 ≤ c.address)
    (word : c.address + offset + 65536 < addressSpace)
    (miss : memOffset imm ≠ offset) :
    offsetBy c (memOffset imm) ≠ c.address + offset := by
  have bounds := memOffset_bounds imm
  rw [addressSpace] at word
  have here : offsetBy c (memOffset imm) =
      ((c.address : Int) + memOffset imm).toNat :=
    offsetBy_eq (by omega) (by rw [addressSpace]; omega)
  omega

theorem load_elsewhere {cpu cpu' : Cpu} {t n : Fin 31} {imm : Int}
    {slot : Nat} (only : ∀ p, p ≠ slot → cpu.mem p = Cap.null)
    (miss : offsetBy (cpu.read (.c n)) (memOffset imm) ≠ slot)
    (ran : run cheri [.emit (capLdrImm (.c t) (.c n) imm)] cpu = some cpu') :
    cpu'.read (.c t) = Cap.null := by
  rw [run_capLdrImm, Option.map_eq_some_iff] at ran
  obtain ⟨v, loaded, rfl⟩ := ran
  rw [Cpu.read_write_self _ _ (by simp)]
  unfold Cpu.load Cpu.loadAt at loaded
  split at loaded
  · cases loaded
    exact only _ miss
  · cases loaded

theorem probeKlass_ne_null (offset : Nat) : probeKlass offset ≠ Cap.null := by
  intro same
  have tags := congrArg Cap.tag same
  cases tags

theorem loadsMethod_con_iff {i : Nat}
    (small : tableBase + methodOffset + i * 16 < 2 ^ 63) :
    LoadsMethod cheri recvKlass (.con i) methodResult tableBase methodOffset
        i ↔
      MemEncodable (tableBase + methodOffset + i * 16 : Nat) := by
  refine ⟨?_, loadsMethod_con i⟩
  intro loads
  have order : tableBase + i * 16 + methodOffset =
      tableBase + methodOffset + i * 16 := by omega
  rw [← memOffset_toInt_iff]
  by_contra miss
  have slot := probeKlass_reaches small
  have klass : 4080 ≤ (probeKlass (tableBase + methodOffset + i * 16)).address ∧
      (probeKlass (tableBase + methodOffset + i * 16)).address ≤ 4096 := by
    simp only [probeKlass]
    omega
  obtain ⟨cpu', ran, found⟩ := loads
    (Cpu.probe recvKlass (probeKlass (tableBase + methodOffset + i * 16)) i
      ((probeKlass (tableBase + methodOffset + i * 16)).address +
        (tableBase + methodOffset + i * 16))) rfl
    (by rw [probe_klass, order]; exact slot)
  rw [probe_klass, order] at found
  have missed := load_elsewhere (fun p other => if_neg other)
    (by
      rw [probe_klass]
      exact offsetBy_ne (by omega) (by rw [addressSpace]; omega) miss) ran
  rw [missed] at found
  exact probeKlass_ne_null _ (found.trans (if_pos rfl)).symm

theorem loadsMethod_reg_iff (laws : cheri.Laws) {r : Fin 31}
    (klassFree : recvKlass ≠ 8) (indexFree : r ≠ recvKlass) {i : Nat}
    (small : i * 16 + (tableBase + methodOffset) < 2 ^ 63) :
    LoadsMethod cheri recvKlass (.reg r) methodResult tableBase methodOffset
        i ↔
      MemEncodable (tableBase + methodOffset : Nat) := by
  refine ⟨?_, loadsMethod_reg laws klassFree i⟩
  intro loads
  have order : tableBase + i * 16 + methodOffset =
      i * 16 + (tableBase + methodOffset) := by omega
  rw [← memOffset_toInt_iff]
  by_contra miss
  generalize klass_eq : probeKlass (i * 16 + (tableBase + methodOffset)) =
    klass at *
  have slot := probeKlass_reaches small
  rw [klass_eq] at slot
  have place : 4080 ≤ klass.address ∧ klass.address ≤ 4096 := by
    rw [← klass_eq]
    simp only [probeKlass]
    omega
  have value := probe_value indexFree klass i
    (klass.address + (i * 16 + (tableBase + methodOffset)))
  obtain ⟨cpu', ran, found⟩ := loads _ value
    (by rw [probe_klass, order]; exact slot)
  rw [run_lookup_reg _ klassFree] at ran
  have base := indexed_base laws value (by rw [probe_klass]; exact slot)
    methodResult
  rw [probe_klass] at base
  rw [probe_klass, order] at found
  have only : ∀ p, p ≠ klass.address + (i * 16 + (tableBase + methodOffset)) →
      (indexed cheri (Cpu.probe recvKlass klass i
        (klass.address + (i * 16 + (tableBase + methodOffset)))) recvKlass r
          methodResult).mem p = Cap.null := by
    rw [indexed_mem]
    exact fun p other => if_neg other
  have missed := load_elsewhere only
    (by
      rw [base, ← Nat.add_assoc]
      refine offsetBy_ne ?_ ?_ miss
      · simp only [Cap.withAddress]
        omega
      · simp only [Cap.withAddress, addressSpace]
        omega) ran
  rw [missed] at found
  have null := (found.trans (if_pos rfl)).symm
  rw [← klass_eq] at null
  exact probeKlass_ne_null _ null

end Virtual

/-- A use of `lookup_interface_method` that returns the method.  The offsets
stand for `vtable_start_offset` and `offset_offset_in_bytes`. -/
structure ItableSite where
  recvKlass : Fin 31
  methodResult : Fin 31
  scanTemp : Fin 31
  vtableBase : Nat
  offsetOffset : Nat
  scanFree : scanTemp ≠ recvKlass
  aligned : 4 ∣ offsetOffset
  small : offsetOffset < 4096

namespace ItableSite

variable {cheri : Intrinsics} (site : ItableSite)

/-- The start of the itable into the scan register. -/
def start : List Code :=
  [.stock (.lslX (.c site.scanTemp) (.c site.scanTemp) 4),
    .emit (capAddReg (.c site.scanTemp) (.c site.recvKlass) (.c site.scanTemp)),
    .emit (capAddImm (.c site.scanTemp) (.c site.scanTemp) site.vtableBase)]

/-- The receiver klass moved by the scaled index. -/
def addIndex : RegisterOrConstant → List Code
  | .reg r =>
      [.stock (.lslX (.c r) (.c r) 4),
        .emit (capAddReg (.c site.recvKlass) (.c site.recvKlass) (.c r))]
  | .con i =>
      [.emit (capAddImm (.c site.recvKlass) (.c site.recvKlass)
        ((i * 16 : Nat) : Int))]

/-- The receiver klass moved to the method entries of the index. -/
def adjust (index : RegisterOrConstant) (itentryOff : Nat) : List Code :=
  site.addIndex index ++
    if itentryOff ≠ 0 then
      [.emit (capAddImm (.c site.recvKlass) (.c site.recvKlass) itentryOff)]
    else []

/-- The load of the method when the interface is found. -/
def hit : List Code :=
  [.stock (.ldrW (.c site.scanTemp) (.c site.scanTemp) site.offsetOffset),
    .emit (capLdrIndexed (.c site.methodResult) (.c site.recvKlass)
      (.c site.scanTemp) 0)]

end ItableSite

/-- `lookup_interface_method` with the search of the itable as a parameter. -/
def lookupInterfaceMethod (cheri : Intrinsics) (site : ItableSite)
    (index : RegisterOrConstant) (itentryOff : Nat) (scan : Cpu → Option Cpu)
    (cpu : Cpu) : Option Cpu := do
  let cpu ← run cheri (site.start ++ site.adjust index itentryOff) cpu
  let cpu ← scan cpu
  run cheri site.hit cpu

/-- The search, from a given state, finds an interface whose methods are
`tableOffset` bytes into the klass. -/
def Finds (site : ItableSite) (scan : Cpu → Option Cpu) (tableOffset : Nat)
    (cpu : Cpu) : Prop :=
  ∃ cpu', scan cpu = some cpu' ∧
    cpu'.read (.c site.recvKlass) = cpu.read (.c site.recvKlass) ∧
    cpu'.mem = cpu.mem ∧
    cpu'.loadData (.c site.scanTemp) site.offsetOffset 4 = some tableOffset

/-- The receiver klass is moved by exactly `i * 16 + itentryOff` bytes, and the
method is loaded from the slot that this leads to. -/
def LoadsItableMethod (cheri : Intrinsics) (site : ItableSite)
    (index : RegisterOrConstant) (itentryOff i : Nat) : Prop :=
  ∀ (cpu : Cpu) (scan : Cpu → Option Cpu) (tableOffset : Nat),
    index.value cpu = i →
    Reaches (cpu.read (.c site.recvKlass)) (i * 16 + itentryOff + tableOffset) →
    (∀ before, run cheri (site.start ++ site.adjust index itentryOff) cpu =
      some before → Finds site scan tableOffset before) →
    ∃ before cpu',
      run cheri (site.start ++ site.adjust index itentryOff) cpu =
        some before ∧
      before.read (.c site.recvKlass) =
        (cpu.read (.c site.recvKlass)).withAddress
          ((cpu.read (.c site.recvKlass)).address + (i * 16 + itentryOff)) ∧
      lookupInterfaceMethod cheri site index itentryOff scan cpu = some cpu' ∧
      cpu'.read (.c site.methodResult) =
        cpu.mem ((cpu.read (.c site.recvKlass)).address +
          (i * 16 + itentryOff + tableOffset))

/-- What is really added for an index. -/
def RegisterOrConstant.scaled (index : RegisterOrConstant) (i : Nat) : Nat :=
  match index with
  | reg _ => i * 16
  | con _ => i * 16 % 4096

/-- An index register that the code may shift in place. -/
def RegisterOrConstant.Free (index : RegisterOrConstant) (site : ItableSite) :
    Prop :=
  index ≠ .reg site.recvKlass ∧ index ≠ .reg site.scanTemp

section Interface

variable {cheri : Intrinsics} {site : ItableSite} {index : RegisterOrConstant}
  {cpu : Cpu} {i rest : Nat}

theorem run_start (cheri : Intrinsics) (site : ItableSite) (cpu : Cpu) :
    ∃ cpu', run cheri site.start cpu = some cpu' ∧ cpu'.mem = cpu.mem ∧
      ∀ r, r ≠ .c site.scanTemp → cpu'.read r = cpu.read r := by
  have gpr := Register.isGpr_c
  have shifted : (Code.stock (.lslX (.c site.scanTemp) (.c site.scanTemp)
      4)).exec cheri cpu = some (cpu.writeX (.c site.scanTemp)
        ((cpu.read (.c site.scanTemp)).address * 2 ^ 4)) := rfl
  rw [ItableSite.start, run_cons shifted,
    run_cons (exec_capAddReg _ (gpr _) (gpr _) (gpr _)),
    run_cons (exec_capAddImm _ (by simp) (by simp) _)]
  refine ⟨_, rfl, by simp [Cpu.writeX], ?_⟩
  intro r other
  simp [Cpu.writeX, other]

/-- The index moves the klass by what is left of it in the instruction. -/
theorem run_index (laws : cheri.Laws) (free : index.Free site)
    (value : index.value cpu = i)
    (reaches : Reaches (cpu.read (.c site.recvKlass)) (index.scaled i + rest)) :
    ∃ cpu', run cheri (site.addIndex index) cpu = some cpu' ∧
      cpu'.mem = cpu.mem ∧
      cpu'.read (.c site.recvKlass) =
        (cpu.read (.c site.recvKlass)).withAddress
          ((cpu.read (.c site.recvKlass)).address + index.scaled i) := by
  have gpr := Register.isGpr_c
  have moved := reaches.moveBy laws
  cases index with
  | reg r =>
      have other : r ≠ site.recvKlass := by
        intro same
        exact free.1 (by rw [same])
      have shifted : (Code.stock (.lslX (.c r) (.c r) 4)).exec cheri cpu =
          some (cpu.writeX (.c r) ((cpu.read (.c r)).address * 2 ^ 4)) := rfl
      change (cpu.read (.c r)).address = i at value
      simp only [RegisterOrConstant.scaled] at moved reaches ⊢
      have word := reaches.word
      have whole : i * 2 ^ 4 % addressSpace = i * 16 :=
        Nat.mod_eq_of_lt (by omega)
      rw [ItableSite.addIndex, run_cons shifted,
        run_cons (exec_capAddReg _ (gpr _) (gpr _) (gpr _))]
      refine ⟨_, rfl, by simp [Cpu.writeX], ?_⟩
      simp only [Cpu.writeX, value, whole]
      simpa [other.symm] using moved
  | con k =>
      change k = i at value
      subst value
      simp only [RegisterOrConstant.scaled] at moved ⊢
      rw [ItableSite.addIndex,
        run_cons (exec_capAddImm _ (by simp) (by simp) _)]
      refine ⟨_, rfl, by simp, ?_⟩
      have cut : ((k * 16 : Nat) : Int) % 4096 = ((k * 16 % 4096 : Nat) : Int) :=
        rfl
      rw [cut, moved]
      simp

theorem run_adjust (laws : cheri.Laws) (free : index.Free site)
    (value : index.value cpu = i) (itentryOff : Nat)
    (reaches : Reaches (cpu.read (.c site.recvKlass))
      (index.scaled i + itentryOff % 4096 + rest)) :
    ∃ before,
      run cheri (site.start ++ site.adjust index itentryOff) cpu =
        some before ∧
      before.mem = cpu.mem ∧
      before.read (.c site.recvKlass) =
        (cpu.read (.c site.recvKlass)).withAddress
          ((cpu.read (.c site.recvKlass)).address +
            (index.scaled i + itentryOff % 4096)) := by
  obtain ⟨started, ranStart, startMem, startRead⟩ := run_start cheri site cpu
  have startKlass := startRead (.c site.recvKlass)
    (fun same => site.scanFree (Register.c.inj same).symm)
  have startValue : index.value started = i := by
    rw [← value]
    cases index with
    | reg r =>
        have other : r ≠ site.scanTemp := by
          intro same
          exact free.2 (by rw [same])
        exact congrArg Cap.address
          (startRead (.c r) (fun same => other (Register.c.inj same)))
    | con k => rfl
  rw [Nat.add_assoc] at reaches
  rw [← startKlass] at reaches
  obtain ⟨shifted, ranIndex, indexMem, indexKlass⟩ :=
    run_index laws free startValue reaches
  rw [run_append, ranStart, Option.bind_some, ItableSite.adjust, run_append,
    ranIndex, Option.bind_some]
  have next := reaches.withAddress
  rw [← indexKlass] at next
  split
  · rw [run_cons (exec_capAddImm _ (by simp) (by simp) _)]
    refine ⟨_, rfl, by simp [indexMem, startMem], ?_⟩
    have cut : (itentryOff : Int) % 4096 = ((itentryOff % 4096 : Nat) : Int) :=
      rfl
    rw [Cpu.read_write_self _ _ (by simp), cut, next.moveBy laws, indexKlass,
      startKlass]
    simp only [Cap.withAddress, Nat.add_assoc]
  · rename_i none
    have zero : itentryOff = 0 := by omega
    refine ⟨_, rfl, by rw [indexMem, startMem], ?_⟩
    rw [indexKlass, startKlass, zero, Nat.zero_mod, Nat.add_zero]

theorem run_hit (cheri : Intrinsics) {tableOffset : Nat} {klass : Cap}
    (base : cpu.read (.c site.recvKlass) = klass)
    (reaches : Reaches klass tableOffset)
    (found : cpu.loadData (.c site.scanTemp) site.offsetOffset 4 =
      some tableOffset) :
    ∃ cpu', run cheri site.hit cpu = some cpu' ∧
      cpu'.read (.c site.methodResult) =
        cpu.mem (klass.address + tableOffset) := by
  have gpr := Register.isGpr_c
  have loaded : (Code.stock (.ldrW (.c site.scanTemp) (.c site.scanTemp)
      site.offsetOffset)).exec cheri cpu =
        some (cpu.writeX (.c site.scanTemp) tableOffset) := by
    simp [Code.exec, Instr.exec, found]
  have word := reaches.word
  have whole : tableOffset % addressSpace = tableOffset :=
    Nat.mod_eq_of_lt (by omega)
  have scanFree := site.scanFree.symm
  have here : offsetBy klass tableOffset = klass.address + tableOffset :=
    offsetBy_eq (by omega) word
  rw [ItableSite.hit, run_cons loaded, run,
    exec_capLdrIndexed _ (gpr _) (gpr _) (gpr _)]
  simp [Instr.exec, Cpu.indexed, Cpu.loadAt, Cpu.writeX, scanFree, base, whole,
    here, reaches.accessible, run]

theorem scaled_le (index : RegisterOrConstant) (i : Nat) :
    index.scaled i ≤ i * 16 := by
  cases index with
  | reg r => exact Nat.le_refl _
  | con k => exact Nat.mod_le _ _

theorem loadsItableMethod (laws : cheri.Laws) (free : index.Free site)
    {itentryOff : Nat} (whole : index.scaled i = i * 16)
    (small : itentryOff < 4096) :
    LoadsItableMethod cheri site index itentryOff i := by
  intro cpu scan tableOffset value reaches finds
  have entry : itentryOff % 4096 = itentryOff := Nat.mod_eq_of_lt small
  have exactSum : index.scaled i + itentryOff % 4096 = i * 16 + itentryOff := by
    rw [whole, entry]
  obtain ⟨before, ran, mem, klass⟩ := run_adjust laws free value itentryOff
    (by rw [exactSum]; exact reaches)
  rw [exactSum] at klass
  obtain ⟨after, scanned, kept, sameMem, found⟩ := finds before ran
  obtain ⟨cpu', loaded, method⟩ := run_hit cheri (kept.trans klass)
    reaches.withAddress found
  refine ⟨before, cpu', ran, klass, ?_, ?_⟩
  · simp [lookupInterfaceMethod, ran, scanned, loaded]
  · rw [method, sameMem, mem, Cap.withAddress, Nat.add_assoc]

/-- A capability over all of memory. -/
def everywhere : Cap :=
  { tag := true
    base := 0
    length := addressSpace
    address := 0
    perms := { swVmem := false, rest := 1 } }

/-- A search that succeeds at once, with a method table at offset 0. -/
def probeScan (site : ItableSite) (cpu : Cpu) : Option Cpu :=
  some { cpu.write (.c site.scanTemp) everywhere with data := fun _ => 0 }

theorem finds_probeScan (site : ItableSite) (cpu : Cpu) :
    Finds site (probeScan site) 0 cpu := by
  have small := site.small
  have free : Register.c site.recvKlass ≠ Register.c site.scanTemp :=
    fun same => site.scanFree (Register.c.inj same).symm
  have base : (cpu.write (.c site.scanTemp) everywhere).read
      (.c site.scanTemp) = everywhere := Cpu.read_write_self _ _ (by simp)
  have here : offsetBy everywhere site.offsetOffset = site.offsetOffset :=
    offsetBy_eq (by simp [everywhere]) (by rw [addressSpace]; omega)
  have readable : Accessible everywhere site.offsetOffset 4 := by
    refine ⟨rfl, Nat.zero_le _, ?_, site.aligned⟩
    simp only [everywhere, addressSpace]
    omega
  refine ⟨_, rfl, ?_, ?_, ?_⟩
  · exact Cpu.read_write_of_ne _ _ free
  · exact Cpu.write_mem ..
  · change (if Accessible ((cpu.write (.c site.scanTemp) everywhere).read
        (.c site.scanTemp)) (offsetBy ((cpu.write (.c site.scanTemp)
          everywhere).read (.c site.scanTemp)) site.offsetOffset) 4
      then some (0 % 2 ^ (8 * 4)) else none) = some 0
    rw [base, here, if_pos readable]
    rfl

theorem loadsItableMethod_iff (laws : cheri.Laws) (free : index.Free site)
    (ofValue : ∀ {k}, index = .con k → k = i) {itentryOff : Nat}
    (small : i * 16 + itentryOff < 2 ^ 63) :
    LoadsItableMethod cheri site index itentryOff i ↔
      index.scaled i = i * 16 ∧ itentryOff < 4096 := by
  refine ⟨?_, fun whole => loadsItableMethod laws free whole.1 whole.2⟩
  intro loads
  have less := scaled_le index i
  have cut := Nat.mod_le itentryOff 4096
  have slot := probeKlass_reaches small
  generalize klass_eq : probeKlass (i * 16 + itentryOff) = klass at *
  have value : index.value (Cpu.probe site.recvKlass klass i 0) = i := by
    cases index with
    | reg r =>
        exact probe_value (fun same => free.1 (by rw [same])) klass i 0
    | con k => exact ofValue rfl
  obtain ⟨before, _, ran, exactly, _⟩ := loads
    (Cpu.probe site.recvKlass klass i 0) (probeScan site) 0 value
    (by rw [probe_klass]; exact slot) (fun before _ => finds_probeScan site before)
  have parted : index.scaled i + itentryOff % 4096 +
      (i * 16 + itentryOff - (index.scaled i + itentryOff % 4096)) =
        i * 16 + itentryOff := Nat.add_sub_cancel' (by omega)
  rw [← parted] at slot
  obtain ⟨before', ran', _, moved⟩ := run_adjust laws free value itentryOff
    (by rw [probe_klass]; exact slot)
  rw [ran] at ran'
  cases ran'
  rw [exactly, probe_klass] at moved
  have address := congrArg Cap.address moved
  simp only [Cap.withAddress] at address
  omega

end Interface

/-- Both forms of an index dispatch to its method exactly when the instructions
can hold their immediates. -/
theorem dispatch_agrees_iff {cheri : Intrinsics} (laws : cheri.Laws) :
    (∀ {recvKlass r : Fin 31} (methodResult : Fin 31)
        {tableBase methodOffset i : Nat},
      recvKlass ≠ 8 → r ≠ recvKlass →
      tableBase + i * 16 + methodOffset < 2 ^ 63 →
      (LoadsMethod cheri recvKlass (.reg r) methodResult tableBase
            methodOffset i ∧
          LoadsMethod cheri recvKlass (.con i) methodResult tableBase
            methodOffset i ↔
        MemEncodable (tableBase + methodOffset : Nat) ∧
          MemEncodable (tableBase + methodOffset + i * 16 : Nat))) ∧
    ∀ {site : ItableSite} {r : Fin 31} {itentryOff i : Nat},
      RegisterOrConstant.Free (.reg r) site →
      i * 16 + itentryOff < 2 ^ 63 →
      (LoadsItableMethod cheri site (.reg r) itentryOff i ∧
          LoadsItableMethod cheri site (.con i) itentryOff i ↔
        itentryOff < 4096 ∧ i < 256) := by
  constructor
  · intro recvKlass r methodResult tableBase methodOffset i klassFree indexFree
      small
    rw [loadsMethod_reg_iff laws klassFree indexFree (by omega),
      loadsMethod_con_iff (by omega)]
  · intro site r itentryOff i free small
    have conFree : RegisterOrConstant.Free (.con i) site := by
      constructor <;> simp
    rw [loadsItableMethod_iff laws free (by simp) small,
      loadsItableMethod_iff laws conFree (by simp) small]
    have byRegister : RegisterOrConstant.scaled (.reg r) i = i * 16 := rfl
    have byConstant : RegisterOrConstant.scaled (.con i) i = i * 16 % 4096 := rfl
    rw [byRegister, byConstant]
    constructor
    · rintro ⟨⟨_, entry⟩, index, _⟩
      omega
    · rintro ⟨entry, index⟩
      exact ⟨⟨rfl, entry⟩, Nat.mod_eq_of_lt (by omega), entry⟩

def ItableSite.sample : ItableSite where
  recvKlass := 1
  methodResult := 0
  scanTemp := 3
  vtableBase := 512
  offsetOffset := 16
  scanFree := by decide
  aligned := by decide
  small := by decide

/-- Method 7 of a vtable, and method 5 of an interface. -/
theorem dispatch_agrees_iff_first :
    (LoadsMethod Intrinsics.exact 1 (.reg 2) 0 512 0 7 ∧
      LoadsMethod Intrinsics.exact 1 (.con 7) 0 512 0 7) ∧
    LoadsItableMethod Intrinsics.exact ItableSite.sample (.reg 0) 16 5 ∧
      LoadsItableMethod Intrinsics.exact ItableSite.sample (.con 5) 16 5 := by
  have agrees := dispatch_agrees_iff Intrinsics.exact_laws
  exact ⟨(agrees.1 0 (by decide) (by decide) (by decide)).mpr
      ⟨.inl (by decide), .inl (by decide)⟩,
    (agrees.2 (by constructor <;> decide) (by decide)).mpr
      ⟨by decide, by decide⟩⟩

/-- As a constant, index 4096 of a vtable at 512 becomes a load at offset 0,
and index 256 of an itable adds nothing. -/
theorem dispatch_disagrees :
    (capLdrImm (.c 0) (.c 1) (toInt (512 + 0 + 4096 * 16))).bind decode =
        some (.ldr (.c 0) (.c 1) 0) ∧
      LoadsMethod Intrinsics.exact 1 (.reg 2) 0 512 0 4096 ∧
      ¬ LoadsMethod Intrinsics.exact 1 (.con 4096) 0 512 0 4096 ∧
      (capAddImm (.c 1) (.c 1) ((256 * 16 : Nat) : Int)).bind decode =
        some (.addImm (.c 1) (.c 1) 0) ∧
      LoadsItableMethod Intrinsics.exact ItableSite.sample (.reg 0) 0 256 ∧
      ¬ LoadsItableMethod Intrinsics.exact ItableSite.sample (.con 256) 0
        256 := by
  refine ⟨by decide, ?_, ?_, by decide, ?_, ?_⟩
  · exact loadsMethod_reg Intrinsics.exact_laws (by decide) 4096
      (.inl (by decide))
  · rw [loadsMethod_con_iff (by decide)]
    unfold MemEncodable
    decide
  · exact loadsItableMethod Intrinsics.exact_laws (by constructor <;> decide)
      rfl (by decide)
  · rw [loadsItableMethod_iff Intrinsics.exact_laws
      (by constructor <;> decide) (by simp) (by decide)]
    decide

end Morello

end StoplessGC
