import StoplessGC.Emitters

/-!
# Running emitted code

What the registers and memory hold after a few instructions, and which
instruction each emitter's word executes as.
-/

namespace StoplessGC

/-- The same capability pointing elsewhere. -/
def Cap.withAddress (c : Cap) (a : Nat) : Cap := { c with address := a }

@[simp] theorem Cap.withAddress_address (c : Cap) (a : Nat) :
    (c.withAddress a).address = a := rfl

@[simp] theorem Cap.withAddress_base (c : Cap) (a : Nat) :
    (c.withAddress a).base = c.base := rfl

@[simp] theorem Cap.withAddress_length (c : Cap) (a : Nat) :
    (c.withAddress a).length = c.length := rfl

namespace Morello

namespace Cpu

variable (cpu : Cpu) (v : Cap)

@[simp] theorem write_mem (r : Register) : (cpu.write r v).mem = cpu.mem := by
  cases r <;> rfl

@[simp] theorem write_data (r : Register) : (cpu.write r v).data = cpu.data := by
  cases r <;> rfl

@[simp] theorem write_flags (r : Register) :
    (cpu.write r v).flags = cpu.flags := by
  cases r <;> rfl

@[simp] theorem read_write_self {r : Register} (real : r ≠ .zr) :
    (cpu.write r v).read r = v := by
  cases r with
  | c i => simp [write, read]
  | zr => exact absurd rfl real
  | sp => rfl

@[simp] theorem read_write_of_ne {r s : Register} (other : s ≠ r) :
    (cpu.write r v).read s = cpu.read s := by
  cases r with
  | c i =>
      cases s with
      | c j =>
          have elsewhere : j ≠ i := fun same => other (congrArg Register.c same)
          simp [write, read, Function.update_of_ne elsewhere]
      | zr => rfl
      | sp => rfl
  | zr => rfl
  | sp =>
      cases s with
      | c j => rfl
      | zr => rfl
      | sp => exact absurd rfl other

@[simp] theorem write_write (r : Register) (w : Cap) :
    (cpu.write r v).write r w = cpu.write r w := by
  cases r <;> simp [write]

theorem read_writeX_self {r : Register} (real : r ≠ .zr) {n : Nat}
    (word : n < addressSpace) : (cpu.writeX r n).read r = Cap.ofInt n := by
  rw [writeX, read_write_self _ _ real, Nat.mod_eq_of_lt word]

@[simp] theorem writeX_writeX (r : Register) (m n : Nat) :
    (cpu.writeX r m).writeX r n = cpu.writeX r n := write_write ..

theorem writeX_mod (r : Register) (n : Nat) :
    cpu.writeX r (n % addressSpace) = cpu.writeX r n := by
  rw [writeX, writeX, Nat.mod_mod]

@[simp] theorem read_setMem (a : Nat) (r : Register) :
    (cpu.setMem a v).read r = cpu.read r := by
  cases r <;> rfl

@[simp] theorem setMem_mem (a : Nat) :
    (cpu.setMem a v).mem = Function.update cpu.mem a v := rfl

@[simp] theorem setMem_data (a : Nat) : (cpu.setMem a v).data = cpu.data := rfl

@[simp] theorem read_setFlags (flags : Flags) (r : Register) :
    (cpu.setFlags flags).read r = cpu.read r := by
  cases r <;> rfl

@[simp] theorem setFlags_mem (flags : Flags) :
    (cpu.setFlags flags).mem = cpu.mem := rfl

@[simp] theorem setFlags_flags (flags : Flags) :
    (cpu.setFlags flags).flags = flags := rfl

theorem load_congr {cpu cpu' : Cpu} {n : Register}
    (base : cpu'.read n = cpu.read n) (mem : cpu'.mem = cpu.mem)
    (offset : Int) : cpu'.load n offset = cpu.load n offset := by
  simp only [load, loadAt, base, mem]

end Cpu

section Addresses

variable {cheri : Intrinsics}

theorem offsetBy_eq {c : Cap} {offset : Int} {a : Nat}
    (sum : (c.address : Int) + offset = a) (word : a < addressSpace) :
    offsetBy c offset = a := by
  have small : (a : Int) < addressSpace := by exact_mod_cast word
  rw [offsetBy, sum, Int.emod_eq_of_lt (by omega) small, Int.toNat_natCast]

/-- `lsl #4` and `neg` of a number of slots, and the addition to a pointer. -/
theorem offsetBy_negatedSlots {c : Cap} {n : Nat} (below : 16 * n ≤ c.address)
    (word : c.address < addressSpace) :
    offsetBy c (((addressSpace - n * 2 ^ 4 % addressSpace) % addressSpace : Nat) :
      Int) = c.address - 16 * n := by
  rw [addressSpace] at word
  unfold offsetBy addressSpace
  omega

theorem moveBy_offsetBy (laws : cheri.Laws) {c : Cap} {offset : Int} {a : Nat}
    (there : offsetBy c offset = a) (lower : c.base ≤ a)
    (upper : a ≤ c.base + c.length) :
    moveBy cheri c offset = c.withAddress a := by
  have inBounds := laws.representable_inBounds c a lower upper
  rw [moveBy, there, Intrinsics.addressSet, inBounds, Bool.and_true,
    Cap.withAddress]

theorem moveBy_eq (laws : cheri.Laws) {c : Cap} {offset : Int} {a : Nat}
    (sum : (c.address : Int) + offset = a) (word : a < addressSpace)
    (lower : c.base ≤ a) (upper : a ≤ c.base + c.length) :
    moveBy cheri c offset = c.withAddress a :=
  moveBy_offsetBy laws (offsetBy_eq sum word) lower upper

theorem moveBy_zero (laws : cheri.Laws) {c : Cap} (word : c.address < addressSpace)
    (lower : c.base ≤ c.address) (upper : c.address ≤ c.base + c.length) :
    moveBy cheri c 0 = c :=
  moveBy_eq laws (by omega) word lower upper

@[simp] theorem moveBy_address (c : Cap) (offset : Int) :
    (moveBy cheri c offset).address = offsetBy c offset := rfl

end Addresses

/-- The offset of a field that a scaled access can reach.  Pointer fields are
aligned to their size. -/
structure FieldOffset where
  bytes : Nat
  aligned : bytes % 16 = 0
  small : bytes < 65536
deriving DecidableEq, Repr

theorem FieldOffset.memOffset (field : FieldOffset) :
    Morello.memOffset field.bytes = field.bytes := by
  have aligned := field.aligned
  have small := field.small
  exact (memOffset_eq_iff _).mpr (.inl ⟨by omega, by omega, by omega⟩)

/-- A capability with a slot `offset` bytes behind the place it points to. -/
structure Reaches (c : Cap) (offset : Nat) : Prop where
  tagged : c.tag = true
  lower : c.base ≤ c.address
  upper : c.address + offset + 16 ≤ c.base + c.length
  word : c.address + offset < addressSpace
  aligned : 16 ∣ c.address + offset

namespace Reaches

variable {cheri : Intrinsics} {c : Cap} {a b : Nat}

theorem accessible (reaches : Reaches c a) :
    Accessible c (c.address + a) 16 := by
  have lower := reaches.lower
  exact ⟨reaches.tagged, by omega, reaches.upper, reaches.aligned⟩

theorem moveBy (laws : cheri.Laws) (reaches : Reaches c (a + b)) :
    Morello.moveBy cheri c (a : Int) = c.withAddress (c.address + a) := by
  have lower := reaches.lower
  have upper := reaches.upper
  have word := reaches.word
  exact moveBy_eq laws (by omega) (by omega) (by omega) (by omega)

theorem withAddress (reaches : Reaches c (a + b)) :
    Reaches (c.withAddress (c.address + a)) b := by
  have lower := reaches.lower
  have upper := reaches.upper
  have word := reaches.word
  have aligned := reaches.aligned
  constructor <;> simp only [Cap.withAddress]
  · exact reaches.tagged
  · omega
  · omega
  · omega
  · rwa [Nat.add_assoc]

end Reaches

theorem Cpu.load_at {cpu : Cpu} {n : Register} {offset : Int} {a : Nat}
    (there : offsetBy (cpu.read n) offset = a)
    (accessible : Accessible (cpu.read n) a 16) :
    cpu.load n offset = some (cpu.mem a) := by
  rw [load, there, loadAt, if_pos accessible]

theorem Cpu.store_at {cpu : Cpu} {n : Register} {offset : Int} {a : Nat}
    (there : offsetBy (cpu.read n) offset = a)
    (accessible : Accessible (cpu.read n) a 16) (v : Cap) :
    cpu.store n offset v = some (cpu.setMem a v) := by
  rw [store, there, storeAt, if_pos accessible]

theorem Reaches.offsetBy {c : Cap} {offset : Nat} (reaches : Reaches c offset) :
    Morello.offsetBy c offset = c.address + offset :=
  offsetBy_eq (by omega) reaches.word

theorem Cpu.load_reaches {cpu : Cpu} {n : Register} {offset : Nat}
    (reaches : Reaches (cpu.read n) offset) :
    cpu.load n offset =
      some (cpu.mem ((cpu.read n).address + offset)) :=
  load_at reaches.offsetBy reaches.accessible

theorem Cpu.store_reaches {cpu : Cpu} {n : Register} {offset : Nat}
    (reaches : Reaches (cpu.read n) offset) (v : Cap) :
    cpu.store n offset v =
      some (cpu.setMem ((cpu.read n).address + offset) v) :=
  store_at reaches.offsetBy reaches.accessible v

section Emitted

variable {cheri : Intrinsics}

theorem run_cons {code : Code} {cpu cpu' : Cpu}
    (first : code.exec cheri cpu = some cpu') (rest : List Code) :
    run cheri (code :: rest) cpu = run cheri rest cpu' := by
  simp [run, first]

theorem run_append (first second : List Code) (cpu : Cpu) :
    run cheri (first ++ second) cpu =
      (run cheri first cpu).bind (run cheri second) := by
  induction first generalizing cpu with
  | nil => rfl
  | cons code first ih =>
      simp only [List.cons_append, run, Option.bind_eq_bind]
      cases code.exec cheri cpu with
      | none => rfl
      | some cpu' => exact ih cpu'

theorem run_concat {codes : List Code} {code : Code} {cpu mid cpu' : Cpu}
    (ran : run cheri codes cpu = some mid)
    (last : code.exec cheri mid = some cpu') :
    run cheri (codes ++ [code]) cpu = some cpu' := by
  rw [run_append, ran]
  exact run_cons last []

/-- Code whose every instruction goes through and keeps an invariant. -/
theorem run_invariant {Inv : Cpu → Prop} {codes : List Code}
    (step : ∀ code, code ∈ codes → ∀ cpu, Inv cpu →
      ∃ cpu', code.exec cheri cpu = some cpu' ∧ Inv cpu') {cpu : Cpu}
    (inv : Inv cpu) : ∃ cpu', run cheri codes cpu = some cpu' ∧ Inv cpu' := by
  induction codes generalizing cpu with
  | nil => exact ⟨cpu, rfl, inv⟩
  | cons code codes ih =>
      obtain ⟨next, first, kept⟩ := step code (by simp) cpu inv
      obtain ⟨cpu', rest, done⟩ :=
        ih (fun c member => step c (by simp [member])) kept
      exact ⟨cpu', (run_cons first codes).trans rest, done⟩

variable (cpu : Cpu)

theorem exec_emit_of_decode {w : Option Nat} {i : Instr}
    (decoded : w.bind decode = some i) :
    (Code.emit w).exec cheri cpu = i.exec cheri cpu := by
  obtain ⟨word, rfl, read⟩ := Option.bind_eq_some_iff.mp decoded
  simp [Code.exec, read]

variable {t t2 n d m : Register}

theorem exec_capLdrImm (gprT : t.IsGpr) (gprN : n.IsGpr) (imm : Int) :
    (Code.emit (capLdrImm t n imm)).exec cheri cpu =
      (Instr.ldr t n (memOffset imm)).exec cheri cpu :=
  exec_emit_of_decode cpu (decode_capMem true gprT gprN imm)

theorem exec_capStrImm (gprT : t.IsGpr) (gprN : n.IsGpr) (imm : Int) :
    (Code.emit (capStrImm t n imm)).exec cheri cpu =
      (Instr.str t n (memOffset imm)).exec cheri cpu :=
  exec_emit_of_decode cpu (decode_capMem false gprT gprN imm)

theorem exec_capLdrImm_at (gprT : t.IsGpr) (gprN : n.IsGpr) {imm : Int}
    {a : Nat} (there : offsetBy (cpu.read n) (memOffset imm) = a)
    (accessible : Accessible (cpu.read n) a 16) :
    (Code.emit (capLdrImm t n imm)).exec cheri cpu =
      some (cpu.write t (cpu.mem a)) := by
  rw [exec_capLdrImm cpu gprT gprN, Instr.exec, Cpu.load_at there accessible]
  rfl

theorem exec_capStrImm_at (gprT : t.IsGpr) (gprN : n.IsGpr) {imm : Int}
    {a : Nat} (there : offsetBy (cpu.read n) (memOffset imm) = a)
    (accessible : Accessible (cpu.read n) a 16) :
    (Code.emit (capStrImm t n imm)).exec cheri cpu =
      some (cpu.setMem a (cpu.read t)) := by
  rw [exec_capStrImm cpu gprT gprN, Instr.exec, Cpu.store_at there accessible]

theorem exec_capLdrImm_slot (gprT : t.IsGpr) (gprN : n.IsGpr) {imm : Int}
    {offset : Nat} (fits : memOffset imm = offset)
    (reaches : Reaches (cpu.read n) offset) :
    (Code.emit (capLdrImm t n imm)).exec cheri cpu =
      some (cpu.write t (cpu.mem ((cpu.read n).address + offset))) :=
  exec_capLdrImm_at cpu gprT gprN (by rw [fits, reaches.offsetBy])
    reaches.accessible

theorem exec_capStrImm_slot (gprT : t.IsGpr) (gprN : n.IsGpr) {imm : Int}
    {offset : Nat} (fits : memOffset imm = offset)
    (reaches : Reaches (cpu.read n) offset) :
    (Code.emit (capStrImm t n imm)).exec cheri cpu =
      some (cpu.setMem ((cpu.read n).address + offset) (cpu.read t)) :=
  exec_capStrImm_at cpu gprT gprN (by rw [fits, reaches.offsetBy])
    reaches.accessible

theorem exec_capLdrImm_here (gprT : t.IsGpr) (gprN : n.IsGpr)
    (reaches : Reaches (cpu.read n) 0) :
    (Code.emit (capLdrImm t n 0)).exec cheri cpu =
      some (cpu.write t (cpu.mem (cpu.read n).address)) :=
  exec_capLdrImm_slot cpu gprT gprN rfl reaches

theorem exec_capStrImm_here (gprT : t.IsGpr) (gprN : n.IsGpr)
    (reaches : Reaches (cpu.read n) 0) :
    (Code.emit (capStrImm t n 0)).exec cheri cpu =
      some (cpu.setMem (cpu.read n).address (cpu.read t)) :=
  exec_capStrImm_slot cpu gprT gprN rfl reaches

theorem exec_loadField (gprT : t.IsGpr) (gprN : n.IsGpr) {field : FieldOffset}
    {v : Cap} (loaded : cpu.load n field.bytes = some v) :
    (Code.emit (capLdrImm t n field.bytes)).exec cheri cpu =
      some (cpu.write t v) := by
  rw [exec_capLdrImm cpu gprT gprN, field.memOffset, Instr.exec, loaded]
  rfl

theorem exec_storeField (gprT : t.IsGpr) (gprN : n.IsGpr)
    (field : FieldOffset) :
    (Code.emit (capStrImm t n field.bytes)).exec cheri cpu =
      cpu.store n field.bytes (cpu.read t) := by
  rw [exec_capStrImm cpu gprT gprN, field.memOffset, Instr.exec]

theorem decode_capArith_numbered (adds : Bool) (numberedD : d ≠ .zr)
    (numberedN : n ≠ .zr) (imm : Int) :
    (capArith adds d n imm).bind decode =
      some (arithInstr adds d n (imm % 4096)) := by
  have small := Register.spEncoding_lt numberedD
  have smallN := Register.spEncoding_lt numberedN
  have spillD : ∀ k, BitFields.field 5 k (spEncoding d) = 0 :=
    BitFields.field_of_lt small
  have spillN : ∀ k, BitFields.field 5 k (spEncoding n) = 0 :=
    BitFields.field_of_lt smallN
  rw [decode_capArith, (Register.ofSp_spEncoding_iff d).mpr numberedD, spillD,
    spillN]
  simp only [Nat.or_zero]
  rw [(Register.ofSp_spEncoding_iff n).mpr numberedN,
    Int.toNat_of_nonneg (by omega)]
  rfl

/-- An immediate addition adds what is left of the immediate in 12 bits. -/
theorem exec_capAddImm (numberedD : d ≠ .zr) (numberedN : n ≠ .zr)
    (imm : Int) :
    (Code.emit (capAddImm d n imm)).exec cheri cpu =
      some (cpu.write d (moveBy cheri (cpu.read n) (imm % 4096))) :=
  exec_emit_of_decode cpu (decode_capArith_numbered true numberedD numberedN imm)

theorem exec_capSubImm (numberedD : d ≠ .zr) (numberedN : n ≠ .zr)
    (imm : Int) :
    (Code.emit (capSubImm d n imm)).exec cheri cpu =
      some (cpu.write d (moveBy cheri (cpu.read n) (-(imm % 4096)))) :=
  exec_emit_of_decode cpu (decode_capArith_numbered false numberedD numberedN imm)

theorem exec_capAddReg (gprD : d.IsGpr) (gprN : n.IsGpr) (gprM : m.IsGpr) :
    (Code.emit (capAddReg d n m)).exec cheri cpu =
      some (cpu.write d (moveBy cheri (cpu.read n) (cpu.read m).address)) :=
  exec_emit_of_decode cpu (decode_capAddReg gprD gprN gprM)

theorem exec_movRegister (gprD : d.IsGpr) (gprN : n.IsGpr) :
    (movRegister d n).exec cheri cpu = some (cpu.write d (cpu.read n)) := by
  rw [movRegister, if_neg (not_or.mpr ⟨gprD.ne_sp, gprN.ne_sp⟩),
    if_neg (not_or.mpr ⟨gprD.ne_zr, gprN.ne_zr⟩)]
  have decoded : (some (0xC2C1D000 ||| (n.encoding <<< 5) ||| d.encoding)).bind
      decode = some (.mov d n) := decode_movRegister gprD gprN
  exact exec_emit_of_decode cpu decoded

theorem run_negatedSlots {cpu : Cpu} {k : Nat} (number : cpu.read n = Cap.ofInt k)
    (real : m ≠ .zr) (rest : List Code) :
    run cheri (.stock (.lslX m n 4) :: .stock (.negX d m) :: rest) cpu =
      run cheri rest ((cpu.writeX m (k * 2 ^ 4)).writeX d
        (addressSpace - k * 2 ^ 4 % addressSpace)) := by
  have shifted : (Code.stock (.lslX m n 4)).exec cheri cpu =
      some (cpu.writeX m (k * 2 ^ 4)) := by
    simp only [Code.exec, Instr.exec, number, Cap.ofInt_address]
  have here : (cpu.writeX m (k * 2 ^ 4)).read m =
      Cap.ofInt (k * 2 ^ 4 % addressSpace) := Cpu.read_write_self _ _ real
  have negated : (Code.stock (.negX d m)).exec cheri
      (cpu.writeX m (k * 2 ^ 4)) =
        some ((cpu.writeX m (k * 2 ^ 4)).writeX d
          (addressSpace - k * 2 ^ 4 % addressSpace)) := by
    simp only [Code.exec, Instr.exec, here, Cap.ofInt_address]
  exact (run_cons shifted _).trans (run_cons negated rest)

theorem exec_capLdrIndexed (gprT : t.IsGpr) (gprN : n.IsGpr)
    (gprM : m.IsGpr) :
    (Code.emit (capLdrIndexed t n m 0)).exec cheri cpu =
      (Instr.ldrReg t n m false).exec cheri cpu :=
  exec_emit_of_decode cpu (decode_capLdrIndexed gprT gprN gprM)

end Emitted

end Morello

end StoplessGC
