import StoplessGC.ExpressionStack

/-!
# Addressing local variables

`rlocals` points to local 0 and the others follow downwards, 16 bytes apart.
The templates reach a local in four ways: through a negated and doubled index
with `lsl #3`, through an address that `cap_local_addr_sub` computes, through
`laddress`, and with a constant offset.
-/

namespace StoplessGC

namespace Morello

namespace Locals

open ExpressionStack

abbrev r0 : Register := .c 0
abbrev r1 : Register := .c 1
abbrev rscratch1 : Register := .c 8
abbrev rbcp : Register := .c 22
abbrev rlocals : Register := .c 24

/-- `Interpreter::local_offset_in_bytes(n)` -/
def localOffsetInBytes (n : Nat) : Int := -(16 * n : Nat)

inductive Address where
  /-- `base_plus_offset` -/
  | offset (base : Register) (offset : Int)
  /-- `base_plus_offset_reg` with `lsl(3)` -/
  | indexed (base index : Register)
deriving DecidableEq, Repr

namespace Address

/-- Where an access goes. -/
def target (cpu : Cpu) : Address → Nat
  | offset base imm => offsetBy (cpu.read base) imm
  | indexed base index => cpu.indexedX base index

/-- The register that has to hold a capability for it. -/
def base : Address → Register
  | offset base _ => base
  | indexed base _ => base

/-- `ldr(t, address)` -/
def ldr (t : Register) : Address → Code
  | offset base imm => .stock (.ldrX t base imm)
  | indexed base index => .stock (.ldrXReg t base index)

/-- `str(t, address)` -/
def str (t : Register) : Address → Code
  | offset base imm => .stock (.strX t base imm)
  | indexed base index => .stock (.strXReg t base index)

end Address

/-- `lea` of an address with an index register. -/
def leaIndexed (dst base index : Register) (shift : Nat) : List Code :=
  if shift = 0 then [.emit (capAddReg dst base index)]
  else
    [.stock (.lslX rscratch1 index shift),
      .emit (capAddReg dst base rscratch1)]

def iaddress (n : Nat) : Address := .offset rlocals (localOffsetInBytes n)

def iaddressReg (r : Register) : Address := .indexed rlocals r

def aaddressReg (r : Register) : Address := iaddressReg r

/-- The code of `laddress(r, scratch)`, and the address that it returns. -/
def laddressLea (r scratch : Register) : List Code :=
  leaIndexed scratch rlocals r 3

def laddress (scratch : Register) : Address :=
  .offset scratch (localOffsetInBytes 1)

/-- `cap_local_addr_sub` -/
def capLocalAddrSub (dst idx : Register) : List Code :=
  [.stock (.lslX rscratch1 idx 4),
    .stock (.negX rscratch1 rscratch1),
    .emit (capAddReg dst rlocals rscratch1)]

/-- The index of a local among the operands of a bytecode: a byte at `offset`,
or a big-endian pair of bytes after the opcodes of `wide`. -/
inductive Index where
  | narrow (offset : Nat)
  | wide
deriving DecidableEq, Repr

namespace Index

/-- `ldrb`, or `ldrh` and `rev16w`. -/
def load (r : Register) : Index → List Code
  | narrow offset => [.stock (.ldrOperand r rbcp offset 1)]
  | wide => [.stock (.ldrOperand r rbcp 2 2), .stock (.rev16W r r)]

/-- The bytecode at `bcp` has the index `n`. -/
def Reads (data : Nat → Nat) (bcp : Cap) (n : Nat) : Index → Prop
  | narrow offset => n < 2 ^ 8 ∧ bcp.address + offset < addressSpace ∧
      InBounds bcp (bcp.address + offset) 1 ∧
      data (bcp.address + offset) % 2 ^ 8 = n
  | wide => n < 2 ^ 16 ∧ bcp.address + 2 < addressSpace ∧
      InBounds bcp (bcp.address + 2) 2 ∧
      data (bcp.address + 2) % 2 ^ 16 = n % 2 ^ 8 * 2 ^ 8 + n / 2 ^ 8

end Index

/-- `locals_index(reg, offset)` -/
def localsIndex (reg : Register) (offset : Nat) : List Code :=
  [.stock (.ldrOperand reg rbcp offset 1),
    .stock (.negX reg reg),
    .stock (.lslX reg reg 1)]

def localsIndexWide (reg : Register) : List Code :=
  [.stock (.ldrOperand reg rbcp 2 2),
    .stock (.rev16W reg reg),
    .stock (.negX reg reg),
    .stock (.lslX reg reg 1)]

/-- How a template names a local. -/
inductive Form where
  /-- `locals_index` or `locals_index_wide`, then `iaddress` or `aaddress`. -/
  | indexed (index : Index)
  /-- The index, then `cap_local_addr_sub`, for the value word of two slots. -/
  | subtracted (index : Index)
  /-- `locals_index` or `locals_index_wide`, then `laddress`. -/
  | twoSlots (index : Index)
  /-- `locals_index`, then `lea` of `iaddress` or `aaddress`. -/
  | computed (index : Index)
  | constant (n : Nat)
deriving DecidableEq, Repr

namespace Form

def negatedIndex : Index → List Code
  | .narrow offset => localsIndex r1 offset
  | .wide => localsIndexWide r1

/-- The code in front of the access. -/
def setup : Form → List Code
  | indexed index => negatedIndex index
  | subtracted index => index.load r1 ++ capLocalAddrSub r1 r1
  | twoSlots index => negatedIndex index ++ laddressLea r1 rscratch1
  | computed index => negatedIndex index ++ leaIndexed rscratch1 rlocals r1 3
  | constant _ => []

/-- The address of the access. -/
def address : Form → Address
  | indexed _ => iaddressReg r1
  | subtracted _ => .offset r1 (localOffsetInBytes 1)
  | twoSlots _ => laddress rscratch1
  | computed _ => .offset rscratch1 0
  | constant n => iaddress n

/-- The slot that is meant, for the index `n` in the bytecode. -/
def slot (n : Nat) : Form → Nat
  | indexed _ => n
  | subtracted _ => n + 1
  | twoSlots _ => n + 1
  | computed _ => n
  | constant k => k

/-- What the bytecode holds. -/
def Reads (data : Nat → Nat) (bcp : Cap) (n : Nat) : Form → Prop
  | indexed index | subtracted index | twoSlots index | computed index =>
      index.Reads data bcp n
  | constant _ => True

end Form

/-- A capability for the locals `0` to `k`. -/
structure Reach (c : Cap) (k : Nat) : Prop where
  tagged : c.tag = true
  lower : c.base + 16 * k ≤ c.address
  upper : c.address + 16 ≤ c.base + c.length
  word : c.address < addressSpace
  aligned : 16 ∣ c.address

/-- The state in front of the access. -/
structure Located (cpu cpu' : Cpu) (address : Address) (k : Nat) : Prop where
  target : address.target cpu' = (cpu.read rlocals).address - 16 * k
  accessible : Accessible (cpu'.read address.base)
    ((cpu.read rlocals).address - 16 * k) 16
  mem : cpu'.mem = cpu.mem
  data : cpu'.data = cpu.data
  read : ∀ r, r ≠ r1 → r ≠ rscratch1 → cpu'.read r = cpu.read r

section Setup

variable {cheri : Intrinsics} {cpu : Cpu} {n k : Nat}

theorem rev16_exchanged (small : n < 2 ^ 16) :
    rev16 (n % 2 ^ 8 * 2 ^ 8 + n / 2 ^ 8) = n := by
  have whole : n / 2 ^ 8 * 2 ^ 8 + n % 2 ^ 8 = n := Nat.div_add_mod' n _
  have high : n / 2 ^ 8 < 2 ^ 8 := by omega
  have low : n % 2 ^ 8 < 2 ^ 8 := Nat.mod_lt _ (by decide)
  generalize n / 2 ^ 8 = h at *
  generalize n % 2 ^ 8 = l at *
  have first : (l * 2 ^ 8 + h) % 2 ^ 8 = h := by omega
  have second : (l * 2 ^ 8 + h) / 2 ^ 8 = l := by omega
  have third : (l * 2 ^ 8 + h) / 2 ^ 16 = 0 := by omega
  have fourth : (l * 2 ^ 8 + h) / 2 ^ 24 = 0 := by omega
  rw [rev16, first, second, third, fourth, Nat.mod_eq_of_lt low,
    Nat.zero_mod, Nat.zero_mul, Nat.zero_mul, whole]
  rfl

theorem Index.run_load {index : Index}
    (reads : index.Reads cpu.data (cpu.read rbcp) n) (rest : List Code) :
    run cheri (index.load r1 ++ rest) cpu =
      run cheri rest (cpu.writeX r1 n) := by
  cases index with
  | narrow offset =>
      obtain ⟨_, word, inBounds, value⟩ := reads
      have there : offsetBy (cpu.read rbcp) offset =
          (cpu.read rbcp).address + offset := offsetBy_eq (by omega) word
      have loaded : (Code.stock (.ldrOperand r1 rbcp offset 1)).exec cheri
          cpu = some (cpu.writeX r1 n) := by
        simp only [Code.exec, Instr.exec, Cpu.loadOperand, there,
          if_pos inBounds, Nat.mul_one, value]
        rfl
      exact run_cons loaded rest
  | wide =>
      obtain ⟨small, word, inBounds, value⟩ := reads
      have there : offsetBy (cpu.read rbcp) 2 =
          (cpu.read rbcp).address + 2 := offsetBy_eq (by omega) word
      have loaded : (Code.stock (.ldrOperand r1 rbcp 2 2)).exec cheri cpu =
          some (cpu.writeX r1 (n % 2 ^ 8 * 2 ^ 8 + n / 2 ^ 8)) := by
        simp only [Code.exec, Instr.exec, Cpu.loadOperand, there,
          if_pos inBounds, value]
        rfl
      have here : (cpu.writeX r1 (n % 2 ^ 8 * 2 ^ 8 + n / 2 ^ 8)).read r1 =
          Cap.ofInt (n % 2 ^ 8 * 2 ^ 8 + n / 2 ^ 8) :=
        Cpu.read_writeX_self _ (by simp) (by rw [addressSpace]; omega)
      have exchanged : (Code.stock (.rev16W r1 r1)).exec cheri
          (cpu.writeX r1 (n % 2 ^ 8 * 2 ^ 8 + n / 2 ^ 8)) =
            some (cpu.writeX r1 n) := by
        simp only [Code.exec, Instr.exec, here, Cap.ofInt_address,
          rev16_exchanged small, Cpu.writeX_writeX]
      exact (run_cons loaded _).trans (run_cons exchanged rest)

/-- The negated index, doubled. -/
def doubledIndex (n : Nat) : Nat :=
  (addressSpace - n) % addressSpace * 2 ^ 1 % addressSpace

theorem Form.run_negatedIndex {index : Index}
    (reads : index.Reads cpu.data (cpu.read rbcp) n) (rest : List Code) :
    run cheri (negatedIndex index ++ rest) cpu =
      run cheri rest (cpu.writeX r1 (doubledIndex n)) := by
  have split : negatedIndex index = index.load r1 ++
      [.stock (.negX r1 r1), .stock (.lslX r1 r1 1)] := by
    cases index <;> rfl
  have word : n < addressSpace := by
    cases index with
    | narrow offset => exact Nat.lt_trans reads.1 (by decide)
    | wide => exact Nat.lt_trans reads.1 (by decide)
  have here : (cpu.writeX r1 n).read r1 = Cap.ofInt n :=
    Cpu.read_writeX_self _ (by simp) word
  have negated : (Code.stock (.negX r1 r1)).exec cheri (cpu.writeX r1 n) =
      some (cpu.writeX r1 (addressSpace - n)) := by
    simp only [Code.exec, Instr.exec, here, Cap.ofInt_address,
      Cpu.writeX_writeX]
  have next : (cpu.writeX r1 (addressSpace - n)).read r1 =
      Cap.ofInt ((addressSpace - n) % addressSpace) :=
    Cpu.read_write_self _ _ (by simp)
  have doubled : (Code.stock (.lslX r1 r1 1)).exec cheri
      (cpu.writeX r1 (addressSpace - n)) =
        some (cpu.writeX r1 (doubledIndex n)) := by
    simp only [Code.exec, Instr.exec, next, Cap.ofInt_address,
      Cpu.writeX_writeX, doubledIndex, Cpu.writeX_mod]
  rw [split, List.append_assoc, Index.run_load reads]
  exact (run_cons negated _).trans (run_cons doubled rest)

section Places

variable {c : Cap}

theorem Reach.accessible (reach : Reach c k) :
    Accessible c (c.address - 16 * k) 16 := by
  obtain ⟨tagged, lower, upper, word, aligned⟩ := reach
  exact ⟨tagged, by omega, by omega, by omega⟩

theorem Reach.mono (reach : Reach c k) (below : n ≤ k) : Reach c n := by
  obtain ⟨tagged, lower, upper, word, aligned⟩ := reach
  exact ⟨tagged, by omega, upper, word, aligned⟩

/-- `lsl #3` of the doubled index is sixteen bytes for each local. -/
theorem Reach.offsetBy_index (reach : Reach c n) :
    offsetBy c ((doubledIndex n * 8 : Nat) : Int) = c.address - 16 * n := by
  have lower := reach.lower
  have word := reach.word
  rw [addressSpace] at word
  unfold offsetBy doubledIndex addressSpace
  omega

theorem Reach.offsetBy_indexWord (reach : Reach c n) :
    offsetBy c ((doubledIndex n * 2 ^ 3 % addressSpace : Nat) : Int) =
      c.address - 16 * n := by
  have lower := reach.lower
  have word := reach.word
  rw [addressSpace] at word
  unfold offsetBy doubledIndex addressSpace
  omega

theorem Reach.offsetBy_second (reach : Reach c (n + 1)) :
    offsetBy (c.withAddress (c.address - 16 * n)) (localOffsetInBytes 1) =
      c.address - 16 * (n + 1) := by
  have lower := reach.lower
  have word := reach.word
  exact offsetBy_eq (by
    unfold localOffsetInBytes
    rw [Cap.withAddress_address]
    omega) (by omega)

theorem Reach.offsetBy_constant (reach : Reach c n) :
    offsetBy c (localOffsetInBytes n) = c.address - 16 * n := by
  have lower := reach.lower
  have word := reach.word
  exact offsetBy_eq (by
    unfold localOffsetInBytes
    omega) (by omega)

end Places

/-- The place of the local `n`, as a capability. -/
def place (cpu : Cpu) (n : Nat) : Cap :=
  (cpu.read rlocals).withAddress ((cpu.read rlocals).address - 16 * n)

theorem exec_capAddReg_place (laws : cheri.Laws) {dst : Register}
    (gpr : dst.IsGpr) {cpu' : Cpu} (same : cpu'.read rlocals = cpu.read rlocals)
    (reach : Reach (cpu.read rlocals) n)
    (distance : offsetBy (cpu.read rlocals) (cpu'.read rscratch1).address =
      (cpu.read rlocals).address - 16 * n) :
    (Code.emit (capAddReg dst rlocals rscratch1)).exec cheri cpu' =
      some (cpu'.write dst (place cpu n)) := by
  obtain ⟨tagged, lower, upper, word, aligned⟩ := reach
  rw [exec_capAddReg cpu' gpr (Register.isGpr_c 24) (Register.isGpr_c 8), same,
    moveBy_offsetBy laws distance (by omega) (by omega), place]

theorem run_lea (laws : cheri.Laws) {cpu' : Cpu}
    (index : cpu'.read r1 = Cap.ofInt (doubledIndex n))
    (same : cpu'.read rlocals = cpu.read rlocals)
    (reach : Reach (cpu.read rlocals) n) (rest : List Code) :
    run cheri (leaIndexed rscratch1 rlocals r1 3 ++ rest) cpu' =
      run cheri rest (cpu'.write rscratch1 (place cpu n)) := by
  have shifted : (Code.stock (.lslX rscratch1 r1 3)).exec cheri cpu' =
      some (cpu'.writeX rscratch1 (doubledIndex n * 2 ^ 3)) := by
    simp only [Code.exec, Instr.exec, index, Cap.ofInt_address]
  have distance : offsetBy (cpu.read rlocals)
      ((cpu'.writeX rscratch1 (doubledIndex n * 2 ^ 3)).read
        rscratch1).address = (cpu.read rlocals).address - 16 * n := by
    rw [Cpu.writeX, Cpu.read_write_self _ _ (by simp), Cap.ofInt_address]
    exact reach.offsetBy_indexWord
  have added := exec_capAddReg_place laws (Register.isGpr_c 8)
    (by rw [Cpu.writeX, Cpu.read_write_of_ne _ _ (by simp), same]) reach
    distance
  rw [Cpu.writeX, Cpu.write_write] at added
  exact (run_cons shifted _).trans (run_cons added rest)

theorem run_capLocalAddrSub (laws : cheri.Laws) {cpu' : Cpu}
    (index : cpu'.read r1 = Cap.ofInt n)
    (same : cpu'.read rlocals = cpu.read rlocals)
    (reach : Reach (cpu.read rlocals) n) (rest : List Code) :
    ∃ v, run cheri (capLocalAddrSub r1 r1 ++ rest) cpu' =
      run cheri rest ((cpu'.writeX rscratch1 v).write r1 (place cpu n)) := by
  have distance : offsetBy (cpu.read rlocals)
      ((cpu'.writeX rscratch1 (addressSpace - n * 2 ^ 4 % addressSpace)).read
        rscratch1).address = (cpu.read rlocals).address - 16 * n := by
    rw [Cpu.writeX, Cpu.read_write_self _ _ (by simp), Cap.ofInt_address]
    have lower := reach.lower
    exact offsetBy_negatedSlots (by omega) reach.word
  have added := exec_capAddReg_place laws (Register.isGpr_c 1)
    (by rw [Cpu.writeX, Cpu.read_write_of_ne _ _ (by simp), same]) reach
    distance
  refine ⟨addressSpace - n * 2 ^ 4 % addressSpace,
    (run_negatedSlots index (by simp) _).trans ?_⟩
  rw [Cpu.writeX_writeX]
  exact run_cons added rest

theorem Reach.accessible_place (reach : Reach (cpu.read rlocals) k) (m : Nat) :
    Accessible (place cpu m) ((cpu.read rlocals).address - 16 * k) 16 :=
  reach.accessible

theorem Reach.offsetBy_place (reach : Reach (cpu.read rlocals) n) :
    offsetBy (place cpu n) 0 = (cpu.read rlocals).address - 16 * n := by
  have word := reach.word
  refine offsetBy_eq ?_ (by omega)
  rw [place, Cap.withAddress_address, Int.add_zero]

theorem Located.of_place {cpu' : Cpu} {d : Register}
    (scratch : d = r1 ∨ d = rscratch1) {imm : Int}
    (target : offsetBy (place cpu n) imm = (cpu.read rlocals).address - 16 * k)
    (reach : Reach (cpu.read rlocals) k) (mem : cpu'.mem = cpu.mem)
    (data : cpu'.data = cpu.data)
    (read : ∀ r, r ≠ r1 → r ≠ rscratch1 → cpu'.read r = cpu.read r) :
    Located cpu (cpu'.write d (place cpu n)) (.offset d imm) k := by
  have real : d ≠ .zr := by
    rcases scratch with rfl | rfl <;> simp
  have here : (cpu'.write d (place cpu n)).read d = place cpu n :=
    Cpu.read_write_self _ _ real
  constructor
  · rw [Address.target, here]
    exact target
  · rw [Address.base, here]
    exact reach.accessible_place n
  · rw [Cpu.write_mem, mem]
  · rw [Cpu.write_data, data]
  · intro r notIndex notScratch
    have other : r ≠ d := by
      rcases scratch with rfl | rfl
      · exact notIndex
      · exact notScratch
    rw [Cpu.read_write_of_ne _ _ other, read r notIndex notScratch]

/-- Each form goes to the slot that it means. -/
theorem Form.run_setup (laws : cheri.Laws) (form : Form)
    (reads : form.Reads cpu.data (cpu.read rbcp) n)
    (reach : Reach (cpu.read rlocals) (form.slot n)) :
    ∃ cpu', run cheri form.setup cpu = some cpu' ∧
      Located cpu cpu' form.address (form.slot n) := by
  have doubled : (cpu.writeX r1 (doubledIndex n)).read r1 =
      Cap.ofInt (doubledIndex n) :=
    Cpu.read_writeX_self _ (by simp) (Nat.mod_lt _ (by decide))
  have same : ∀ v, (cpu.writeX r1 v).read rlocals = cpu.read rlocals :=
    fun v => Cpu.read_write_of_ne _ _ (by simp)
  have others : ∀ v r, r ≠ r1 → (cpu.writeX r1 v).read r = cpu.read r :=
    fun v r notIndex => Cpu.read_write_of_ne _ _ notIndex
  cases form with
  | indexed index =>
      refine ⟨cpu.writeX r1 (doubledIndex n), ?_, ?_, ?_, Cpu.write_mem ..,
        Cpu.write_data .., fun r notIndex _ => others _ r notIndex⟩
      · have ran : run cheri (negatedIndex index ++ []) cpu = _ :=
          run_negatedIndex reads []
        rwa [List.append_nil] at ran
      · change Cpu.indexedX _ rlocals r1 = _
        rw [Cpu.indexedX, doubled, same]
        exact reach.offsetBy_index
      · change Accessible ((cpu.writeX r1 (doubledIndex n)).read rlocals) _ 16
        rw [same]
        exact reach.accessible
  | subtracted index =>
      have word : n < addressSpace := by
        cases index with
        | narrow offset => exact Nat.lt_trans reads.1 (by decide)
        | wide => exact Nat.lt_trans reads.1 (by decide)
      obtain ⟨v, ran⟩ := run_capLocalAddrSub laws
        (Cpu.read_writeX_self cpu (by simp) word) (same n)
        (reach.mono (Nat.le_succ n)) []
      rw [List.append_nil] at ran
      exact ⟨_, (Index.run_load reads _).trans ran,
        Located.of_place (.inl rfl) reach.offsetBy_second reach
          (by simp [Cpu.writeX]) (by simp [Cpu.writeX])
          (fun r notIndex notScratch =>
            (Cpu.read_write_of_ne _ _ notScratch).trans
              (others n r notIndex))⟩
  | twoSlots index =>
      have ran := run_lea laws doubled (same _)
        (reach.mono (Nat.le_succ n)) []
      rw [List.append_nil] at ran
      exact ⟨_, (run_negatedIndex reads _).trans ran,
        Located.of_place (.inr rfl) reach.offsetBy_second reach
          (Cpu.write_mem ..) (Cpu.write_data ..)
          (fun r notIndex _ => others _ r notIndex)⟩
  | computed index =>
      have ran := run_lea laws doubled (same _) reach []
      rw [List.append_nil] at ran
      exact ⟨_, (run_negatedIndex reads _).trans ran,
        Located.of_place (.inr rfl) reach.offsetBy_place reach
          (Cpu.write_mem ..) (Cpu.write_data ..)
          (fun r notIndex _ => others _ r notIndex)⟩
  | constant k =>
      exact ⟨cpu, rfl, reach.offsetBy_constant, reach.accessible, rfl, rfl,
        fun _ _ _ => rfl⟩

end Setup

end Locals

end Morello

end StoplessGC
