import StoplessGC.Cheri
import StoplessGC.Foundation.BitFields
import Mathlib.Logic.Function.Basic

/-!
# The Morello instructions that the port emits

Registers have the encodings of HotSpot, where `zr` and `sp` lie outside the
five bits of an operand field.  `decode` reads instruction words as the
architecture does, where the value 31 stands for one or the other.

Memory is a map from the addresses of 16-byte granules to capabilities.  An
untagged granule holds an integer in its low half.  Narrow integer fields of
metadata are only ever read here and are kept apart.  Permissions are not
modelled.
-/

namespace StoplessGC

namespace Morello

open BitFields

/-- The general registers, for literals of `Fin 31`. -/
instance neZero_gprs : NeZero 31 := ⟨by decide⟩

inductive Register where
  | c (i : Fin 31)
  | zr
  | sp
deriving DecidableEq, Repr

namespace Register

/-- `Register::encoding()`: `zr` and `sp` are pseudo registers. -/
def encoding : Register → Nat
  | c i => i
  | zr => 32
  | sp => 33

/-- An operand field where 31 is the zero register. -/
def ofZr (f : Nat) : Register :=
  if h : f < 31 then c ⟨f, h⟩ else zr

/-- An operand field where 31 is the stack pointer. -/
def ofSp (f : Nat) : Register :=
  if h : f < 31 then c ⟨f, h⟩ else sp

end Register

inductive Instr where
  /-- `ldr Ct, [Cn, #offset]`, scaled or not. -/
  | ldr (t n : Register) (offset : Int)
  | str (t n : Register) (offset : Int)
  | ldp (t t2 n : Register) (offset : Int)
  | stp (t t2 n : Register) (offset : Int)
  /-- `stp Ct, Ct2, [Cn, #offset]!` -/
  | stpPre (t t2 n : Register) (offset : Int)
  | addImm (d n : Register) (imm : Int)
  | subImm (d n : Register) (imm : Int)
  /-- `add Cd, Cn, Xm, uxtx` -/
  | addReg (d n m : Register)
  /-- `ldr Ct, [Cn, Xm]`, or with `lsl #4`. -/
  | ldrReg (t n m : Register) (scaled : Bool)
  | strReg (t n m : Register) (scaled : Bool)
  | mov (d n : Register)
  /-- `orr Xd, xzr, xzr` -/
  | movZero (d : Register)
  /-- `ldr Xt, [Cn, #offset]` of the low half of a granule. -/
  | ldrX (t n : Register) (offset : Int)
  /-- `ldr Wt, [Cn, #offset]` -/
  | ldrW (t n : Register) (offset : Int)
  /-- `ldrh Wt, [Cn, #offset]` -/
  | ldrH (t n : Register) (offset : Int)
  /-- `stp Xt, xzr, [Cn, #offset]` -/
  | stpXzr (t n : Register) (offset : Int)
  /-- `stp Xt, xzr, [Cn, #offset]!` -/
  | stpXzrPre (t n : Register) (offset : Int)
  | addX (d n : Register) (imm : Int)
  /-- `and Xd, Xn, #-2^k` -/
  | alignX (d n : Register) (k : Nat)
  | negX (d n : Register)
  | subX (d n m : Register)
  | lslX (d n : Register) (k : Nat)
  | lslW (d n : Register) (k : Nat)
  | subsW (d n : Register) (imm : Nat)
  | cmpX (n m : Register)
  /-- `ldrb` or `ldrh Wt, [Cn, #offset]` of a bytecode operand. -/
  | ldrOperand (t n : Register) (offset : Int) (size : Nat)
  | rev16W (d n : Register)
  /-- `ldr Xt, [Cn, Xm, lsl #3]` of the low half of a granule. -/
  | ldrXReg (t n m : Register)
  | strXReg (t n m : Register)
  /-- `str Xt, [Cn, #offset]` into the low half of a granule. -/
  | strX (t n : Register) (offset : Int)
  /-- `stp Xt, Xt2, [Cn, #offset]!` -/
  | stpXPre (t t2 n : Register) (offset : Int)
  | movW (d : Register) (imm : Nat)
deriving DecidableEq, Repr

/-- The capability instructions among the words that the port emits. -/
def decode (w : Nat) : Option Instr :=
  let t := Register.ofZr (field 0 5 w)
  let d := Register.ofSp (field 0 5 w)
  let n := Register.ofSp (field 5 5 w)
  let t2 := Register.ofZr (field 10 5 w)
  let m := Register.ofZr (field 16 5 w)
  let scaledOffset : Int := 16 * field 10 12 w
  let unscaledOffset := signed 9 (field 12 9 w)
  let pairOffset := 16 * signed 7 (field 15 7 w)
  let imm : Int := if field 22 1 w = 0 then field 10 12 w
    else 4096 * field 10 12 w
  match field 22 10 w with
  | 0b1100001000 => some (.str t n scaledOffset)
  | 0b1100001001 => some (.ldr t n scaledOffset)
  | 0b1010001000 =>
      if field 21 1 w = 0 ∧ field 10 2 w = 0 then
        some (.str t n unscaledOffset)
      else if field 21 1 w = 1 ∧ field 13 3 w = 3 ∧ field 10 2 w = 2 then
        some (.strReg t n m (field 12 1 w == 1))
      else none
  | 0b1010001001 =>
      if field 21 1 w = 0 ∧ field 10 2 w = 0 then
        some (.ldr t n unscaledOffset)
      else if field 21 1 w = 1 ∧ field 13 3 w = 3 ∧ field 10 2 w = 2 then
        some (.ldrReg t n m (field 12 1 w == 1))
      else none
  | 0b0100001010 => some (.stp t t2 n pairOffset)
  | 0b0100001011 => some (.ldp t t2 n pairOffset)
  | 0b0110001010 => some (.stpPre t t2 n pairOffset)
  | 0b0000001000 | 0b0000001001 => some (.addImm d n imm)
  | 0b0000001010 | 0b0000001011 => some (.subImm d n imm)
  | 0b1100001010 =>
      if field 21 1 w = 1 ∧ field 13 3 w = 3 ∧ field 10 3 w = 0 then
        some (.addReg d n m)
      else none
  | 0b1100001011 =>
      if field 10 12 w = 0b000001110100 then some (.mov d n) else none
  | _ => none

structure Flags where
  n : Bool
  z : Bool
  c : Bool
  v : Bool
deriving DecidableEq, Repr

/-- `br(GT)`: signed greater. -/
def Flags.gt (flags : Flags) : Bool := !flags.z && flags.n == flags.v

/-- `br(HI)`: unsigned higher. -/
def Flags.hi (flags : Flags) : Bool := flags.c && !flags.z

structure Cpu where
  reg : Fin 31 → Cap
  csp : Cap
  /-- The granule at an address. -/
  mem : Nat → Cap
  /-- Integer fields of metadata. -/
  data : Nat → Nat
  flags : Flags

/-- The address `offset` bytes from where a capability points. -/
def offsetBy (c : Cap) (offset : Int) : Nat :=
  ((c.address + offset) % addressSpace).toNat

/-- An access of `size` aligned bytes at `a` through `c` does not fault. -/
def Accessible (c : Cap) (a size : Nat) : Prop :=
  c.tag = true ∧ c.base ≤ a ∧ a + size ≤ c.base + c.length ∧ size ∣ a

instance (c : Cap) (a size : Nat) : Decidable (Accessible c a size) :=
  inferInstanceAs (Decidable (_ ∧ _ ∧ _ ∧ _))

/-- The same without an alignment. -/
def InBounds (c : Cap) (a size : Nat) : Prop :=
  c.tag = true ∧ c.base ≤ a ∧ a + size ≤ c.base + c.length

instance (c : Cap) (a size : Nat) : Decidable (InBounds c a size) :=
  inferInstanceAs (Decidable (_ ∧ _ ∧ _))

/-- A granule after an eight-byte store into its low half: the upper half stays
and the tag goes. -/
def withLow (c : Cap) (v : Nat) : Cap := { c with tag := false, address := v }

/-- An untagged granule with two words.  The upper one stands in place of the
bounds, which mean nothing there. -/
def packed (low high : Nat) : Cap := { Cap.ofInt low with base := high }

/-- `rev16`: the bytes of both halfwords of a word, exchanged. -/
def rev16 (w : Nat) : Nat :=
  w % 2 ^ 8 * 2 ^ 8 + w / 2 ^ 8 % 2 ^ 8 + w / 2 ^ 16 % 2 ^ 8 * 2 ^ 24 +
    w / 2 ^ 24 % 2 ^ 8 * 2 ^ 16

namespace Cpu

def read (cpu : Cpu) : Register → Cap
  | .c i => cpu.reg i
  | .zr => Cap.null
  | .sp => cpu.csp

def write (cpu : Cpu) (r : Register) (v : Cap) : Cpu :=
  match r with
  | .c i => { cpu with reg := Function.update cpu.reg i v }
  | .zr => cpu
  | .sp => { cpu with csp := v }

/-- An integer result in a register is a null-derived capability. -/
def writeX (cpu : Cpu) (r : Register) (v : Nat) : Cpu :=
  cpu.write r (Cap.ofInt (v % addressSpace))

def setMem (cpu : Cpu) (a : Nat) (v : Cap) : Cpu :=
  { cpu with mem := Function.update cpu.mem a v }

def setFlags (cpu : Cpu) (flags : Flags) : Cpu := { cpu with flags := flags }

def loadAt (cpu : Cpu) (c : Cap) (a : Nat) : Option Cap :=
  if Accessible c a 16 then some (cpu.mem a) else none

def storeAt (cpu : Cpu) (c : Cap) (a : Nat) (v : Cap) : Option Cpu :=
  if Accessible c a 16 then some (cpu.setMem a v) else none

def load (cpu : Cpu) (n : Register) (offset : Int) : Option Cap :=
  cpu.loadAt (cpu.read n) (offsetBy (cpu.read n) offset)

def store (cpu : Cpu) (n : Register) (offset : Int) (v : Cap) : Option Cpu :=
  cpu.storeAt (cpu.read n) (offsetBy (cpu.read n) offset) v

/-- An integer field of `size` bytes. -/
def loadData (cpu : Cpu) (n : Register) (offset : Int) (size : Nat) :
    Option Nat :=
  if Accessible (cpu.read n) (offsetBy (cpu.read n) offset) size then
    some (cpu.data (offsetBy (cpu.read n) offset) % 2 ^ (8 * size))
  else none

/-- An operand of `size` bytes among bytecodes, which are not aligned. -/
def loadOperand (cpu : Cpu) (n : Register) (offset : Int) (size : Nat) :
    Option Nat :=
  if InBounds (cpu.read n) (offsetBy (cpu.read n) offset) size then
    some (cpu.data (offsetBy (cpu.read n) offset) % 2 ^ (8 * size))
  else none

/-- The address of an indexed access. -/
def indexed (cpu : Cpu) (n m : Register) (scaled : Bool) : Nat :=
  offsetBy (cpu.read n)
    (if scaled then (cpu.read m).address * 16 else (cpu.read m).address)

/-- The address of an indexed eight-byte access. -/
def indexedX (cpu : Cpu) (n m : Register) : Nat :=
  offsetBy (cpu.read n) (((cpu.read m).address * 8 : Nat) : Int)

end Cpu

/-- The capability moved by `offset` bytes. -/
def moveBy (cheri : Intrinsics) (c : Cap) (offset : Int) : Cap :=
  cheri.addressSet c (offsetBy c offset)

/-- The flags of a subtraction of `width`-bit words. -/
def subFlags (width a b : Nat) : Flags :=
  let r := (a + 2 ^ width - b) % 2 ^ width
  { n := decide (2 ^ (width - 1) ≤ r)
    z := r == 0
    c := decide (b ≤ a)
    v := decide ((2 ^ (width - 1) ≤ a) ≠ (2 ^ (width - 1) ≤ b) ∧
      (2 ^ (width - 1) ≤ a) ≠ (2 ^ (width - 1) ≤ r)) }

namespace Instr

/-- One instruction; `none` is a capability fault. -/
def exec (cheri : Intrinsics) (cpu : Cpu) : Instr → Option Cpu
  | ldr t n offset => do
      let v ← cpu.load n offset
      some (cpu.write t v)
  | str t n offset => cpu.store n offset (cpu.read t)
  | ldp t t2 n offset => do
      let v ← cpu.load n offset
      let v2 ← cpu.load n (offset + 16)
      some ((cpu.write t v).write t2 v2)
  | stp t t2 n offset => do
      let cpu' ← cpu.store n offset (cpu.read t)
      cpu'.store n (offset + 16) (cpu.read t2)
  | stpPre t t2 n offset => do
      let cpu' ← cpu.store n offset (cpu.read t)
      let cpu' ← cpu'.store n (offset + 16) (cpu.read t2)
      some (cpu'.write n (moveBy cheri (cpu.read n) offset))
  | addImm d n imm => some (cpu.write d (moveBy cheri (cpu.read n) imm))
  | subImm d n imm => some (cpu.write d (moveBy cheri (cpu.read n) (-imm)))
  | addReg d n m =>
      some (cpu.write d (moveBy cheri (cpu.read n) (cpu.read m).address))
  | ldrReg t n m scaled => do
      let v ← cpu.loadAt (cpu.read n) (cpu.indexed n m scaled)
      some (cpu.write t v)
  | strReg t n m scaled =>
      cpu.storeAt (cpu.read n) (cpu.indexed n m scaled) (cpu.read t)
  | mov d n => some (cpu.write d (cpu.read n))
  | movZero d => some (cpu.writeX d 0)
  | ldrX t n offset => do
      let v ← cpu.load n offset
      some (cpu.writeX t v.address)
  | ldrW t n offset => do
      let v ← cpu.loadData n offset 4
      some (cpu.writeX t v)
  | ldrH t n offset => do
      let v ← cpu.loadData n offset 2
      some (cpu.writeX t v)
  | stpXzr t n offset => cpu.store n offset (Cap.ofInt (cpu.read t).address)
  | stpXzrPre t n offset => do
      let cpu' ← cpu.store n offset (Cap.ofInt (cpu.read t).address)
      some (cpu'.write n (moveBy cheri (cpu.read n) offset))
  | addX d n imm => some (cpu.writeX d (offsetBy (cpu.read n) imm))
  | alignX d n k => some (cpu.writeX d ((cpu.read n).address / 2 ^ k * 2 ^ k))
  | negX d n => some (cpu.writeX d (addressSpace - (cpu.read n).address))
  | subX d n m =>
      some (cpu.writeX d (offsetBy (cpu.read n) (-(cpu.read m).address)))
  | lslX d n k => some (cpu.writeX d ((cpu.read n).address * 2 ^ k))
  | lslW d n k => some (cpu.writeX d ((cpu.read n).address * 2 ^ k % 2 ^ 32))
  | subsW d n imm =>
      let a := (cpu.read n).address % 2 ^ 32
      some ((cpu.writeX d ((a + 2 ^ 32 - imm) % 2 ^ 32)).setFlags
        (subFlags 32 a imm))
  | cmpX n m =>
      some (cpu.setFlags
        (subFlags 64 (cpu.read n).address (cpu.read m).address))
  | ldrOperand t n offset size => do
      let v ← cpu.loadOperand n offset size
      some (cpu.writeX t v)
  | rev16W d n => some (cpu.writeX d (rev16 (cpu.read n).address))
  | ldrXReg t n m => do
      let v ← cpu.loadAt (cpu.read n) (cpu.indexedX n m)
      some (cpu.writeX t v.address)
  | strXReg t n m =>
      cpu.storeAt (cpu.read n) (cpu.indexedX n m)
        (withLow (cpu.mem (cpu.indexedX n m)) (cpu.read t).address)
  | strX t n offset =>
      cpu.store n offset (withLow (cpu.mem (offsetBy (cpu.read n) offset))
        (cpu.read t).address)
  | stpXPre t t2 n offset => do
      let cpu' ← cpu.store n offset
        (packed (cpu.read t).address (cpu.read t2).address)
      some (cpu'.write n (moveBy cheri (cpu.read n) offset))
  | movW d imm => some (cpu.writeX d (imm % 2 ^ 32))

end Instr

/-- What an assembler routine puts into the code buffer: a word of its own, or
an instruction of the stock assembler.  `none` stands for a failed assertion. -/
inductive Code where
  | emit (w : Option Nat)
  | stock (i : Instr)
deriving DecidableEq, Repr

def Code.exec (cheri : Intrinsics) (cpu : Cpu) : Code → Option Cpu
  | emit w => do
      let i ← decode (← w)
      i.exec cheri cpu
  | stock i => i.exec cheri cpu

/-- Straight-line code. -/
def run (cheri : Intrinsics) : List Code → Cpu → Option Cpu
  | [], cpu => some cpu
  | code :: rest, cpu => do
      let cpu' ← code.exec cheri cpu
      run cheri rest cpu'

end Morello

end StoplessGC
