import StoplessGC.Morello

/-!
# The capability emitters

`macroAssembler_aarch64.hpp` puts capability instructions together by hand:
the base word of the instruction, a masked immediate, and the encodings of the
registers.  Immediates are C `int`s, read modulo `2^32` where they are cast.
-/

namespace StoplessGC

namespace Morello

open BitFields

/-- `(unsigned)imm` -/
def unsigned (imm : Int) : Nat := (imm % 2 ^ 32).toNat

/-- A load or store with an unsigned scaled offset where the immediate allows
it, else with a signed unscaled one. -/
def capMemImm (scaled unscaled : Nat) (t n : Register) (imm : Int) :
    Option Nat :=
  if t.encoding ≤ 30 ∧ n.encoding ≤ 30 then
    if 0 ≤ imm ∧ imm % 16 = 0 ∧ imm < 16 * 4096 then
      some (scaled ||| ((unsigned imm / 16) <<< 10) ||| (n.encoding <<< 5) |||
        t.encoding)
    else
      some (unscaled ||| ((unsigned imm &&& 0x1FF) <<< 12) |||
        (n.encoding <<< 5) ||| t.encoding)
  else none

def capStrImm := capMemImm 0xC2000000 0xA2000000

def capLdrImm := capMemImm 0xC2400000 0xA2400000

/-- A pair with a signed offset scaled by 16; `n` is a register number. -/
def capPairImm (op : Nat) (t t2 : Register) (n : Nat) (imm : Int) : Nat :=
  op ||| (((unsigned imm / 16) &&& 0x7F) <<< 15) ||| (t2.encoding <<< 10) |||
    (n <<< 5) ||| t.encoding

def capStpImm (t t2 n : Register) (imm : Int) : Option Nat :=
  some (capPairImm 0x42800000 t t2 n.encoding imm)

def capLdpImm (t t2 n : Register) (imm : Int) : Option Nat :=
  some (capPairImm 0x42C00000 t t2 n.encoding imm)

def capStpSp (t t2 : Register) (imm : Int) : Option Nat :=
  some (capPairImm 0x42800000 t t2 31 imm)

def capStpSpPre (t t2 : Register) (imm : Int) : Option Nat :=
  some (capPairImm 0x62800000 t t2 31 imm)

/-- `(R == sp) ? 31u : R->encoding()` -/
def spEncoding (r : Register) : Nat :=
  if r = .sp then 31 else r.encoding

def capArithImm (op : Nat) (d n : Register) (imm : Int) : Option Nat :=
  some (op ||| ((unsigned imm &&& 0xFFF) <<< 10) ||| (spEncoding n <<< 5) |||
    spEncoding d)

def capAddImm := capArithImm 0x02000000

def capSubImm := capArithImm 0x02800000

def capAddReg (d n m : Register) : Option Nat :=
  some (0xC2A06000 ||| (m.encoding <<< 16) ||| (n.encoding <<< 5) |||
    d.encoding)

/-- `cap_ldr` for an address with an index register; its index is scaled if
`shift` is positive. -/
def capLdrIndexed (t n m : Register) (shift : Nat) : Option Nat :=
  some (0xA2606800 ||| ((if 0 < shift then 1 else 0) <<< 12) |||
    (m.encoding <<< 16) ||| (n.encoding <<< 5) ||| t.encoding)

/-- `mov(Register, Register)` between different registers, one of which may be
`sp` or `zr`. -/
def movRegister (d n : Register) : Code :=
  if d = .sp ∨ n = .sp then
    .emit (some (0x02000000 ||| (spEncoding n <<< 5) ||| spEncoding d))
  else if d = .zr ∨ n = .zr then .stock (.movZero d)
  else .emit (some (0xC2C1D000 ||| (n.encoding <<< 5) ||| d.encoding))

namespace Register

/-- `c0` to `c30`. -/
def IsGpr (r : Register) : Prop := r.encoding ≤ 30

instance (r : Register) : Decidable r.IsGpr :=
  inferInstanceAs (Decidable (_ ≤ _))

theorem encoding_lt (r : Register) : r.encoding < 64 := by
  cases r with
  | c i => exact Nat.lt_trans i.isLt (by decide)
  | zr => decide
  | sp => decide

theorem isGpr_c (i : Fin 31) : (c i).IsGpr := Nat.le_of_lt_succ i.isLt

theorem IsGpr.ne_zr {r : Register} (gpr : r.IsGpr) : r ≠ .zr := by
  rintro rfl
  exact absurd gpr (by decide)

theorem IsGpr.ne_sp {r : Register} (gpr : r.IsGpr) : r ≠ .sp := by
  rintro rfl
  exact absurd gpr (by decide)

/-- Only the registers with a number of their own survive a 5-bit field. -/
theorem ofZr_encoding_iff (r : Register) :
    ofZr (field 0 5 r.encoding) = r ↔ r.IsGpr := by
  cases r with
  | c i =>
      have small : field 0 5 i = i := field_zero_of_lt (by omega)
      simp [encoding, small, ofZr, isGpr_c]
  | zr => decide
  | sp => decide

theorem ofSp_encoding_iff (r : Register) :
    ofSp (field 0 5 r.encoding) = r ↔ r.IsGpr := by
  cases r with
  | c i =>
      have small : field 0 5 i = i := field_zero_of_lt (by omega)
      simp [encoding, small, ofSp, isGpr_c]
  | zr => decide
  | sp => decide

theorem ofSp_spEncoding_iff (r : Register) :
    ofSp (field 0 5 (spEncoding r)) = r ↔ r ≠ .zr := by
  cases r with
  | c i =>
      have small : field 0 5 i = i := field_zero_of_lt (by omega)
      simp [spEncoding, encoding, small, ofSp]
  | zr => decide
  | sp => decide

theorem spEncoding_lt {r : Register} (numbered : r ≠ .zr) :
    spEncoding r < 32 := by
  cases r with
  | c i => exact Nat.lt_trans i.isLt (by decide)
  | zr => exact absurd rfl numbered
  | sp => decide

theorem IsGpr.encoding_lt {r : Register} (gpr : r.IsGpr) : r.encoding < 32 :=
  Nat.lt_succ_of_le (Nat.le_succ_of_le gpr)

theorem IsGpr.ofZr {r : Register} (gpr : r.IsGpr) :
    Register.ofZr r.encoding = r := by
  have read := (ofZr_encoding_iff r).mpr gpr
  rwa [field_zero_of_lt gpr.encoding_lt] at read

theorem IsGpr.ofSp {r : Register} (gpr : r.IsGpr) :
    Register.ofSp r.encoding = r := by
  have read := (ofSp_encoding_iff r).mpr gpr
  rwa [field_zero_of_lt gpr.encoding_lt] at read

theorem IsGpr.no_spill {r : Register} (gpr : r.IsGpr) (width : Nat) :
    field 5 width r.encoding = 0 := field_of_lt gpr.encoding_lt width

end Register

theorem unsigned_of_natural {imm : Int} (natural : 0 ≤ imm)
    (word : imm < 2 ^ 32) : (unsigned imm : Int) = imm := by
  unfold unsigned
  omega

theorem unsigned_and_9 (imm : Int) :
    unsigned imm &&& 0x1FF = (imm % 2 ^ 9).toNat := by
  rw [show 0x1FF = 2 ^ 9 - 1 by rfl, Nat.and_two_pow_sub_one_eq_mod, unsigned]
  omega

theorem unsigned_and_12 (imm : Int) :
    unsigned imm &&& 0xFFF = (imm % 2 ^ 12).toNat := by
  rw [show 0xFFF = 2 ^ 12 - 1 by rfl, Nat.and_two_pow_sub_one_eq_mod, unsigned]
  omega

theorem unsigned_div_and_7 (imm : Int) :
    (unsigned imm / 16) &&& 0x7F = (imm / 16 % 2 ^ 7).toNat := by
  rw [show 0x7F = 2 ^ 7 - 1 by rfl, Nat.and_two_pow_sub_one_eq_mod, unsigned]
  omega

section Words

/-- An instruction word with one immediate, before any of it is cut off. -/
def immWord (major k imm n t : Nat) : Nat :=
  (major <<< 22) ||| (imm <<< k) ||| (n <<< 5) ||| t

variable {major imm n t : Nat}

theorem immWord_fields (opcode : major < 1024) (cut : imm < 2 ^ 12)
    (wideN : n < 64) (wideT : t < 64) :
    field 22 10 (immWord major 10 imm n t) = major ∧
      field 10 12 (immWord major 10 imm n t) = imm ||| field 5 12 n ∧
      field 5 5 (immWord major 10 imm n t) = field 0 5 n ||| field 5 5 t ∧
      field 0 5 (immWord major 10 imm n t) = field 0 5 t := by
  unfold immWord
  refine ⟨?_, ?_, ?_, ?_⟩
  · simp (disch := omega) only [field_or, field_shiftLeft_self, field_of_lt,
      Nat.or_zero]
  · simp (disch := omega) only [field_or, field_shiftLeft_above,
      field_shiftLeft_self, field_of_lt, Nat.zero_or, Nat.or_zero]
    rw [field_shiftLeft (by decide)]
  · simp (disch := omega) only [field_or, field_shiftLeft_above, Nat.zero_or]
    rw [field_shiftLeft (by decide)]
  · simp (disch := omega) only [field_or, field_shiftLeft_above, Nat.zero_or]

theorem immWord_unscaled_fields (opcode : major < 1024) (cut : imm < 2 ^ 9)
    (smallN : n < 32) (smallT : t < 32) :
    field 22 10 (immWord major 12 imm n t) = major ∧
      field 21 1 (immWord major 12 imm n t) = 0 ∧
      field 12 9 (immWord major 12 imm n t) = imm ∧
      field 10 2 (immWord major 12 imm n t) = 0 ∧
      field 5 5 (immWord major 12 imm n t) = n ∧
      field 0 5 (immWord major 12 imm n t) = t := by
  unfold immWord
  refine ⟨?_, ?_, ?_, ?_, ?_, ?_⟩
  · simp (disch := omega) only [field_or, field_shiftLeft_self, field_of_lt,
      Nat.or_zero]
  · simp (disch := omega) only [field_or, field_shiftLeft_above, field_of_lt,
      Nat.or_zero]
  · simp (disch := omega) only [field_or, field_shiftLeft_above,
      field_shiftLeft_self, field_of_lt, Nat.zero_or, Nat.or_zero]
  · simp (disch := omega) only [field_or, field_shiftLeft_above, field_of_lt,
      Nat.or_zero]
  · simp (disch := omega) only [field_or, field_shiftLeft_above,
      field_shiftLeft_self, field_of_lt, Nat.zero_or, Nat.or_zero]
  · simp (disch := omega) only [field_or, field_shiftLeft_above,
      field_zero_of_lt, Nat.zero_or]

/-- An instruction word for a pair of registers. -/
def pairWord (major imm t2 n t : Nat) : Nat :=
  (major <<< 22) ||| (imm <<< 15) ||| (t2 <<< 10) ||| (n <<< 5) ||| t

variable {t2 : Nat}

/-- What a decoder sees of a pair: each operand that is too wide reaches into
the field above its own. -/
theorem pairWord_fields (opcode : major < 1024) (cut : imm < 2 ^ 7)
    (wideT2 : t2 < 64) (wideN : n < 64) (wideT : t < 64) :
    field 22 10 (pairWord major imm t2 n t) = major ∧
      field 15 7 (pairWord major imm t2 n t) = imm ||| field 5 7 t2 ∧
      field 10 5 (pairWord major imm t2 n t) = field 0 5 t2 ||| field 5 5 n ∧
      field 5 5 (pairWord major imm t2 n t) = field 0 5 n ||| field 5 5 t ∧
      field 0 5 (pairWord major imm t2 n t) = field 0 5 t := by
  unfold pairWord
  refine ⟨?_, ?_, ?_, ?_, ?_⟩
  · simp (disch := omega) only [field_or, field_shiftLeft_self, field_of_lt,
      Nat.or_zero]
  · simp (disch := omega) only [field_or, field_shiftLeft_above,
      field_shiftLeft_self, field_of_lt, Nat.zero_or, Nat.or_zero]
    rw [field_shiftLeft (by decide)]
  · simp (disch := omega) only [field_or, field_shiftLeft_above, field_of_lt,
      Nat.zero_or, Nat.or_zero]
    rw [field_shiftLeft (by decide), field_shiftLeft (by decide)]
  · simp (disch := omega) only [field_or, field_shiftLeft_above, Nat.zero_or]
    rw [field_shiftLeft (by decide)]
  · simp (disch := omega) only [field_or, field_shiftLeft_above, Nat.zero_or]

end Words

/-- The single loads and stores, by whether they load. -/
def memInstr : Bool → Register → Register → Int → Instr
  | true => .ldr
  | false => .str

theorem decode_scaled (loads : Bool) {imm n t : Nat} (cut : imm < 2 ^ 12)
    (smallN : n < 32) (smallT : t < 32) :
    decode (immWord (if loads then 777 else 776) 10 imm n t) =
      some (memInstr loads (.ofZr t) (.ofSp n) (16 * imm)) := by
  have spillN : ∀ k, field 5 k n = 0 := field_of_lt smallN
  have spillT : ∀ k, field 5 k t = 0 := field_of_lt smallT
  obtain ⟨opcode, offset, base, target⟩ :=
    @immWord_fields (if loads then 777 else 776) imm n t
      (by cases loads <;> decide) cut (by omega) (by omega)
  rw [spillN, Nat.or_zero] at offset
  rw [spillT, Nat.or_zero, field_zero_of_lt smallN] at base
  rw [field_zero_of_lt (w := t) smallT] at target
  simp only [decode, opcode, offset, base, target]
  cases loads <;> rfl

theorem decode_unscaled (loads : Bool) {imm n t : Nat} (cut : imm < 2 ^ 9)
    (smallN : n < 32) (smallT : t < 32) :
    decode (immWord (if loads then 649 else 648) 12 imm n t) =
      some (memInstr loads (.ofZr t) (.ofSp n) (signed 9 imm)) := by
  obtain ⟨opcode, single, offset, plain, base, target⟩ :=
    @immWord_unscaled_fields (if loads then 649 else 648) imm n t
      (by cases loads <;> decide) cut smallN smallT
  simp only [decode, opcode, single, offset, plain, base, target]
  cases loads <;> rfl

/-- `cap_ldr_imm` or `cap_str_imm`. -/
def capMem : Bool → Register → Register → Int → Option Nat
  | true => capLdrImm
  | false => capStrImm

/-- The offset that a single load or store gets. -/
def memOffset (imm : Int) : Int :=
  if 0 ≤ imm ∧ imm % 16 = 0 ∧ imm < 16 * 4096 then imm
  else signed 9 (imm % 2 ^ 9).toNat

theorem decode_capMem (loads : Bool) {t n : Register} (gprT : t.IsGpr)
    (gprN : n.IsGpr) (imm : Int) :
    (capMem loads t n imm).bind decode =
      some (memInstr loads t n (memOffset imm)) := by
  have asserted : t.encoding ≤ 30 ∧ n.encoding ≤ 30 := ⟨gprT, gprN⟩
  by_cases scaled : 0 ≤ imm ∧ imm % 16 = 0 ∧ imm < 16 * 4096
  · have whole : ((unsigned imm / 16 : Nat) : Int) * 16 = imm := by
      have natural := unsigned_of_natural scaled.1 (by omega)
      omega
    have cut : unsigned imm / 16 < 2 ^ 12 := by omega
    have word := decode_scaled loads cut gprN.encoding_lt gprT.encoding_lt
    rw [gprT.ofZr, gprN.ofSp, Int.mul_comm, whole] at word
    have emitted : capMem loads t n imm =
        some (immWord (if loads then 777 else 776) 10 (unsigned imm / 16)
          n.encoding t.encoding) := by
      cases loads <;> exact (if_pos asserted).trans (if_pos scaled)
    rw [emitted, Option.bind_some, word, memOffset, if_pos scaled]
  · have cut : (imm % 2 ^ 9).toNat < 2 ^ 9 := by omega
    have word := decode_unscaled loads cut gprN.encoding_lt gprT.encoding_lt
    rw [gprT.ofZr, gprN.ofSp] at word
    have emitted : capMem loads t n imm =
        some (immWord (if loads then 649 else 648) 12 (imm % 2 ^ 9).toNat
          n.encoding t.encoding) := by
      rw [← unsigned_and_9]
      cases loads <;> exact (if_pos asserted).trans (if_neg scaled)
    rw [emitted, Option.bind_some, word, memOffset, if_neg scaled]

/-- The pair accesses, by their major opcode. -/
def pairInstr (major : Nat) (t t2 n : Register) (offset : Int) : Option Instr :=
  match major with
  | 266 => some (.stp t t2 n offset)
  | 267 => some (.ldp t t2 n offset)
  | 394 => some (.stpPre t t2 n offset)
  | _ => none

theorem decode_capPairImm {major : Nat}
    (pair : major = 266 ∨ major = 267 ∨ major = 394) (t t2 : Register)
    {n : Nat} (wideN : n < 64) (imm : Int) :
    decode (capPairImm (major <<< 22) t t2 n imm) =
      pairInstr major (.ofZr (field 0 5 t.encoding))
        (.ofZr (field 0 5 t2.encoding ||| field 5 5 n))
        (.ofSp (field 0 5 n ||| field 5 5 t.encoding))
        (16 * signed 7 ((imm / 16 % 2 ^ 7).toNat ||| field 5 7 t2.encoding)) := by
  have cut : (imm / 16 % 2 ^ 7).toNat < 2 ^ 7 := by omega
  obtain ⟨opcode, offset, second, base, target⟩ :=
    @pairWord_fields major (imm / 16 % 2 ^ 7).toNat n t.encoding t2.encoding
      (by omega) cut t2.encoding_lt wideN t.encoding_lt
  have word : capPairImm (major <<< 22) t t2 n imm =
      pairWord major (imm / 16 % 2 ^ 7).toNat t2.encoding n t.encoding := by
    rw [capPairImm, unsigned_div_and_7, pairWord]
  rw [word]
  simp only [decode, opcode, offset, second, base, target]
  rcases pair with rfl | rfl | rfl <;> rfl

/-- The immediate additions and subtractions. -/
def arithInstr : Bool → Register → Register → Int → Instr
  | true => .addImm
  | false => .subImm

/-- `cap_add_imm` or `cap_sub_imm`. -/
def capArith : Bool → Register → Register → Int → Option Nat
  | true => capAddImm
  | false => capSubImm

theorem spEncoding_lt_64 (r : Register) : spEncoding r < 64 := by
  unfold spEncoding
  split
  · decide
  · exact r.encoding_lt

theorem decode_capArith (adds : Bool) (d n : Register) (imm : Int) :
    (capArith adds d n imm).bind decode =
      some (arithInstr adds (.ofSp (field 0 5 (spEncoding d)))
        (.ofSp (field 0 5 (spEncoding n) ||| field 5 5 (spEncoding d)))
        (((imm % 2 ^ 12).toNat ||| field 5 12 (spEncoding n) : Nat) : Int)) := by
  have cut : (imm % 2 ^ 12).toNat < 2 ^ 12 := by omega
  obtain ⟨opcode, offset, base, target⟩ :=
    @immWord_fields (if adds then 8 else 10) (imm % 2 ^ 12).toNat
      (spEncoding n) (spEncoding d) (by cases adds <;> decide) cut
      (spEncoding_lt_64 n) (spEncoding_lt_64 d)
  have unshifted := @field_narrow 1 10 (by decide) 22
    (immWord (if adds then 8 else 10) 10 (imm % 2 ^ 12).toNat (spEncoding n)
      (spEncoding d))
  rw [opcode] at unshifted
  have word : capArith adds d n imm =
      some (immWord (if adds then 8 else 10) 10 (imm % 2 ^ 12).toNat
        (spEncoding n) (spEncoding d)) := by
    rw [← unsigned_and_12]
    cases adds <;> rfl
  rw [word, Option.bind_some]
  simp only [decode, opcode, offset, base, target, unshifted]
  cases adds <;> rfl

section Indexed

/-- An instruction word for three registers. -/
def regWord (op m n d : Nat) : Nat :=
  op ||| (m <<< 16) ||| (n <<< 5) ||| d

variable {op m n d : Nat}

theorem regWord_field {lo width : Nat}
    (outside : 21 ≤ lo ∨ (10 ≤ lo ∧ lo + width ≤ 16)) (smallM : m < 32)
    (smallN : n < 32) (smallD : d < 32) :
    field lo width (regWord op m n d) = field lo width op := by
  have below : ∀ {w k : Nat}, w < 2 ^ k → k ≤ lo → field lo width w = 0 := by
    intro w k small under
    exact field_of_lt (small.trans_le (Nat.pow_le_pow_right (by decide) under)) _
  have index : field lo width (m <<< 16) = 0 := by
    rcases outside with above | between
    · exact below (k := 21) (by omega) above
    · exact field_shiftLeft_above between.2 m
  rw [regWord, field_or, field_or, field_or, index,
    below (w := n <<< 5) (k := 10) (by omega) (by omega),
    below (w := d) (k := 5) (by omega) (by omega)]
  simp only [Nat.or_zero]

theorem regWord_operands (emptyM : field 16 5 op = 0)
    (emptyN : field 5 5 op = 0) (emptyD : field 0 5 op = 0) (smallM : m < 32)
    (smallN : n < 32) (smallD : d < 32) :
    field 16 5 (regWord op m n d) = m ∧ field 5 5 (regWord op m n d) = n ∧
      field 0 5 (regWord op m n d) = d := by
  unfold regWord
  refine ⟨?_, ?_, ?_⟩
  · simp (disch := omega) only [field_or, emptyM, field_shiftLeft_self,
      field_of_lt, Nat.or_zero, Nat.zero_or]
  · simp (disch := omega) only [field_or, emptyN, field_shiftLeft_above,
      field_shiftLeft_self, field_of_lt, Nat.or_zero, Nat.zero_or]
  · simp (disch := omega) only [field_or, emptyD, field_shiftLeft_above,
      field_zero_of_lt, Nat.zero_or]

end Indexed

theorem decode_capAddReg {d n m : Register} (gprD : d.IsGpr) (gprN : n.IsGpr)
    (gprM : m.IsGpr) :
    (capAddReg d n m).bind decode = some (.addReg d n m) := by
  obtain ⟨index, base, target⟩ :=
    @regWord_operands 0xC2A06000 m.encoding n.encoding d.encoding rfl rfl rfl
      gprM.encoding_lt gprN.encoding_lt gprD.encoding_lt
  have outside : ∀ lo width : Nat, 21 ≤ lo ∨ (10 ≤ lo ∧ lo + width ≤ 16) →
      field lo width (regWord 0xC2A06000 m.encoding n.encoding d.encoding) =
        field lo width 0xC2A06000 := fun _ _ place =>
    regWord_field place gprM.encoding_lt gprN.encoding_lt gprD.encoding_lt
  change decode (regWord 0xC2A06000 m.encoding n.encoding d.encoding) = _
  simp only [decode, index, base, target, outside 22 _ (.inl (by decide)),
    outside 21 _ (.inl (by decide)), outside 13 3 (by decide),
    outside 10 3 (by decide), gprD.ofSp, gprN.ofSp,
    gprM.ofZr]
  rfl

theorem decode_capLdrIndexed {t n m : Register} (gprT : t.IsGpr)
    (gprN : n.IsGpr) (gprM : m.IsGpr) :
    (capLdrIndexed t n m 0).bind decode = some (.ldrReg t n m false) := by
  obtain ⟨index, base, target⟩ :=
    @regWord_operands 0xA2606800 m.encoding n.encoding t.encoding rfl rfl rfl
      gprM.encoding_lt gprN.encoding_lt gprT.encoding_lt
  have outside : ∀ lo width : Nat, 21 ≤ lo ∨ (10 ≤ lo ∧ lo + width ≤ 16) →
      field lo width (regWord 0xA2606800 m.encoding n.encoding t.encoding) =
        field lo width 0xA2606800 := fun _ _ place =>
    regWord_field place gprM.encoding_lt gprN.encoding_lt gprT.encoding_lt
  change decode (regWord 0xA2606800 m.encoding n.encoding t.encoding) = _
  simp only [decode, index, base, target, outside 22 _ (.inl (by decide)),
    outside 21 _ (.inl (by decide)), outside 13 3 (by decide),
    outside 12 1 (by decide), outside 10 2 (by decide), gprT.ofZr, gprN.ofSp,
    gprM.ofZr]
  rfl

theorem decode_movRegister {d n : Register} (gprD : d.IsGpr)
    (gprN : n.IsGpr) :
    decode (0xC2C1D000 ||| (n.encoding <<< 5) ||| d.encoding) =
      some (.mov d n) := by
  have smallN : n.encoding < 2 ^ 5 := gprN.encoding_lt
  have smallD : d.encoding < 2 ^ 5 := gprD.encoding_lt
  have above : ∀ lo width : Nat, 10 ≤ lo →
      field lo width (0xC2C1D000 ||| (n.encoding <<< 5) ||| d.encoding) =
        field lo width 0xC2C1D000 := by
    intro lo width beyond
    have under : d.encoding < 2 ^ lo :=
      smallD.trans_le (Nat.pow_le_pow_right (by decide) (by omega))
    rw [field_or, field_or, field_shiftLeft_below smallN beyond,
      field_of_lt under, Nat.or_zero, Nat.or_zero]
  have base : field 5 5 (0xC2C1D000 ||| (n.encoding <<< 5) ||| d.encoding) =
      n.encoding := by
    rw [field_or, field_or, field_shiftLeft_self smallN, field_of_lt smallD]
    exact (Nat.or_zero _).trans (Nat.zero_or _)
  have target : field 0 5 (0xC2C1D000 ||| (n.encoding <<< 5) ||| d.encoding) =
      d.encoding := by
    rw [field_or, field_or, field_shiftLeft_above (by decide),
      field_zero_of_lt smallD]
    exact Nat.zero_or _
  simp only [decode, base, target, above 22 _ (by decide),
    above 10 _ (by decide), gprD.ofSp, gprN.ofSp]
  rfl

/-- A call of one of the emitters with an immediate. -/
inductive Request where
  | capLdrImm (t n : Register) (imm : Int)
  | capStrImm (t n : Register) (imm : Int)
  | capLdpImm (t t2 n : Register) (imm : Int)
  | capStpImm (t t2 n : Register) (imm : Int)
  | capAddImm (d n : Register) (imm : Int)
  | capSubImm (d n : Register) (imm : Int)
deriving DecidableEq, Repr

namespace Request

/-- The word that is emitted unless an assertion fails. -/
def emit : Request → Option Nat
  | capLdrImm t n imm => Morello.capLdrImm t n imm
  | capStrImm t n imm => Morello.capStrImm t n imm
  | capLdpImm t t2 n imm => Morello.capLdpImm t t2 n imm
  | capStpImm t t2 n imm => Morello.capStpImm t t2 n imm
  | capAddImm d n imm => Morello.capAddImm d n imm
  | capSubImm d n imm => Morello.capSubImm d n imm

/-- The instruction that is asked for. -/
def instr : Request → Instr
  | capLdrImm t n imm => .ldr t n imm
  | capStrImm t n imm => .str t n imm
  | capLdpImm t t2 n imm => .ldp t t2 n imm
  | capStpImm t t2 n imm => .stp t t2 n imm
  | capAddImm d n imm => .addImm d n imm
  | capSubImm d n imm => .subImm d n imm

/-- An assertion fails, or the word decodes to what was asked for. -/
def RoundTrips (r : Request) : Prop :=
  ∀ w, r.emit = some w → decode w = some r.instr

end Request

/-- A single load or store has an encoding for the offset. -/
def MemEncodable (imm : Int) : Prop :=
  (0 ≤ imm ∧ imm % 16 = 0 ∧ imm < 65536) ∨ (-256 ≤ imm ∧ imm < 256)

def PairEncodable (imm : Int) : Prop :=
  imm % 16 = 0 ∧ -1024 ≤ imm ∧ imm < 1024

def ArithEncodable (imm : Int) : Prop := 0 ≤ imm ∧ imm < 4096

def Request.Encodable : Request → Prop
  | capLdrImm t n imm => t.IsGpr → n.IsGpr → MemEncodable imm
  | capStrImm t n imm => t.IsGpr → n.IsGpr → MemEncodable imm
  | capLdpImm t t2 n imm => t.IsGpr ∧ t2.IsGpr ∧ n.IsGpr ∧ PairEncodable imm
  | capStpImm t t2 n imm => t.IsGpr ∧ t2.IsGpr ∧ n.IsGpr ∧ PairEncodable imm
  | capAddImm d n imm => d ≠ .zr ∧ n ≠ .zr ∧ ArithEncodable imm
  | capSubImm d n imm => d ≠ .zr ∧ n ≠ .zr ∧ ArithEncodable imm

theorem memOffset_eq_iff (imm : Int) : memOffset imm = imm ↔ MemEncodable imm := by
  have cut := @signed_toNat_emod_eq_iff 9 (by decide) imm
  unfold memOffset MemEncodable
  split
  · omega
  · rw [cut]
    omega

theorem pairOffset_eq_iff (imm : Int) :
    16 * signed 7 (imm / 16 % 2 ^ 7).toNat = imm ↔ PairEncodable imm := by
  have cut := @signed_toNat_emod_eq_iff 7 (by decide) (imm / 16)
  unfold PairEncodable
  constructor
  · intro same
    have whole : signed 7 (imm / 16 % 2 ^ 7).toNat = imm / 16 := by omega
    have bounds := cut.mp whole
    omega
  · rintro ⟨aligned, lower, upper⟩
    rw [cut.mpr (by omega)]
    omega

theorem capMem_eq_none {t n : Register} (pseudo : ¬ (t.IsGpr ∧ n.IsGpr))
    (loads : Bool) (imm : Int) : capMem loads t n imm = none := by
  cases loads <;> exact if_neg pseudo

theorem capMem_roundTrips_iff (loads : Bool) (t n : Register) (imm : Int) :
    (∀ w, capMem loads t n imm = some w →
      decode w = some (memInstr loads t n imm)) ↔
      (t.IsGpr → n.IsGpr → MemEncodable imm) := by
  by_cases numbered : t.IsGpr ∧ n.IsGpr
  · have decoded := decode_capMem loads numbered.1 numbered.2 imm
    obtain ⟨w, emitted, read⟩ := Option.bind_eq_some_iff.mp decoded
    have same : memInstr loads t n (memOffset imm) = memInstr loads t n imm ↔
        memOffset imm = imm := by
      cases loads <;> simp [memInstr]
    rw [← memOffset_eq_iff, ← same]
    constructor
    · intro roundTrips _ _
      have again := roundTrips w emitted
      rw [read] at again
      exact Option.some.inj again
    · intro kept w' emitted'
      rw [emitted] at emitted'
      cases emitted'
      rw [read, kept numbered.1 numbered.2]
  · constructor
    · intro _ gprT gprN
      exact absurd ⟨gprT, gprN⟩ numbered
    · intro _ w emitted
      rw [capMem_eq_none numbered] at emitted
      cases emitted

theorem capPair_roundTrips_iff {major : Nat}
    (pair : major = 266 ∨ major = 267) (t t2 n : Register) (imm : Int) :
    (∀ w, some (capPairImm (major <<< 22) t t2 n.encoding imm) = some w →
      decode w = pairInstr major t t2 n imm) ↔
      t.IsGpr ∧ t2.IsGpr ∧ n.IsGpr ∧ PairEncodable imm := by
  have decoded := @decode_capPairImm major (by omega) t t2 _ n.encoding_lt imm
  have same : ∀ a a2 b offset,
      pairInstr major a a2 b offset = pairInstr major t t2 n imm ↔
        a = t ∧ a2 = t2 ∧ b = n ∧ offset = imm := by
    intro a a2 b offset
    rcases pair with rfl | rfl <;> simp [pairInstr]
  constructor
  · intro roundTrips
    have read := roundTrips _ rfl
    rw [decoded, same] at read
    obtain ⟨target, second, base, offset⟩ := read
    -- each register that is in place leaves the field above it alone
    have gprT := (Register.ofZr_encoding_iff t).mp target
    rw [gprT.no_spill, Nat.or_zero] at base
    have gprN := (Register.ofSp_encoding_iff n).mp base
    rw [gprN.no_spill, Nat.or_zero] at second
    have gprT2 := (Register.ofZr_encoding_iff t2).mp second
    rw [gprT2.no_spill, Nat.or_zero] at offset
    exact ⟨gprT, gprT2, gprN, (pairOffset_eq_iff imm).mp offset⟩
  · rintro ⟨gprT, gprT2, gprN, fits⟩ w emitted
    cases emitted
    rw [decoded, same, gprT.no_spill, gprN.no_spill, gprT2.no_spill]
    simp only [Nat.or_zero]
    exact ⟨(Register.ofZr_encoding_iff t).mpr gprT,
      (Register.ofZr_encoding_iff t2).mpr gprT2,
      (Register.ofSp_encoding_iff n).mpr gprN, (pairOffset_eq_iff imm).mpr fits⟩

theorem capArith_roundTrips_iff (adds : Bool) (d n : Register) (imm : Int) :
    (∀ w, capArith adds d n imm = some w →
      decode w = some (arithInstr adds d n imm)) ↔
      d ≠ .zr ∧ n ≠ .zr ∧ ArithEncodable imm := by
  obtain ⟨w, emitted, read⟩ :=
    Option.bind_eq_some_iff.mp (decode_capArith adds d n imm)
  have same : ∀ a b imm', arithInstr adds a b imm' = arithInstr adds d n imm ↔
      a = d ∧ b = n ∧ imm' = imm := by
    intro a b imm'
    cases adds <;> simp [arithInstr]
  have noSpill : ∀ {r : Register} (width : Nat), r ≠ .zr →
      field 5 width (spEncoding r) = 0 := fun width numbered =>
    field_of_lt (Register.spEncoding_lt numbered) width
  constructor
  · intro roundTrips
    have again := roundTrips w emitted
    rw [read] at again
    obtain ⟨target, base, kept⟩ := (same _ _ _).mp (Option.some.inj again)
    have numberedD := (Register.ofSp_spEncoding_iff d).mp target
    rw [noSpill _ numberedD, Nat.or_zero] at base
    have numberedN := (Register.ofSp_spEncoding_iff n).mp base
    rw [noSpill _ numberedN, Nat.or_zero] at kept
    refine ⟨numberedD, numberedN, ?_⟩
    unfold ArithEncodable
    omega
  · rintro ⟨numberedD, numberedN, natural, small⟩ w' emitted'
    rw [emitted] at emitted'
    cases emitted'
    rw [read, Option.some.injEq, same, noSpill _ numberedD,
      noSpill _ numberedN]
    simp only [Nat.or_zero]
    exact ⟨(Register.ofSp_spEncoding_iff d).mpr numberedD,
      (Register.ofSp_spEncoding_iff n).mpr numberedN, by omega⟩

/-- Which calls of the emitters give what they are asked for. -/
theorem request_roundTrips_iff (r : Request) : r.RoundTrips ↔ r.Encodable := by
  cases r with
  | capLdrImm t n imm => exact capMem_roundTrips_iff true t n imm
  | capStrImm t n imm => exact capMem_roundTrips_iff false t n imm
  | capLdpImm t t2 n imm => exact capPair_roundTrips_iff (.inr rfl) t t2 n imm
  | capStpImm t t2 n imm => exact capPair_roundTrips_iff (.inl rfl) t t2 n imm
  | capAddImm d n imm => exact capArith_roundTrips_iff true d n imm
  | capSubImm d n imm => exact capArith_roundTrips_iff false d n imm

/-- `add c0, c1, #4096` becomes `add c0, c1, #0`, `ldr c0, [c1, #65536]` loads
at offset 0, and `stp c10, zr, [c0, #64]` stores `c0` a slot too high. -/
theorem emitters_truncate :
    (Morello.capAddImm (.c 0) (.c 1) 4096).bind decode =
        some (.addImm (.c 0) (.c 1) 0) ∧
      ¬ (Request.capAddImm (.c 0) (.c 1) 4096).RoundTrips ∧
      (Morello.capLdrImm (.c 0) (.c 1) 65536).bind decode =
        some (.ldr (.c 0) (.c 1) 0) ∧
      (Morello.capStpImm (.c 10) .zr (.c 0) 64).bind decode =
        some (.stp (.c 10) (.c 0) (.c 0) 80) := by
  refine ⟨by decide, ?_, by decide, by decide⟩
  intro roundTrips
  exact absurd (roundTrips 0x02000020 (by decide)) (by decide)

end Morello

end StoplessGC
