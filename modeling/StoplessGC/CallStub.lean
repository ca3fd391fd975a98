import StoplessGC.MachineCode

/-!
# Passing the parameters of a Java call

The part of `generate_call_stub` that copies the `JavaCallArguments` buffer to
the stack.  It first lowers `csp` by eight bytes for each parameter, rounded up
to 32, and then pushes sixteen bytes for each parameter below the old `csp`.
-/

namespace StoplessGC

namespace Morello

namespace CallStub

abbrev esp : Register := .c 20
abbrev scratch : Register := .c 8
abbrev c_rarg5 : Register := .c 5
abbrev c_rarg6 : Register := .c 6

/-- `mov(esp, sp)`, and `csp` lowered by the parameter area. -/
def reserve : List Code :=
  [movRegister esp .sp,
    .stock (.lslW scratch c_rarg6 3),
    .stock (.addX scratch scratch 31),
    .stock (.alignX scratch scratch 5),
    .stock (.negX scratch scratch),
    .emit (some (0xC2A06000 ||| (scratch.encoding <<< 16) ||| (31 <<< 5) |||
      31))]

/-- One parameter, with the count lowered before the push. -/
def pushOne : List Code :=
  [.emit (capLdrImm scratch c_rarg5 0),
    .emit (capAddImm c_rarg5 c_rarg5 16),
    .stock (.subsW c_rarg6 c_rarg6 1),
    .emit (capSubImm esp esp 16),
    .emit (capStrImm scratch esp 0)]

/-- The loop up to `br(GT)`, with the number of times it ran. -/
def pushLoop (cheri : Intrinsics) : Nat → Cpu → Option (Nat × Cpu)
  | 0, _ => none
  | fuel + 1, cpu => do
      let cpu ← run cheri pushOne cpu
      if cpu.flags.gt then do
        let (n, cpu) ← pushLoop cheri fuel cpu
        some (n + 1, cpu)
      else some (1, cpu)

/-- The whole sequence; `cbzw` skips the loop. -/
def passParameters (cheri : Intrinsics) (fuel : Nat) (cpu : Cpu) :
    Option (Nat × Cpu) := do
  let cpu ← run cheri reserve cpu
  if (cpu.read c_rarg6).address % 2 ^ 32 = 0 then some (0, cpu)
  else pushLoop cheri fuel cpu

/-- What is subtracted from `csp`: a 32-bit product, rounded up. -/
def delta (n : Nat) : Nat := (n * 8 % 2 ^ 32 + 31) / 32 * 32

/-- `n` parameters to copy from `source` to the stack below `target`. -/
structure Pending (cpu : Cpu) (n : Nat) : Prop where
  count : (cpu.read c_rarg6).address % 2 ^ 32 = n
  small : n < 2 ^ 31
  sourceTag : (cpu.read c_rarg5).tag = true
  sourceLower : (cpu.read c_rarg5).base ≤ (cpu.read c_rarg5).address
  sourceUpper : (cpu.read c_rarg5).address + 16 * n ≤
    (cpu.read c_rarg5).base + (cpu.read c_rarg5).length
  sourceAligned : 16 ∣ (cpu.read c_rarg5).address
  sourceWord : (cpu.read c_rarg5).address + 16 * n < addressSpace
  targetTag : (cpu.read esp).tag = true
  targetLower : (cpu.read esp).base + 16 * n ≤ (cpu.read esp).address
  targetUpper : (cpu.read esp).address ≤
    (cpu.read esp).base + (cpu.read esp).length
  targetAligned : 16 ∣ (cpu.read esp).address
  targetWord : (cpu.read esp).address < addressSpace
  apart : (cpu.read c_rarg5).address + 16 * n ≤
      (cpu.read esp).address - 16 * n ∨
    (cpu.read esp).address ≤ (cpu.read c_rarg5).address

section Loop

variable {cheri : Intrinsics} {cpu : Cpu} {n : Nat}

/-- The count is signed, so the loop goes on while it was above one. -/
theorem subFlags_gt {n : Nat} (positive : 0 < n) (small : n < 2 ^ 31) :
    (subFlags 32 n 1).gt = decide (1 < n) := by
  have result : (n + 2 ^ 32 - 1) % 2 ^ 32 = n - 1 := by omega
  have signs : ¬ 2 ^ (32 - 1) ≤ n ∧ ¬ 2 ^ (32 - 1) ≤ n - 1 := by omega
  simp only [subFlags, Flags.gt, result, signs.1, signs.2]
  rw [Bool.eq_iff_iff]
  simp
  omega

/-- The state before the store of a parameter, with `n` more to come. -/
def popped (cpu : Cpu) (n : Nat) : Cpu :=
  ((((cpu.write scratch (cpu.mem (cpu.read c_rarg5).address)).write c_rarg5
      ((cpu.read c_rarg5).withAddress
        ((cpu.read c_rarg5).address + 16))).writeX c_rarg6 n).setFlags
          (subFlags 32 (n + 1) 1)).write esp
    ((cpu.read esp).withAddress ((cpu.read esp).address - 16))

/-- The state after one parameter. -/
def pushed (cpu : Cpu) (n : Nat) : Cpu :=
  (popped cpu n).setMem ((cpu.read esp).address - 16)
    (cpu.mem (cpu.read c_rarg5).address)

theorem Pending.source (pending : Pending cpu (n + 1)) :
    Reaches (cpu.read c_rarg5) 0 := by
  have upper := pending.sourceUpper
  have word := pending.sourceWord
  exact ⟨pending.sourceTag, pending.sourceLower, by omega, by omega,
    pending.sourceAligned⟩

theorem Pending.target (pending : Pending cpu (n + 1)) :
    Reaches ((cpu.read esp).withAddress ((cpu.read esp).address - 16)) 0 := by
  have lower := pending.targetLower
  have upper := pending.targetUpper
  have aligned := pending.targetAligned
  have word := pending.targetWord
  constructor <;> simp only [Cap.withAddress]
  · exact pending.targetTag
  · omega
  · omega
  · omega
  · omega

theorem Pending.source_moved (laws : cheri.Laws)
    (pending : Pending cpu (n + 1)) :
    moveBy cheri (cpu.read c_rarg5) 16 =
      (cpu.read c_rarg5).withAddress ((cpu.read c_rarg5).address + 16) := by
  have lower := pending.sourceLower
  have upper := pending.sourceUpper
  have word := pending.sourceWord
  exact moveBy_eq laws (by omega) (by omega) (by omega) (by omega)

theorem Pending.target_moved (laws : cheri.Laws)
    (pending : Pending cpu (n + 1)) :
    moveBy cheri (cpu.read esp) (-16) =
      (cpu.read esp).withAddress ((cpu.read esp).address - 16) := by
  have lower := pending.targetLower
  have upper := pending.targetUpper
  have word := pending.targetWord
  exact moveBy_eq laws (by omega) (by omega) (by omega) (by omega)

theorem run_pushOne (laws : cheri.Laws) (pending : Pending cpu (n + 1)) :
    run cheri pushOne cpu = some (pushed cpu n) := by
  have gpr := Register.isGpr_c
  have first : (Code.emit (capLdrImm scratch c_rarg5 0)).exec cheri cpu = _ :=
    exec_capLdrImm_here cpu (gpr 8) (gpr 5) pending.source
  have counted : ∀ cpu' : Cpu, cpu'.read c_rarg6 = cpu.read c_rarg6 →
      (Code.stock (.subsW c_rarg6 c_rarg6 1)).exec cheri cpu' =
        some ((cpu'.writeX c_rarg6 n).setFlags (subFlags 32 (n + 1) 1)) := by
    intro cpu' same
    have less : (n + 1 + 2 ^ 32 - 1) % 2 ^ 32 = n := by
      have small := pending.small
      omega
    simp only [Code.exec, Instr.exec, same, pending.count, less]
  have cut : (16 : Int) % 4096 = 16 := rfl
  have sourceHere : ((cpu.write scratch
      (cpu.mem (cpu.read c_rarg5).address)).read c_rarg5) =
        cpu.read c_rarg5 := by simp
  have targetHere : ((((cpu.write scratch
      (cpu.mem (cpu.read c_rarg5).address)).write c_rarg5
        ((cpu.read c_rarg5).withAddress
          ((cpu.read c_rarg5).address + 16))).writeX c_rarg6 n).setFlags
            (subFlags 32 (n + 1) 1)).read esp = cpu.read esp := by
    simp [Cpu.writeX]
  have top : (popped cpu n).read esp =
      (cpu.read esp).withAddress ((cpu.read esp).address - 16) :=
    Cpu.read_write_self _ _ (by simp)
  have target := pending.target
  rw [← top] at target
  have last : (Code.emit (capStrImm scratch esp 0)).exec cheri
      (popped cpu n) = _ :=
    exec_capStrImm_here (popped cpu n) (gpr 8) (gpr 20) target
  have value : (popped cpu n).read scratch =
      cpu.mem (cpu.read c_rarg5).address := by
    simp [popped, Cpu.writeX]
  rw [top, value] at last
  rw [pushOne, run_cons first,
    run_cons (exec_capAddImm _ (by simp) (by simp) _), cut, sourceHere,
    pending.source_moved laws, run_cons (counted _ (by simp)),
    run_cons (exec_capSubImm _ (by simp) (by simp) _), cut, targetHere,
    pending.target_moved laws]
  exact run_cons last []

@[simp] theorem pushed_source (cpu : Cpu) (n : Nat) :
    (pushed cpu n).read c_rarg5 =
      (cpu.read c_rarg5).withAddress ((cpu.read c_rarg5).address + 16) := by
  simp [pushed, popped, Cpu.writeX]

@[simp] theorem pushed_count (cpu : Cpu) (n : Nat) :
    (pushed cpu n).read c_rarg6 = Cap.ofInt (n % addressSpace) := by
  simp [pushed, popped, Cpu.writeX]

@[simp] theorem pushed_esp (cpu : Cpu) (n : Nat) :
    (pushed cpu n).read esp =
      (cpu.read esp).withAddress ((cpu.read esp).address - 16) := by
  simp [pushed, popped, Cpu.writeX]

@[simp] theorem pushed_sp (cpu : Cpu) (n : Nat) :
    (pushed cpu n).read .sp = cpu.read .sp := by
  simp [pushed, popped, Cpu.writeX]

@[simp] theorem pushed_mem (cpu : Cpu) (n : Nat) :
    (pushed cpu n).mem =
      Function.update cpu.mem ((cpu.read esp).address - 16)
        (cpu.mem (cpu.read c_rarg5).address) := by
  simp [pushed, popped, Cpu.writeX]

theorem pushed_flags (cpu : Cpu) (n : Nat) :
    (pushed cpu n).flags = subFlags 32 (n + 1) 1 := by
  simp [pushed, popped, Cpu.setMem]

theorem Pending.pushed (pending : Pending cpu (n + 1)) :
    Pending (pushed cpu n) n := by
  obtain ⟨count, small, sourceTag, sourceLower, sourceUpper, sourceAligned,
    sourceWord, targetTag, targetLower, targetUpper, targetAligned,
    targetWord, apart⟩ := pending
  constructor <;> simp only [pushed_source, pushed_count, pushed_esp,
    Cap.withAddress, Cap.ofInt_address, addressSpace] at *
  · omega
  · omega
  · exact sourceTag
  · omega
  · omega
  · omega
  · omega
  · exact targetTag
  · omega
  · omega
  · omega
  · omega
  · omega

/-- What the loop leaves: the parameters in reverse order below the old `esp`,
and nothing else changed. -/
structure Pushed (cpu cpu' : Cpu) (n : Nat) : Prop where
  esp : cpu'.read esp =
    (cpu.read esp).withAddress ((cpu.read esp).address - 16 * n)
  slots : ∀ i, i < n → cpu'.mem ((cpu.read CallStub.esp).address - 16 * (i + 1)) =
    cpu.mem ((cpu.read c_rarg5).address + 16 * i)
  frame : ∀ a, a < (cpu.read CallStub.esp).address - 16 * n ∨
    (cpu.read CallStub.esp).address ≤ a → cpu'.mem a = cpu.mem a
  sp : cpu'.read .sp = cpu.read .sp

theorem Pushed.first (pending : Pending cpu (n + 1)) {cpu' : Cpu}
    (rest : Pushed (CallStub.pushed cpu n) cpu' n) : Pushed cpu cpu' (n + 1) := by
  have lower := pending.targetLower
  have apart := pending.apart
  obtain ⟨esp, slots, frame, sp⟩ := rest
  simp only [pushed_esp, pushed_source, pushed_mem, pushed_sp,
    Cap.withAddress] at esp slots frame sp
  constructor
  · rw [esp, Cap.withAddress]
    congr 1
    omega
  · intro i below
    cases i with
    | zero =>
        have top := frame ((cpu.read CallStub.esp).address - 16) (.inr (by omega))
        rw [Function.update_self] at top
        exact top
    | succ i =>
        have next := slots i (by omega)
        have place : (cpu.read CallStub.esp).address - 16 - 16 * (i + 1) =
            (cpu.read CallStub.esp).address - 16 * (i + 1 + 1) := by omega
        have origin : (cpu.read c_rarg5).address + 16 + 16 * i =
            (cpu.read c_rarg5).address + 16 * (i + 1) := by omega
        rw [place, origin, Function.update_of_ne (by omega)] at next
        exact next
  · intro a outside
    rw [frame a (by omega), Function.update_of_ne (by omega)]
  · exact sp

theorem pushLoop_succ {cpu' : Cpu} (ran : run cheri pushOne cpu = some cpu')
    (fuel : Nat) :
    pushLoop cheri (fuel + 1) cpu =
      if cpu'.flags.gt then
        (pushLoop cheri fuel cpu').map fun result => (result.1 + 1, result.2)
      else some (1, cpu') := by
  rw [pushLoop, ran, Option.bind_eq_bind, Option.bind_some]
  split
  · cases pushLoop cheri fuel cpu' <;> rfl
  · rfl

theorem pushLoop_spec (laws : cheri.Laws) :
    ∀ {n : Nat} {cpu : Cpu}, Pending cpu (n + 1) →
      ∃ cpu', (∀ fuel, n + 1 ≤ fuel →
          pushLoop cheri fuel cpu = some (n + 1, cpu')) ∧
        Pushed cpu cpu' (n + 1) := by
  intro n
  induction n with
  | zero =>
      intro cpu pending
      refine ⟨pushed cpu 0, ?_, Pushed.first pending ?_⟩
      · intro fuel enough
        obtain ⟨fuel, rfl⟩ := Nat.exists_eq_add_of_le' enough
        have stop : (pushed cpu 0).flags.gt = false := by
          rw [pushed_flags, subFlags_gt (by decide) (by decide)]
          rfl
        exact (pushLoop_succ (run_pushOne laws pending) fuel).trans
          (if_neg (by rw [stop]; decide))
      · constructor
        · simp [Cap.withAddress]
        · intro i below
          omega
        · intro a _
          rfl
        · rfl
  | succ n ih =>
      intro cpu pending
      obtain ⟨cpu', loops, rest⟩ := ih pending.pushed
      refine ⟨cpu', ?_, Pushed.first pending rest⟩
      intro fuel enough
      obtain ⟨fuel, rfl⟩ := Nat.exists_eq_add_of_le' enough
      have goOn : (pushed cpu (n + 1)).flags.gt = true := by
        rw [pushed_flags, subFlags_gt (by omega) pending.small]
        exact decide_eq_true (by omega)
      have next := loops (fuel + (n + 1)) (Nat.le_add_left _ _)
      have unrolled := pushLoop_succ (run_pushOne laws pending)
        (fuel + (n + 1))
      rw [if_pos goOn, next] at unrolled
      exact unrolled

end Loop

/-- With `esp` at `csp` the parameters could be pushed, and the stack has room
for them and for the rounding. -/
structure Ready (cpu : Cpu) (n : Nat) : Prop where
  pending : Pending (cpu.write esp (cpu.read .sp)) n
  room : 16 * n + 32 ≤ (cpu.read .sp).address

section Sequence

variable {cheri : Intrinsics} {cpu : Cpu} {n : Nat}

theorem Ready.stack (ready : Ready cpu n) :
    (cpu.read .sp).base ≤ (cpu.read .sp).address ∧
      (cpu.read .sp).address ≤ (cpu.read .sp).base + (cpu.read .sp).length ∧
      (cpu.read .sp).address < addressSpace := by
  have lower := ready.pending.targetLower
  have upper := ready.pending.targetUpper
  have word := ready.pending.targetWord
  rw [Cpu.read_write_self _ _ (by simp)] at lower upper word
  exact ⟨by omega, upper, word⟩

theorem Ready.count (ready : Ready cpu n) :
    (cpu.read c_rarg6).address % 2 ^ 32 = n := by
  have count := ready.pending.count
  rwa [Cpu.read_write_of_ne _ _ (by simp)] at count

theorem delta_le (n : Nat) : delta n ≤ 16 * n + 32 := by
  unfold delta
  omega

theorem run_delta (count : (cpu.read c_rarg6).address % 2 ^ 32 = n)
    (rest : List Code) :
    run cheri (.stock (.lslW scratch c_rarg6 3) ::
        .stock (.addX scratch scratch 31) ::
        .stock (.alignX scratch scratch 5) ::
        .stock (.negX scratch scratch) :: rest) cpu =
      run cheri rest (cpu.writeX scratch (addressSpace - delta n)) := by
  have product : (cpu.read c_rarg6).address * 2 ^ 3 % 2 ^ 32 =
      n * 8 % 2 ^ 32 := by omega
  have scaled : (Code.stock (.lslW scratch c_rarg6 3)).exec cheri cpu =
      some (cpu.writeX scratch (n * 8 % 2 ^ 32)) := by
    simp only [Code.exec, Instr.exec, product]
  have added : ∀ cpu' : Cpu, cpu'.read scratch = Cap.ofInt (n * 8 % 2 ^ 32) →
      (Code.stock (.addX scratch scratch 31)).exec cheri cpu' =
        some (cpu'.writeX scratch (n * 8 % 2 ^ 32 + 31)) := by
    intro cpu' here
    have sum : offsetBy (Cap.ofInt (n * 8 % 2 ^ 32)) 31 =
        n * 8 % 2 ^ 32 + 31 :=
      offsetBy_eq (by simp) (by rw [addressSpace]; omega)
    simp only [Code.exec, Instr.exec, here, sum]
  have rounded : ∀ cpu' : Cpu,
      cpu'.read scratch = Cap.ofInt (n * 8 % 2 ^ 32 + 31) →
      (Code.stock (.alignX scratch scratch 5)).exec cheri cpu' =
        some (cpu'.writeX scratch (delta n)) := by
    intro cpu' here
    simp only [Code.exec, Instr.exec, here]
    rfl
  have negated : ∀ cpu' : Cpu, cpu'.read scratch = Cap.ofInt (delta n) →
      (Code.stock (.negX scratch scratch)).exec cheri cpu' =
        some (cpu'.writeX scratch (addressSpace - delta n)) := by
    intro cpu' here
    simp only [Code.exec, Instr.exec, here]
    rfl
  have word : n * 8 % 2 ^ 32 + 31 < addressSpace ∧ delta n < addressSpace := by
    rw [addressSpace, delta]
    omega
  rw [run_cons scaled,
    run_cons (added _ (Cpu.read_writeX_self _ (by simp) (by omega))),
    run_cons (rounded _ (Cpu.read_writeX_self _ (by simp) word.1)),
    run_cons (negated _ (Cpu.read_writeX_self _ (by simp) word.2))]
  simp [Cpu.writeX]

theorem run_reserve (laws : cheri.Laws) (ready : Ready cpu n) :
    ∃ cpu', run cheri reserve cpu = some cpu' ∧
      cpu'.read esp = cpu.read .sp ∧
      (cpu'.read .sp).address = (cpu.read .sp).address - delta n ∧
      cpu'.read c_rarg5 = cpu.read c_rarg5 ∧
      cpu'.read c_rarg6 = cpu.read c_rarg6 ∧ cpu'.mem = cpu.mem := by
  obtain ⟨lower, upper, word⟩ := ready.stack
  have moved : ∀ cpu' : Cpu, (movRegister esp .sp).exec cheri cpu' =
      some (cpu'.write esp (moveBy cheri (cpu'.read .sp) 0)) := fun cpu' =>
    exec_emit_of_decode cpu' (i := .addImm esp .sp 0) (by decide)
  have lowered : ∀ cpu' : Cpu, (Code.emit (some (0xC2A06000 |||
      (scratch.encoding <<< 16) ||| (31 <<< 5) ||| 31))).exec cheri cpu' =
        some (cpu'.write .sp (moveBy cheri (cpu'.read .sp)
          (cpu'.read scratch).address)) := fun cpu' =>
    exec_emit_of_decode cpu' (i := .addReg .sp .sp scratch) (by decide)
  have same : moveBy cheri (cpu.read .sp) 0 = cpu.read .sp :=
    moveBy_zero laws word lower upper
  have small := delta_le n
  have room := ready.room
  have target : offsetBy (cpu.read .sp)
      (((addressSpace - delta n) % addressSpace : Nat) : Int) =
        (cpu.read .sp).address - delta n := by
    rw [addressSpace] at word
    rw [offsetBy, addressSpace]
    omega
  rw [reserve, run_cons (moved cpu), same,
    run_delta (by simpa using ready.count), run_cons (lowered _)]
  refine ⟨_, rfl, ?_⟩
  simpa [Cpu.writeX] using target

/-- The sequence copies all parameters and lowers `csp` by `delta n`. -/
theorem passParameters_spec (laws : cheri.Laws) (ready : Ready cpu n) :
    ∃ cpu', (∀ fuel, n ≤ fuel →
        passParameters cheri fuel cpu = some (n, cpu')) ∧
      cpu'.read esp = (cpu.read .sp).withAddress
        ((cpu.read .sp).address - 16 * n) ∧
      (∀ i, i < n → cpu'.mem ((cpu.read .sp).address - 16 * (i + 1)) =
        cpu.mem ((cpu.read c_rarg5).address + 16 * i)) ∧
      (cpu'.read .sp).address = (cpu.read .sp).address - delta n := by
  obtain ⟨reserved, ran, top, lowered, source, counter, mem⟩ :=
    run_reserve laws ready
  have count := ready.count
  rw [← counter] at count
  cases n with
  | zero =>
      refine ⟨reserved, ?_, ?_, ?_, lowered⟩
      · intro fuel _
        rw [passParameters, ran, Option.bind_eq_bind, Option.bind_some,
          if_pos count]
      · rw [top, Nat.mul_zero, Nat.sub_zero, Cap.withAddress]
      · intro i below
        omega
  | succ n =>
      have pending : Pending reserved (n + 1) := by
        obtain ⟨_, small, sourceTag, sourceLower, sourceUpper, sourceAligned,
          sourceWord, targetTag, targetLower, targetUpper, targetAligned,
          targetWord, apart⟩ := ready.pending
        simp only [Cpu.read_write_self _ _ (show esp ≠ .zr by simp),
          Cpu.read_write_of_ne _ _ (show c_rarg5 ≠ esp by simp), ← top,
          ← source] at *
        exact ⟨count, small, sourceTag, sourceLower, sourceUpper, sourceAligned,
          sourceWord, targetTag, targetLower, targetUpper, targetAligned,
          targetWord, apart⟩
      obtain ⟨cpu', loops, left⟩ := pushLoop_spec laws pending
      obtain ⟨espEnd, slots, _, sp⟩ := left
      rw [top] at espEnd slots
      rw [mem, source] at slots
      refine ⟨cpu', ?_, espEnd, slots, by rw [sp, lowered]⟩
      intro fuel enough
      rw [passParameters, ran, Option.bind_eq_bind, Option.bind_some,
        if_neg (by rw [count]; exact Nat.succ_ne_zero n), loops fuel enough]

/-- All parameters are passed, and `csp` is at or below the last of them. -/
def Passes (cheri : Intrinsics) (cpu : Cpu) (n : Nat) : Prop :=
  ∃ cpu', (∀ fuel, n ≤ fuel →
      passParameters cheri fuel cpu = some (n, cpu')) ∧
    cpu'.read esp = (cpu.read .sp).withAddress
      ((cpu.read .sp).address - 16 * n) ∧
    (∀ i, i < n → cpu'.mem ((cpu.read .sp).address - 16 * (i + 1)) =
      cpu.mem ((cpu.read c_rarg5).address + 16 * i)) ∧
    ((cpu'.read .sp).address ≤ (cpu.read .sp).address ∧
      32 ∣ (cpu.read .sp).address - (cpu'.read .sp).address) ∧
    (cpu'.read .sp).address ≤ (cpu'.read esp).address

/-- Eight bytes for each parameter, rounded up, cover sixteen for two only. -/
theorem covers_iff (n : Nat) : 16 * n ≤ delta n ↔ n ≤ 2 := by
  unfold delta
  omega

theorem dvd_delta (n : Nat) : 32 ∣ delta n := Nat.dvd_mul_left _ _

end Sequence

/-- The parameters are protected for at most two of them. -/
theorem passParameters_passes_iff {cheri : Intrinsics} (laws : cheri.Laws)
    {cpu : Cpu} {n : Nat} (ready : Ready cpu n) :
    Passes cheri cpu n ↔ n ≤ 2 := by
  obtain ⟨done, ran, top, slots, lowered⟩ := passParameters_spec laws ready
  have small := delta_le n
  have room := ready.room
  rw [← covers_iff]
  constructor
  · rintro ⟨cpu', ran', top', _, _, below⟩
    have same := (ran n (Nat.le_refl n)).symm.trans (ran' n (Nat.le_refl n))
    cases same
    rw [lowered, top] at below
    change _ ≤ (cpu.read .sp).address - 16 * n at below
    omega
  · intro covers
    refine ⟨done, ran, top, slots, ?_, ?_⟩
    · rw [lowered]
      refine ⟨Nat.sub_le _ _, ?_⟩
      rw [Nat.sub_sub_self (by omega)]
      exact dvd_delta n
    · rw [lowered, top, Cap.withAddress]
      exact Nat.sub_le_sub_left covers _

/-- A call with a stack of 64 KiB and a buffer at 1 MiB. -/
def sampleCall (n : Nat) : Cpu where
  reg := fun i =>
    if i = 5 then
      { tag := true
        base := 2 ^ 20
        length := 2 ^ 16
        address := 2 ^ 20
        perms := { swVmem := false, rest := 1 } }
    else if i = 6 then Cap.ofInt n
    else Cap.null
  csp :=
    { tag := true
      base := 0
      length := 2 ^ 16
      address := 2 ^ 16
      perms := { swVmem := false, rest := 1 } }
  mem := fun a => Cap.ofInt a
  data := fun _ => 0
  flags := ⟨false, false, false, false⟩

theorem sampleCall_ready {n : Nat} (small : n ≤ 8) : Ready (sampleCall n) n where
  pending := by
    constructor <;> simp [sampleCall, Cpu.read, Cpu.write, addressSpace] <;>
      omega
  room := by
    simp [sampleCall, Cpu.read]
    omega

theorem passParameters_passes_iff_two : Passes Intrinsics.exact (sampleCall 2) 2 :=
  (passParameters_passes_iff Intrinsics.exact_laws
    (sampleCall_ready (by decide))).mpr (by decide)

/-- With three parameters `csp` ends sixteen bytes above `esp`. -/
theorem passParameters_exposes :
    ((passParameters Intrinsics.exact 3 (sampleCall 3)).map fun result =>
        (result.1, (result.2.read .sp).address, (result.2.read esp).address)) =
        some (3, 2 ^ 16 - 32, 2 ^ 16 - 48) ∧
      Ready (sampleCall 3) 3 ∧ ¬ Passes Intrinsics.exact (sampleCall 3) 3 := by
  have ran : ((passParameters Intrinsics.exact 3 (sampleCall 3)).map
      fun result =>
        (result.1, (result.2.read .sp).address, (result.2.read esp).address)) =
      some (3, 2 ^ 16 - 32, 2 ^ 16 - 48) := by decide
  refine ⟨ran, sampleCall_ready (by decide), ?_⟩
  rintro ⟨cpu', returned, _, _, _, below⟩
  rw [returned 3 (Nat.le_refl 3), Option.map_some, Option.some.injEq,
    Prod.mk.injEq, Prod.mk.injEq] at ran
  rw [ran.2.1, ran.2.2] at below
  exact absurd below (by decide)

end CallStub

end Morello

end StoplessGC
