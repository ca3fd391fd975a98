import StoplessGC.MachineCode

/-!
# Fast-path allocation from a thread-local buffer

`BarrierSetAssembler::tlab_allocate`: load the top, add the size, compare with
the end, store the new top.  A constant size is added by `cap_add_imm`, which
keeps twelve bits of it; a size in a register is added whole.
-/

namespace StoplessGC

namespace Morello

abbrev rscratch1 : Register := .c 8
abbrev rthread : Register := .c 28

/-- The fields of `JavaThread` that hold the buffer. -/
structure TlabFields where
  tlabTop : FieldOffset
  tlabEnd : FieldOffset
  distinct : tlabTop.bytes ≠ tlabEnd.bytes

/-- `con_size_in_bytes` or `var_size_in_bytes`. -/
inductive TlabSize where
  | con (bytes : Nat)
  | var (r : Fin 31)
deriving DecidableEq, Repr

/-- A use of `tlab_allocate`.  Its result and its second temporary differ and
are not reserved, and the size is not in the result. -/
structure TlabSite where
  obj : Fin 31
  endReg : Fin 31
  size : TlabSize
  distinct : obj ≠ endReg
  objFree : obj ≠ 8 ∧ obj ≠ 28
  endFree : endReg ≠ 8 ∧ endReg ≠ 28
  sizeFree : size ≠ .var obj

namespace TlabSite

/-- The requested size. -/
def bytes (site : TlabSite) (cpu : Cpu) : Nat :=
  match site.size with
  | .con bytes => bytes
  | .var r => (cpu.read (.c r)).address

/-- The computation of the new top. -/
def bump (site : TlabSite) : Code :=
  match site.size with
  | .con bytes => .emit (capAddImm (.c site.endReg) (.c site.obj) bytes)
  | .var r => .emit (capAddReg (.c site.endReg) (.c site.obj) (.c r))

/-- The code up to the branch to the slow case. -/
def claim (fields : TlabFields) (site : TlabSite) : List Code :=
  [.emit (capLdrImm (.c site.obj) rthread fields.tlabTop.bytes),
    site.bump,
    .stock (.ldrX rscratch1 rthread fields.tlabEnd.bytes),
    .stock (.cmpX (.c site.endReg) rscratch1)]

/-- The code behind it, which recovers a size that was overwritten. -/
def update (fields : TlabFields) (site : TlabSite) : List Code :=
  [.emit (capStrImm (.c site.endReg) rthread fields.tlabTop.bytes)] ++
    if site.size = .var site.endReg then
      [.stock (.subX (.c site.endReg) (.c site.endReg) (.c site.obj))]
    else []

end TlabSite

/-- `tlab_allocate`; the flag says that it branches to the slow case. -/
def tlabAllocate (cheri : Intrinsics) (fields : TlabFields) (site : TlabSite)
    (cpu : Cpu) : Option (Bool × Cpu) := do
  let cpu ← run cheri (site.claim fields) cpu
  if cpu.flags.hi then some (true, cpu)
  else do
    let cpu ← run cheri (site.update fields) cpu
    some (false, cpu)

/-- The address of a field of the current thread. -/
def Cpu.threadField (cpu : Cpu) (field : FieldOffset) : Nat :=
  (cpu.read rthread).address + field.bytes

/-- A buffer from `top` to `finish` in the current thread. -/
structure Tlab (fields : TlabFields) (cpu : Cpu) (top : Cap) (finish : Nat) :
    Prop where
  topField : Accessible (cpu.read rthread) (cpu.threadField fields.tlabTop) 16
  endField : Accessible (cpu.read rthread) (cpu.threadField fields.tlabEnd) 16
  topWord : cpu.threadField fields.tlabTop < addressSpace
  endWord : cpu.threadField fields.tlabEnd < addressSpace
  holdsTop : cpu.mem (cpu.threadField fields.tlabTop) = top
  holdsEnd : (cpu.mem (cpu.threadField fields.tlabEnd)).address = finish
  tagged : top.tag = true
  lower : top.base ≤ top.address
  ordered : top.address ≤ finish
  upper : finish ≤ top.base + top.length
  word : finish < addressSpace

/-- What is added to the top: of a constant, the low twelve bits. -/
def TlabSite.added (site : TlabSite) (cpu : Cpu) : Nat :=
  match site.size with
  | .con bytes => bytes % 4096
  | .var r => (cpu.read (.c r)).address

section Spec

variable {cheri : Intrinsics} {fields : TlabFields} {cpu : Cpu} {top : Cap}
  {finish : Nat}

theorem Cpu.load_field {field : FieldOffset}
    (readable : Accessible (cpu.read rthread) (cpu.threadField field) 16)
    (word : cpu.threadField field < addressSpace) :
    cpu.load rthread field.bytes = some (cpu.mem (cpu.threadField field)) := by
  have here : offsetBy (cpu.read rthread) field.bytes =
      cpu.threadField field := offsetBy_eq (by simp [threadField]) word
  rw [load, here, loadAt, if_pos readable]

theorem subFlags_hi {a b : Nat} (wordA : a < addressSpace)
    (wordB : b < addressSpace) : (subFlags 64 a b).hi = decide (b < a) := by
  rw [addressSpace] at wordA wordB
  rw [Bool.eq_iff_iff]
  simp only [subFlags, Flags.hi, Bool.and_eq_true, Bool.not_eq_true',
    beq_eq_false_iff_ne, decide_eq_true_eq]
  omega

theorem TlabSite.bump_exec (site : TlabSite) (v : Cap) :
    site.bump.exec cheri (cpu.write (.c site.obj) v) =
      some ((cpu.write (.c site.obj) v).write (.c site.endReg)
        (moveBy cheri v (site.added cpu))) := by
  have gpr := Register.isGpr_c
  cases sized : site.size with
  | con bytes =>
      simp only [bump, added, sized]
      rw [exec_capAddImm _ (by simp) (by simp)]
      simp
  | var r =>
      have other : r ≠ site.obj := by
        intro same
        exact site.sizeFree (by rw [sized, same])
      simp only [bump, added, sized]
      rw [exec_capAddReg _ (gpr _) (gpr _) (gpr r)]
      simp [other]

/-- The state at the branch. -/
def TlabSite.claimed (cheri : Intrinsics) (site : TlabSite) (cpu : Cpu)
    (top : Cap) (finish : Nat) : Cpu :=
  (((cpu.write (.c site.obj) top).write (.c site.endReg)
      (moveBy cheri top (site.added cpu))).writeX rscratch1 finish).setFlags
    (subFlags 64 (offsetBy top (site.added cpu)) finish)

theorem TlabSite.run_claim (site : TlabSite)
    (tlab : Tlab fields cpu top finish) :
    run cheri (site.claim fields) cpu =
      some (site.claimed cheri cpu top finish) := by
  have loadTop := Cpu.load_field tlab.topField tlab.topWord
  rw [tlab.holdsTop] at loadTop
  have thread : ∀ v, ((cpu.write (.c site.obj) top).write (.c site.endReg)
      v).read rthread = cpu.read rthread := by
    intro v
    simp [site.objFree.2.symm, site.endFree.2.symm]
  have loadEnd : ∀ v, ((cpu.write (.c site.obj) top).write (.c site.endReg)
      v).load rthread fields.tlabEnd.bytes =
        some (cpu.mem (cpu.threadField fields.tlabEnd)) := by
    intro v
    rw [Cpu.load_congr (thread v) (by simp),
      Cpu.load_field tlab.endField tlab.endWord]
  have word := Nat.mod_eq_of_lt tlab.word
  rw [claim, run_cons (exec_loadField cpu (Register.isGpr_c _)
      (Register.isGpr_c _) loadTop), run_cons (site.bump_exec top)]
  simp [run, Code.exec, Instr.exec, loadEnd, tlab.holdsEnd, claimed,
    Cpu.writeX, word, site.endFree.1]

theorem TlabSite.run_update (site : TlabSite) (cheri : Intrinsics) {cpu' : Cpu}
    (thread : cpu'.read rthread = cpu.read rthread)
    (tlab : Tlab fields cpu top finish) :
    ∃ done, run cheri (site.update fields) cpu' = some done ∧
      done.mem = Function.update cpu'.mem (cpu.threadField fields.tlabTop)
        (cpu'.read (.c site.endReg)) ∧
      done.read (.c site.obj) = cpu'.read (.c site.obj) ∧
      done.read rthread = cpu.read rthread := by
  have here : offsetBy (cpu'.read rthread) fields.tlabTop.bytes =
      cpu.threadField fields.tlabTop := by
    rw [thread]
    exact offsetBy_eq (by simp [Cpu.threadField]) tlab.topWord
  have stored : cpu'.store rthread fields.tlabTop.bytes
      (cpu'.read (.c site.endReg)) =
        some (cpu'.setMem (cpu.threadField fields.tlabTop)
          (cpu'.read (.c site.endReg))) := by
    rw [Cpu.store, here, Cpu.storeAt, thread, if_pos tlab.topField]
  have first : (Code.emit (capStrImm (.c site.endReg) rthread
      fields.tlabTop.bytes)).exec cheri cpu' = _ :=
    exec_storeField cpu' (Register.isGpr_c site.endReg) (Register.isGpr_c 28)
      fields.tlabTop
  rw [stored] at first
  rw [update, List.singleton_append, run_cons first]
  split
  · -- the size was in the register that now holds the new top
    refine ⟨_, by simp only [run, Code.exec, Instr.exec]; rfl, ?_, ?_, ?_⟩
    · simp [Cpu.writeX]
    · simp [Cpu.writeX, site.distinct]
    · simp [Cpu.writeX, site.endFree.2.symm, thread]
  · exact ⟨_, rfl, rfl, by simp, by simp [thread]⟩

/-- What the fast path does with a buffer, by the size that it really adds. -/
theorem tlabAllocate_spec (laws : cheri.Laws) (site : TlabSite)
    (tlab : Tlab fields cpu top finish)
    (word : top.address + site.added cpu < addressSpace) :
    ∃ slow cpu', tlabAllocate cheri fields site cpu = some (slow, cpu') ∧
      cpu'.read rthread = cpu.read rthread ∧
      (slow = true ↔ finish < top.address + site.added cpu) ∧
      (slow = true → cpu'.mem = cpu.mem) ∧
      (slow = false → cpu'.read (.c site.obj) = top ∧
        cpu'.mem = Function.update cpu.mem (cpu.threadField fields.tlabTop)
          (top.withAddress (top.address + site.added cpu))) := by
  have sum : offsetBy top (site.added cpu) = top.address + site.added cpu :=
    offsetBy_eq (by omega) word
  have branch : (site.claimed cheri cpu top finish).flags.hi =
      decide (finish < top.address + site.added cpu) := by
    simp only [TlabSite.claimed, Cpu.setFlags_flags, sum,
      subFlags_hi word tlab.word]
  have thread : (site.claimed cheri cpu top finish).read rthread =
      cpu.read rthread := by
    simp [TlabSite.claimed, Cpu.writeX, site.objFree.2.symm,
      site.endFree.2.symm]
  have mem : (site.claimed cheri cpu top finish).mem = cpu.mem := by
    simp [TlabSite.claimed, Cpu.writeX]
  by_cases slow : finish < top.address + site.added cpu
  · refine ⟨true, site.claimed cheri cpu top finish, ?_, thread, by simp [slow],
      fun _ => mem, by simp⟩
    simp [tlabAllocate, site.run_claim tlab, branch, slow]
  · obtain ⟨done, ran, stored, obj, kept⟩ := site.run_update cheri thread tlab
    have next : moveBy cheri top (site.added cpu) =
        top.withAddress (top.address + site.added cpu) :=
      moveBy_eq laws (by omega) word (by have := tlab.lower; omega)
        (by have := tlab.upper; omega)
    refine ⟨false, done, ?_, kept, by simp [slow], by simp, ?_⟩
    · simp [tlabAllocate, site.run_claim tlab, branch, slow, ran]
    · intro _
      rw [stored, obj, mem]
      constructor
      · simp [TlabSite.claimed, Cpu.writeX, site.objFree.1, site.distinct]
      · simp [TlabSite.claimed, Cpu.writeX, site.endFree.1, next]

/-- The slow case exactly when the object does not fit, with the top left
alone; else the old top as the object, and the new top behind it. -/
def TlabSite.Exact (fields : TlabFields) (site : TlabSite) (cpu : Cpu)
    (top : Cap) (finish : Nat) (result : Option (Bool × Cpu)) : Prop :=
  ∃ slow cpu', result = some (slow, cpu') ∧
    (slow = true ↔ finish < top.address + site.bytes cpu) ∧
    (slow = true → cpu'.mem (cpu.threadField fields.tlabTop) = top) ∧
    (slow = false → cpu'.read (.c site.obj) = top ∧
      cpu'.mem (cpu.threadField fields.tlabTop) =
        top.withAddress (top.address + site.bytes cpu))

/-- The size is added whole, or what is added is too much already. -/
def TlabSite.Whole (site : TlabSite) (top : Cap) (finish : Nat) : Prop :=
  match site.size with
  | .con bytes => bytes < 4096 ∨ finish < top.address + bytes % 4096
  | .var _ => True

theorem TlabSite.added_le (site : TlabSite) (cpu : Cpu) :
    site.added cpu ≤ site.bytes cpu := by
  unfold added bytes
  split
  · exact Nat.mod_le _ _
  · exact Nat.le_refl _

theorem TlabSite.whole_iff (site : TlabSite) (cpu : Cpu) (top : Cap)
    (finish : Nat) :
    site.Whole top finish ↔
      site.added cpu = site.bytes cpu ∨
        finish < top.address + site.added cpu := by
  unfold Whole added bytes
  split <;> simp

theorem TlabSite.exact_iff (laws : cheri.Laws) (site : TlabSite)
    (tlab : Tlab fields cpu top finish)
    (word : top.address + site.bytes cpu < addressSpace) :
    site.Exact fields cpu top finish (tlabAllocate cheri fields site cpu) ↔
      site.Whole top finish := by
  have less := site.added_le cpu
  obtain ⟨slow, cpu', returned, _, branch, kept, moved⟩ :=
    tlabAllocate_spec laws site tlab (by omega)
  rw [returned, site.whole_iff cpu]
  constructor
  · rintro ⟨slow', cpu'', same, _, _, advanced⟩
    cases same
    cases slow with
    | true => exact .inr (branch.mp rfl)
    | false =>
        have added := (moved rfl).2
        have whole := (advanced rfl).2
        rw [added, Function.update_self] at whole
        have address := congrArg Cap.address whole
        simp only [Cap.withAddress] at address
        exact .inl (by omega)
  · rintro (whole | beyond)
    · rw [whole] at branch moved
      refine ⟨slow, cpu', rfl, branch, ?_, ?_⟩
      · intro isSlow
        rw [kept isSlow, tlab.holdsTop]
      · intro isFast
        obtain ⟨obj, stored⟩ := moved isFast
        refine ⟨obj, ?_⟩
        rw [stored, Function.update_self]
    · have isSlow := branch.mpr beyond
      refine ⟨slow, cpu', rfl, ⟨fun _ => by omega, fun _ => isSlow⟩, ?_, ?_⟩
      · intro _
        rw [kept isSlow, tlab.holdsTop]
      · intro isFast
        rw [isSlow] at isFast
        cases isFast

/-- Allocations from one buffer, each from any state of the machine in which
the buffer is where the last one left it. -/
inductive Allocations (cheri : Intrinsics) (fields : TlabFields) (first : Cap)
    (finish : Nat) : Cap → List (Cap × Nat) → Prop where
  | start : Allocations cheri fields first finish first []
  | call {top : Cap} {objs : List (Cap × Nat)} {site : TlabSite}
      {cpu cpu' : Cpu} {slow : Bool} :
      Allocations cheri fields first finish top objs →
      Tlab fields cpu top finish →
      top.address + site.bytes cpu < addressSpace →
      site.Whole top finish →
      tlabAllocate cheri fields site cpu = some (slow, cpu') →
      Allocations cheri fields first finish
        (cpu'.mem (cpu.threadField fields.tlabTop))
        (if slow then objs
          else objs ++ [(cpu'.read (.c site.obj), site.bytes cpu)])

/-- Objects lie one behind the other between the first top and the last. -/
structure Stacked (first top : Cap) (objs : List (Cap × Nat)) : Prop where
  ordered : first.address ≤ top.address
  separate : objs.Pairwise fun a b => a.1.address + a.2 ≤ b.1.address
  within : ∀ o, o ∈ objs → o.1.tag = true ∧ first.address ≤ o.1.address ∧
    o.1.address + o.2 ≤ top.address

theorem Stacked.push {first : Cap} {objs : List (Cap × Nat)}
    (stacked : Stacked first top objs) (tagged : top.tag = true) (bytes : Nat) :
    Stacked first (top.withAddress (top.address + bytes))
      (objs ++ [(top, bytes)]) where
  ordered := stacked.ordered.trans (Nat.le_add_right _ _)
  separate := by
    rw [List.pairwise_append]
    refine ⟨stacked.separate, List.pairwise_singleton _ _, ?_⟩
    intro o member last isLast
    rw [List.mem_singleton] at isLast
    subst isLast
    exact (stacked.within o member).2.2
  within := by
    intro o member
    rcases List.mem_append.mp member with old | new
    · obtain ⟨oTagged, lower, upper⟩ := stacked.within o old
      exact ⟨oTagged, lower, upper.trans (Nat.le_add_right _ _)⟩
    · rw [List.mem_singleton] at new
      subst new
      exact ⟨tagged, stacked.ordered, Nat.le_refl _⟩

theorem Allocations.stacked (laws : cheri.Laws) {first : Cap}
    {objs : List (Cap × Nat)}
    (run : Allocations cheri fields first finish top objs) :
    Stacked first top objs := by
  induction run with
  | start => exact ⟨Nat.le_refl _, .nil, fun o member => by cases member⟩
  | @call top objs site cpu cpu' slow _ tlab word whole returned ih =>
      obtain ⟨slow', cpu'', same, _, kept, moved⟩ :=
        (site.exact_iff laws tlab word).mpr whole
      rw [returned] at same
      cases same
      cases slow with
      | true =>
          rw [kept rfl]
          exact ih
      | false =>
          obtain ⟨obj, advanced⟩ := moved rfl
          rw [obj, advanced]
          exact ih.push tlab.tagged _

end Spec

/-- Single allocations are exact when the size is added whole, and then the
objects of a run are pairwise disjoint. -/
theorem tlabAllocate_exact_iff {cheri : Intrinsics} (laws : cheri.Laws)
    (fields : TlabFields) :
    (∀ (site : TlabSite) {cpu : Cpu} {top : Cap} {finish : Nat},
      Tlab fields cpu top finish →
      top.address + site.bytes cpu < addressSpace →
      (site.Exact fields cpu top finish (tlabAllocate cheri fields site cpu) ↔
        site.Whole top finish)) ∧
    ∀ {first top : Cap} {finish : Nat} {objs : List (Cap × Nat)},
      Allocations cheri fields first finish top objs →
        objs.Pairwise fun a b => a.1.address + a.2 ≤ b.1.address := by
  constructor
  · intro site cpu top finish tlab word
    exact site.exact_iff laws tlab word
  · intro first top finish objs run
    exact (run.stacked laws).separate

/-- A buffer of 64 KiB at 1 MiB, in a thread at 4 KiB. -/
def TlabFields.sample : TlabFields where
  tlabTop := ⟨256, rfl, by decide⟩
  tlabEnd := ⟨272, rfl, by decide⟩
  distinct := by decide

def sampleBuffer : Cap :=
  { tag := true
    base := 2 ^ 20
    length := 2 ^ 16
    address := 2 ^ 20
    perms := { swVmem := false, rest := 1 } }

def Cpu.sampleThread : Cpu where
  reg := fun i =>
    if i = 28 then
      { tag := true
        base := 4096
        length := 4096
        address := 4096
        perms := { swVmem := false, rest := 1 } }
    else Cap.null
  csp := Cap.null
  mem := fun a =>
    if a = 4352 then sampleBuffer
    else if a = 4368 then sampleBuffer.withAddress (2 ^ 20 + 2 ^ 16)
    else Cap.null
  data := fun _ => 0
  flags := ⟨false, false, false, false⟩

theorem sampleThread_tlab :
    Tlab TlabFields.sample Cpu.sampleThread sampleBuffer (2 ^ 20 + 2 ^ 16) where
  topField := by decide
  endField := by decide
  topWord := by decide
  endWord := by decide
  holdsTop := rfl
  holdsEnd := rfl
  tagged := rfl
  lower := by decide
  ordered := by decide
  upper := by decide
  word := by decide

/-- An allocation of a constant size into `c0` with `c1` as the temporary. -/
def TlabSite.sample (bytes : Nat) : TlabSite where
  obj := 0
  endReg := 1
  size := .con bytes
  distinct := by decide
  objFree := by decide
  endFree := by decide
  sizeFree := by simp

theorem tlabAllocate_exact_iff_sample :
    (TlabSite.sample 32).Exact TlabFields.sample Cpu.sampleThread sampleBuffer
      (2 ^ 20 + 2 ^ 16)
      (tlabAllocate Intrinsics.exact TlabFields.sample (TlabSite.sample 32)
        Cpu.sampleThread) := by
  refine ((tlabAllocate_exact_iff Intrinsics.exact_laws TlabFields.sample).1
    (TlabSite.sample 32) sampleThread_tlab ?_).mpr ?_
  · decide
  · exact .inl (by decide)

/-- An object of 4096 bytes leaves the top where it was. -/
theorem tlabAllocate_overlaps :
    (tlabAllocate Intrinsics.exact TlabFields.sample (TlabSite.sample 4096)
        Cpu.sampleThread).map (fun result =>
          (result.1, result.2.read (.c 0), result.2.mem 4352)) =
        some (false, sampleBuffer, sampleBuffer) ∧
      Tlab TlabFields.sample Cpu.sampleThread sampleBuffer
        (2 ^ 20 + 2 ^ 16) ∧
      ¬ (TlabSite.sample 4096).Exact TlabFields.sample Cpu.sampleThread
        sampleBuffer (2 ^ 20 + 2 ^ 16)
        (tlabAllocate Intrinsics.exact TlabFields.sample (TlabSite.sample 4096)
          Cpu.sampleThread) := by
  have ran : (tlabAllocate Intrinsics.exact TlabFields.sample
      (TlabSite.sample 4096) Cpu.sampleThread).map (fun result =>
        (result.1, result.2.read (.c 0), result.2.mem 4352)) =
      some (false, sampleBuffer, sampleBuffer) := by decide
  refine ⟨ran, sampleThread_tlab, ?_⟩
  rintro ⟨slow, cpu', returned, _, _, advanced⟩
  rw [returned, Option.map_some, Option.some.injEq, Prod.mk.injEq,
    Prod.mk.injEq] at ran
  obtain ⟨fast, _, kept⟩ := ran
  have moved : cpu'.mem 4352 = sampleBuffer.withAddress (2 ^ 20 + 4096) :=
    (advanced fast).2
  rw [kept] at moved
  exact absurd moved (by decide)

end Morello

end StoplessGC
