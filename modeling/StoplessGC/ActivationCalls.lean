import StoplessGC.ActivationSteps

/-!
# Calls from an activation and its entries

The VM and the callees leave the activation with its operands, and the code of
the entries for returns, deoptimisations, exceptions and popped frames makes it
run again.
-/

namespace StoplessGC

namespace Morello

namespace Activations

open Interpreter (OnStack Phase)
open FixedFrame StoredList

variable {world : World}

section Entries

variable {cheri : Intrinsics} {site : Site world} {phase phase' : Phase}
  {slots slots' : List Cap} {words words' : Nat → Cap} {cpu cpu' : Cpu}

theorem Holds.carries (here : phase ≠ .calling)
    (holds : Holds site slots' words cpu')
    (carries : Carries site phase slots words' cpu)
    (csp : cpu'.read .sp = cpu.read .sp) (esp : cpu'.read esp = cpu.read esp)
    (bottom : slot cpu' site.frame 0 = slot cpu site.frame 0)
    (method : cpu'.read rmethod = site.method) :
    Carries site phase slots' words cpu' := by
  apply Carries.intro here
  · exact sound_of_pointers (g := activation cpu' site.frame) carries.sound csp
      esp bottom rfl (fun calling => absurd calling here)
  · exact holds.kept
  · exact method
  · exact holds.stored
  · exact holds.bottom
  · exact holds.caller

theorem Holds.rest (holds : Holds site slots words cpu)
    (rest : Rest site (cpu.read esp).address cpu cpu') :
    Holds site slots words cpu' := by
  have csp := rest.pointer
  have top := rest.top
  have stored := rest.stored holds.stored (Nat.le_refl _) holds.bottom
  rw [List.map_id] at stored
  constructor
  · exact rest.kept holds.kept
  · exact rest.bottom ▸ holds.base
  · exact rest.bottom ▸ holds.entries
  · exact csp ▸ holds.pointer
  · exact top ▸ holds.onStack
  · exact csp ▸ top ▸ holds.below
  · exact holds.few
  · exact top ▸ stored
  · exact top ▸ rest.bottom ▸ holds.bottom
  · intro a lower upper
    rw [rest.caller a lower upper, holds.caller a lower upper]
    rfl

theorem Carries.rest (here : phase ≠ .calling)
    (carries : Carries site phase slots words cpu)
    (rest : Rest site (cpu.read esp).address cpu cpu') :
    Carries site phase slots words cpu' :=
  ((carries.holds here).rest rest).carries here carries rest.pointer rest.top
    rest.bottom rest.method

theorem Carries.restCalling
    (carries : Carries site .calling slots words cpu)
    (rest : Rest site (slot cpu site.frame 8).address cpu cpu')
    (lastSp : slot cpu' site.frame 8 = slot cpu site.frame 8) :
    Carries site .calling slots words cpu' := by
  obtain ⟨sound, kept, -, pointer, below, stored, bottom, caller⟩ := carries
  rw [top_calling] at below stored bottom
  have same := rest.stored stored (Nat.le_refl _) bottom
  rw [List.map_id] at same
  constructor
  · exact sound_of_pointers (g := activation cpu' site.frame) sound rest.pointer
      rest.top rest.bottom rfl (fun _ => lastSp)
  · exact rest.kept kept
  · exact fun other => absurd rfl other
  · exact rest.pointer ▸ pointer
  · rw [top_calling, lastSp, rest.pointer]
    exact below
  · rw [top_calling, lastSp]
    exact same
  · rw [top_calling, lastSp, rest.bottom]
    exact bottom
  · intro a lower upper
    rw [rest.caller a lower upper, caller a lower upper]
    rfl

theorem Holds.vmReturned (laws : cheri.Laws) (placed : site.Placed)
    (holds : Holds site slots words cpu) {relocate : Cap → Cap} {mid : Cpu}
    (returns : VmReturns site relocate cpu mid) :
    ∃ cpu', run cheri afterVm mid = some cpu' ∧
      cpu'.read rmethod = site.method ∧ cpu'.read .sp = cpu.read .sp ∧
      cpu'.read esp = cpu.read esp ∧
      slot cpu' site.frame 0 = slot cpu site.frame 0 ∧
      Holds site (slots.map relocate) (relocate ∘ words) cpu' := by
  have ran := run_afterVm laws placed (returns.kept holds.kept)
    (returns.pointer ▸ holds.pointer) holds.onStack returns.top
    (returns.pointer ▸ holds.below)
  refine ⟨_, ran, ?_⟩
  generalize final : ((((mid.write rmethod site.method).write rscratch1
    (mid.read .sp)).writeX rscratch2 _).write esp (cpu.read esp)) = cpu'
  have respects : Respects site relocate cpu cpu' := by
    rw [← final]
    exact (((returns.toRespects.write (by simp) _).write (by simp) _).write
      (by simp) _).write (by simp) _
  have mem : cpu'.mem = mid.mem := by
    rw [← final]
    simp [Cpu.writeX]
  have method : cpu'.read rmethod = site.method := by
    rw [← final]
    simp [Cpu.writeX]
  have csp : cpu'.read .sp = cpu.read .sp := by
    rw [← final, ← returns.pointer]
    simp [Cpu.writeX]
  have top : cpu'.read esp = cpu.read esp := by
    rw [← final]
    simp
  have bottom : slot cpu' site.frame 0 = slot cpu site.frame 0 := by
    rw [slot, mem]
    exact returns.bottom
  have stored := returns.stored holds.stored (Nat.le_refl _) holds.bottom
  refine ⟨method, csp, top, bottom, ?_⟩
  constructor
  · exact respects.kept holds.kept
  · exact bottom ▸ holds.base
  · exact bottom ▸ holds.entries
  · exact csp ▸ holds.pointer
  · exact top ▸ holds.onStack
  · exact csp ▸ top ▸ holds.below
  · rw [List.length_map]
    exact holds.few
  · rw [top, mem]
    exact stored
  · rw [top, bottom, List.length_map]
    exact holds.bottom
  · intro a lower upper
    rw [respects.caller a lower upper, holds.caller a lower upper]
    rfl

theorem Carries.vmReturned (laws : cheri.Laws) (placed : site.Placed)
    (here : phase ≠ .calling) (carries : Carries site phase slots words cpu)
    {relocate : Cap → Cap} {mid : Cpu}
    (returns : VmReturns site relocate cpu mid) :
    ∃ cpu', run cheri afterVm mid = some cpu' ∧
      Carries site phase (slots.map relocate) (relocate ∘ words) cpu' := by
  obtain ⟨cpu', ran, method, csp, top, bottom, holds⟩ :=
    (carries.holds here).vmReturned laws placed returns
  exact ⟨cpu', ran, holds.carries here carries csp top bottom method⟩

theorem Carries.prepared (laws : cheri.Laws) (placed : site.Placed)
    (carries : Carries site .running slots words cpu) :
    ∃ cpu', run cheri prepareToJump cpu = some cpu' ∧
      cpu'.read r13 = cpu.read .sp ∧
      (∀ r, r ≠ r13 → cpu'.read r = cpu.read r) ∧
      slot cpu' site.frame 8 = cpu.read esp ∧
      Leaves site (cpu.read esp).address id cpu cpu' := by
  have above := carries.bottom_le
  have frameAbove := placed.above
  have lower := placed.onStack.lower
  have ran : run cheri prepareToJump cpu = _ :=
    run_prepareToJump placed carries.kept
  rw [moveBy_zero_of_onStack laws carries.pointer] at ran
  refine ⟨_, ran, by simp, ?_, ?_, ?_⟩
  · intro r other
    rw [Cpu.read_setMem, Cpu.read_write_of_ne _ _ other]
  · rw [slot, Cpu.setMem_mem, Function.update_self]
  · refine ⟨(Respects.refl.write (by simp) _).setMem placed (by omega)
      (.inr rfl) _, ?_, ?_⟩
    · rw [slot, Cpu.setMem_mem, Function.update_of_ne (by omega),
        Cpu.write_mem, slot]
    · intro a _ below
      rw [Cpu.setMem_mem, Function.update_of_ne (by omega), Cpu.write_mem]
      rfl

theorem Carries.invoked (laws : cheri.Laws) (placed : site.Placed)
    (carries : Carries site .running slots words cpu) {args : Nat}
    (few : (cpu.read esp).address + 16 * args ≤
      (slot cpu site.frame 0).address) {relocate : Cap → Cap} {mid : Cpu}
    (prepared : run cheri prepareToJump cpu = some mid)
    (returns : CalleeReturns site args relocate mid cpu') :
    ∃ slots', args ≤ slots.length ∧ slots'.length = slots.length ∧
      slots'.drop args = (slots.drop args).map relocate ∧
      Carries site .calling slots' (relocate ∘ words) cpu' := by
  have here : Phase.running ≠ .calling := by simp
  have bottom := carries.bottom
  have stored := carries.stored
  have below := carries.below
  rw [top_of_ne here] at bottom stored below
  obtain ⟨mid', ran, -, same, saved, leaves⟩ :=
    carries.prepared laws placed
  obtain rfl := Option.some.inj (prepared.symm.trans ran)
  have top : mid.read esp = cpu.read esp := same esp (by simp)
  have lastSp : slot cpu' site.frame 8 = cpu.read esp :=
    returns.lastSp.trans saved
  have bottomSlot : slot cpu' site.frame 0 = slot cpu site.frame 0 :=
    returns.bottom.trans leaves.bottom
  have respects : Respects site relocate cpu cpu' :=
    leaves.toRespects.trans returns.toRespects
  have enough : args ≤ slots.length := by omega
  have others : Stored cpu'.mem 16 ((cpu.read esp).address + 16 * args)
      ((slots.drop args).map relocate) := by
    have before := leaves.stored stored (Nat.le_refl _) bottom
    rw [List.map_id] at before
    refine returns.stored (before.drop args) (by rw [top]) ?_
    rw [List.length_drop, leaves.bottom]
    omega
  obtain ⟨left, rfl, arguments⟩ :=
    exists_stored cpu'.mem 16 (cpu.read esp).address args
  refine ⟨left ++ (slots.drop left.length).map relocate, enough, ?_, ?_, ?_⟩
  · rw [List.length_append, List.length_map, List.length_drop]
    omega
  · rw [List.drop_left]
  · refine ⟨?_, respects.kept carries.kept, fun calling => absurd rfl calling,
      returns.pointer, ?_, ?_, ?_, ?_⟩
    · have sound := Interpreter.Step.sound laws carries.sound
        (.invoke (cpu'.read .sp) (cpu'.read esp) (activation cpu' site.frame).mem)
      exact sound_of_pointers (g := activation cpu' site.frame) sound rfl rfl
        bottomSlot rfl (fun _ => lastSp)
    · rw [top_calling, lastSp, ← top]
      exact returns.below
    · rw [top_calling, lastSp]
      exact arguments.append others
    · rw [top_calling, lastSp, bottomSlot, List.length_append, List.length_map,
        List.length_drop]
      omega
    · exact fun a lower upper => respects.callerWords carries lower upper

theorem Carries.tookEsp (placed : site.Placed)
    (carries : Carries site phase slots words cpu) {k : Nat}
    (onStack : OnStack world.stack (slot cpu site.frame k))
    (below : (cpu.read .sp).address ≤ (slot cpu site.frame k).address)
    (few : slots'.length ≤ site.code.maxStack)
    (stored : Stored cpu.mem 16 (slot cpu site.frame k).address slots')
    (bottom : (slot cpu site.frame k).address + 16 * slots'.length =
      (slot cpu site.frame 0).address) :
    Holds site slots' words (espTaken site k cpu) := by
  have above := carries.bottom_le
  have frameAbove := placed.above
  have respects : Respects site id cpu (espTaken site k cpu) :=
    espTaken_respects placed k
  have top : (espTaken site k cpu).read esp = _ := espTaken_esp k
  have csp : (espTaken site k cpu).read .sp = _ := espTaken_sp k
  have bottomSlot : slot (espTaken site k cpu) site.frame 0 = _ :=
    slot_espTaken k
  constructor
  · exact respects.kept carries.kept
  · exact bottomSlot ▸ carries.sound.bottom
  · exact bottomSlot ▸ carries.sound.entries
  · exact csp ▸ carries.pointer
  · exact top ▸ onStack
  · exact csp ▸ top ▸ below
  · exact few
  · rw [top]
    have kept := stored.update_outside (b := site.frame.address + 16 * 8)
      (.inr (by omega)) (by decide) (withLow (slot cpu site.frame 8) 0)
    simpa [espTaken] using kept
  · exact top ▸ bottomSlot ▸ bottom
  · exact fun a lower upper => respects.callerWords carries lower upper

theorem Carries.espRestored (placed : site.Placed)
    (carries : Carries site .calling slots words cpu) :
    Holds site slots words (espTaken site 8 cpu) := by
  have onStack := carries.onStack
  have below := carries.below
  have stored := carries.stored
  have bottom := carries.bottom
  rw [top_calling] at onStack below stored bottom
  exact carries.tookEsp placed onStack below carries.length_le stored bottom

theorem Carries.stackEmptied (placed : site.Placed)
    (carries : Carries site phase slots words cpu) :
    Holds site [] words (espTaken site 0 cpu) := by
  have below := carries.below
  have bottom := carries.bottom
  exact carries.tookEsp placed carries.sound.bottom (by omega)
    (Nat.zero_le _) .nil rfl

theorem Holds.dropped (holds : Holds site slots words cpu)
    (kept : Kept site cpu') (mem : cpu'.mem = cpu.mem)
    (csp : cpu'.read .sp = cpu.read .sp) {n : Nat} (few : n ≤ slots.length)
    (onStack : OnStack world.stack (cpu'.read esp))
    (address : (cpu'.read esp).address = (cpu.read esp).address + 16 * n) :
    Holds site (slots.drop n) words cpu' := by
  have below := holds.below
  have bottom := holds.bottom
  have deep := holds.few
  have bottomSlot : slot cpu' site.frame 0 = slot cpu site.frame 0 := by
    rw [slot, mem, slot]
  constructor
  · exact kept
  · exact bottomSlot ▸ holds.base
  · exact bottomSlot ▸ holds.entries
  · exact csp ▸ holds.pointer
  · exact onStack
  · rw [csp, address]
    omega
  · rw [List.length_drop]
    omega
  · rw [address, mem]
    exact holds.stored.drop n
  · rw [address, bottomSlot, List.length_drop]
    omega
  · exact mem ▸ holds.caller

theorem Holds.parametersPopped (laws : cheri.Laws)
    (holds : Holds site slots words cpu) {params : Nat}
    (number : cpu.read r1 = Cap.ofInt params)
    (few : params ≤ slots.length) (rest : List Code) :
    ∃ cpu', run cheri (popParameters ++ rest) cpu = run cheri rest cpu' ∧
      cpu'.read rmethod = cpu.read rmethod ∧
      slot cpu' site.frame 0 = slot cpu site.frame 0 ∧
      Holds site (slots.drop params) words cpu' := by
  have bottom := holds.bottom
  have upper := holds.base.upper
  have word := word_of_onStack holds.base
  obtain ⟨onStack, address⟩ := holds.onStack.add laws
    (Nat.dvd_mul_left Interpreter.wordSize params) (by
      change _ + params * 16 ≤ _
      omega)
  have ran := run_popParameters cheri number (by omega) rest
  refine ⟨_, ran, by simp [Cpu.writeX], by simp [Cpu.writeX], ?_⟩
  have counted : Kept site (cpu.writeX rscratch1 (params * 16)) :=
    holds.kept.write (by simp) _
  apply holds.dropped (n := params) (counted.write (by simp) _)
  · simp [Cpu.writeX]
  · simp [Cpu.writeX]
  · exact few
  · rw [Cpu.read_write_self _ _ (by simp)]
    exact onStack
  · rw [Cpu.read_write_self _ _ (by simp), Nat.mul_comm 16 params]
    exact address

theorem Holds.operand (holds : Holds site slots words cpu) :
    Interpreter.Operand world.stack site.code (activation cpu site.frame)
      (cpu.read esp) := by
  have bottom := holds.bottom
  refine ⟨holds.onStack, slots.length, holds.few, ?_⟩
  change _ + slots.length * 16 = (slot cpu site.frame 0).address
  omega

theorem Holds.rebuilt (laws : cheri.Laws) (placed : site.Placed)
    (holds : Holds site slots words cpu)
    (method : cpu.read rmethod = site.method) {extra : Nat}
    (enough : 2 ≤ extra) (small : extra ≤ 4)
    (room : world.stack.cap.base + Interpreter.stackDelta site.code extra ≤
      (slot cpu site.frame 0).address) :
    ∃ cpu', run cheri (rebuildCsp site.layout extra) cpu = some cpu' ∧
      Carries site .running slots words cpu' := by
  have here : Phase.running ≠ .calling := by simp
  have delta : Interpreter.stackDelta site.code extra < addressSpace := by
    have more : Interpreter.stackDelta site.code extra ≤
        Interpreter.stackDelta site.code 4 :=
      Nat.mul_le_mul_right _ (Nat.add_le_add_left small _)
    exact Nat.lt_of_le_of_lt more placed.deltaSmall
  refine ⟨_, run_rebuildCsp placed holds.kept method delta, ?_⟩
  have stopped : Interpreter.Sound world.stack site.code .calling
      { activation cpu site.frame with lastSp := cpu.read esp } :=
    { bottom := holds.base
      entries := holds.entries
      operands := by simp
      empty := by simp
      saved := fun _ => holds.operand
      pointer := by simp
      below := by simp }
  have sound := stopped.rebuilt laws enough room holds.operand Cap.null
  have mem : (cspRebuilt cheri site extra cpu).mem = cpu.mem := by
    simp [cspRebuilt, Cpu.writeX]
  have top : (cspRebuilt cheri site extra cpu).read esp =
      cpu.read esp := by
    simp [cspRebuilt, Cpu.writeX]
  have bottomSlot : slot (cspRebuilt cheri site extra cpu)
      site.frame 0 = slot cpu site.frame 0 := by
    rw [slot, mem, slot]
  apply Carries.intro here
  · refine sound_of_pointers (g := activation _ site.frame) sound ?_ top
      bottomSlot rfl (by simp)
    change Cpu.read _ .sp = Interpreter.capSub cheri (slot cpu site.frame 0) _
    simp [cspRebuilt]
  · exact ((holds.kept.write (by simp) _).write (by simp) _).write (by simp) _
  · rw [← method]
    simp [cspRebuilt, Cpu.writeX]
  · rw [top, mem]
    exact holds.stored
  · rw [top, bottomSlot]
    exact holds.bottom
  · exact mem ▸ holds.caller

theorem Carries.returned (cheri : Intrinsics) (placed : site.Placed)
    (carries : Carries site .calling slots words cpu) :
    ∃ cpu', run cheri restoreEsp cpu = some cpu' ∧
      slot cpu' site.frame 0 = slot cpu site.frame 0 ∧
      Holds site slots words cpu' :=
  ⟨_, run_restoreEsp placed carries.kept, by simp, carries.espRestored placed⟩

theorem Carries.returnEntry (laws : cheri.Laws) (placed : site.Placed)
    (carries : Carries site .calling slots words cpu)
    (room : world.stack.cap.base + Interpreter.stackDelta site.code 2 ≤
      (slot cpu site.frame 0).address) {params : Nat}
    (few : (slot cpu site.frame 8).address + 16 * params ≤
      (slot cpu site.frame 0).address) {mid mid' : Cpu}
    (ran : run cheri restoreEsp cpu = some mid)
    (rest : Rest site (mid.read esp).address mid mid')
    (number : mid'.read r1 = Cap.ofInt params) :
    ∃ cpu', run cheri (popParameters ++ rebuildCsp site.layout 2) mid' =
        some cpu' ∧ params ≤ slots.length ∧
      Carries site .running (slots.drop params) words cpu' := by
  have bottom := carries.bottom
  rw [top_calling] at bottom
  have enough : params ≤ slots.length := by omega
  obtain ⟨cpu₁, ran₁, bottom₁, holds⟩ := carries.returned cheri placed
  obtain rfl := Option.some.inj (ran.symm.trans ran₁)
  obtain ⟨cpu₂, popped, method₂, bottom₂, holds₂⟩ :=
    (holds.rest rest).parametersPopped laws number enough
      (rebuildCsp site.layout 2)
  have here : cpu₂.read rmethod = site.method := method₂.trans rest.method
  have same : slot cpu₂ site.frame 0 = slot cpu site.frame 0 := by
    rw [bottom₂, rest.bottom, bottom₁]
  obtain ⟨cpu', rebuilt, done⟩ := holds₂.rebuilt laws placed here
    (Nat.le_refl 2) (by decide) (same ▸ room)
  exact ⟨cpu', popped.trans rebuilt, enough, done⟩

theorem Carries.popFrameEntry (laws : cheri.Laws) (placed : site.Placed)
    (carries : Carries site .calling slots words cpu)
    (room : world.stack.cap.base + Interpreter.stackDelta site.code 4 ≤
      (slot cpu site.frame 0).address) {mid mid' : Cpu}
    (ran : run cheri restoreEsp cpu = some mid)
    (rest : Rest site (mid.read esp).address mid mid') :
    ∃ cpu', run cheri (rebuildCsp site.layout 4) mid' = some cpu' ∧
      Carries site .running slots words cpu' := by
  obtain ⟨cpu₁, ran₁, bottom, holds⟩ := carries.returned cheri placed
  obtain rfl := Option.some.inj (ran.symm.trans ran₁)
  have same : slot mid' site.frame 0 = slot cpu site.frame 0 :=
    rest.bottom.trans bottom
  exact (holds.rest rest).rebuilt laws placed rest.method (by decide)
    (Nat.le_refl 4) (same ▸ room)

/-- Here `csp` is rebuilt before `esp` is restored. -/
theorem Carries.deoptEntry (laws : cheri.Laws) (placed : site.Placed)
    (carries : Carries site .calling slots words cpu)
    (room : world.stack.cap.base + Interpreter.stackDelta site.code 2 ≤
      (slot cpu site.frame 0).address)
    (method : cpu.read rmethod = site.method) :
    ∃ cpu', run cheri (rebuildCsp site.layout 2 ++ restoreEsp) cpu =
        some cpu' ∧ Carries site .running slots words cpu' := by
  have here : Phase.running ≠ .calling := by simp
  have small : Interpreter.stackDelta site.code 2 < addressSpace :=
    Nat.lt_of_le_of_lt (Nat.mul_le_mul_right _ (Nat.add_le_add_left
      (by decide) _)) placed.deltaSmall
  have rebuilt : run cheri (rebuildCsp site.layout 2) cpu = _ :=
    run_rebuildCsp placed carries.kept method small
  have kept : Kept site (cspRebuilt cheri site 2 cpu) :=
    ((carries.kept.write (by simp) _).write (by simp) _).write (by simp) _
  have ran : run cheri (rebuildCsp site.layout 2 ++ restoreEsp) cpu =
      some (espTaken site 8 (cspRebuilt cheri site 2 cpu)) := by
    rw [run_append, rebuilt, Option.bind_some, run_restoreEsp placed kept]
  refine ⟨_, ran, ?_⟩
  -- the operands and memory are as if `esp` alone had been restored
  have holds := carries.espRestored placed
  have sound := Interpreter.Step.sound laws carries.sound (.deoptEntry room)
  generalize final : espTaken site 8 (cspRebuilt cheri site 2 cpu) = cpu'
  have mem : cpu'.mem = (espTaken site 8 cpu).mem := by
    rw [← final]
    simp [espTaken, cspRebuilt, Cpu.writeX]
  have top : cpu'.read esp = (espTaken site 8 cpu).read esp := by
    rw [← final]
    simp [espTaken, cspRebuilt, Cpu.writeX]
  have bottomSlot : slot cpu' site.frame 0 =
      slot (espTaken site 8 cpu) site.frame 0 := by
    rw [slot, mem, slot]
  apply Carries.intro here
  · refine sound_of_pointers (g := activation cpu' site.frame) sound ?_ ?_ ?_
      rfl (by simp)
    · change cpu'.read .sp = Interpreter.capSub cheri (slot cpu site.frame 0) _
      rw [← final]
      simp [espTaken, cspRebuilt]
    · exact top.trans (espTaken_esp 8)
    · exact bottomSlot.trans (slot_espTaken 8)
  · rw [← final]
    exact (espTaken_respects placed 8).kept kept
  · rw [← final, ← method]
    simp [espTaken, cspRebuilt, Cpu.writeX]
  · rw [top, mem]
    exact holds.stored
  · rw [top, bottomSlot]
    exact holds.bottom
  · exact mem ▸ holds.caller

theorem Carries.exceptionEntry (laws : cheri.Laws) (placed : site.Placed)
    (carries : Carries site phase slots words cpu)
    (room : world.stack.cap.base + Interpreter.stackDelta site.code 4 ≤
      (slot cpu site.frame 0).address) {relocate : Cap → Cap} {mid mid' : Cpu}
    (ran : run cheri emptyExpressionStack cpu = some mid)
    (returns : VmReturns site relocate mid mid') :
    ∃ cpu', run cheri (afterVm ++ rebuildCsp site.layout 4) mid' = some cpu' ∧
      Carries site .running [] (relocate ∘ words) cpu' := by
  obtain rfl := Option.some.inj
    (ran.symm.trans (run_emptyExpressionStack placed carries.kept))
  obtain ⟨cpu₁, returned, method, -, -, bottom, holds⟩ :=
    (carries.stackEmptied placed).vmReturned laws placed returns
  rw [slot_espTaken] at bottom
  obtain ⟨cpu', rebuilt, done⟩ := holds.rebuilt laws placed method (by decide)
    (Nat.le_refl 4) (bottom ▸ room)
  refine ⟨cpu', ?_, done⟩
  rw [run_append, returned, Option.bind_some, rebuilt]

end Entries

end Activations

end Morello

end StoplessGC
