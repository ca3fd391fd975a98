import StoplessGC.ActivationCalls

/-!
# Runs of an activation

Over every run the expression stack holds what the bytecodes make of it, no
piece of emitted code faults, and the callers get their part of the stack back.
This is also what an activation expects of its own callees.
-/

namespace StoplessGC

namespace Morello

namespace Activations

open Interpreter (OnStack Phase)
open FixedFrame StoredList

variable {world : World}

section Runs

variable {cheri : Intrinsics} {site : Site world} {phase phase' : Phase}
  {slots : List Cap} {words : Nat → Cap} {cpu cpu' : Cpu} {op : Op}

/-- A step of the machine is a step of the list. -/
theorem Carries.step (laws : cheri.Laws) (placed : site.Placed)
    (carries : Carries site phase slots words cpu)
    (step : Step cheri site phase cpu op phase' cpu') :
    ∃ slots', SlotStep site.code.maxStack phase slots op phase' slots' ∧
      Carries site phase' slots' (op.relocate ∘ words) cpu' := by
  cases step with
  | lockMethod fits ran =>
      obtain ⟨_, ran', rfl, done⟩ := carries.methodLocked laws placed fits
      obtain rfl := Option.some.inj (ran.symm.trans ran')
      exact ⟨[], .lockMethod, done⟩
  | start => exact ⟨slots, .start, carries.start⟩
  | push r gpr other room ran =>
      obtain ⟨_, ran', done⟩ := carries.push laws placed gpr other room
      obtain rfl := Option.some.inj (ran.symm.trans ran')
      exact ⟨_, .push _ (Nat.lt_of_succ_le done.length_le), done⟩
  | pop r gpr other more ran =>
      obtain ⟨_, rest, ran', rfl, done⟩ :=
        carries.pop laws placed gpr other more
      obtain rfl := Option.some.inj (ran.symm.trans ran')
      exact ⟨rest, .pop _, done⟩
  | shuffle b deep roomy ran =>
      obtain ⟨_, slots', ran', prescribed, few, done⟩ :=
        carries.shuffle laws placed deep roomy
      obtain rfl := Option.some.inj (ran.symm.trans ran')
      exact ⟨slots', .shuffle b prescribed few, done⟩
  | freeEntry onStack lower upper ran =>
      obtain ⟨_, ran', done⟩ :=
        carries.objectStored placed onStack lower upper
      obtain rfl := Option.some.inj (ran.symm.trans ran')
      exact ⟨slots, .monitorenter, done⟩
  | @newEntry _ _ _ _ fuel fits grown ran =>
      obtain ⟨_, grown', done, onStack, lower, upper⟩ :=
        carries.monitorsGrown laws placed fits
      have enough : slots.length < fuel + (slots.length + 1) := by omega
      obtain ⟨-, rfl⟩ := Prod.mk.inj (Option.some.inj
        ((growMonitors_mono grown _).symm.trans (grown' _ enough)))
      obtain ⟨_, ran', done'⟩ :=
        done.objectStored placed onStack (Nat.le_of_eq lower) upper
      obtain rfl := Option.some.inj (ran.symm.trans ran')
      exact ⟨slots, .monitorenter, done'⟩
  | rest here rest => exact ⟨slots, .other here, carries.rest here rest⟩
  | callVm here returns ran =>
      obtain ⟨_, ran', done⟩ := carries.vmReturned laws placed here returns
      obtain rfl := Option.some.inj (ran.symm.trans ran')
      exact ⟨_, .callVm _ here, done⟩
  | invoke few ran returns =>
      obtain ⟨slots', enough, length, others, done⟩ :=
        carries.invoked laws placed few ran returns
      exact ⟨slots', .invoke _ _ enough length others, done⟩
  | returnEntry room few ran rest number ran₂ =>
      obtain ⟨_, ran', enough, done⟩ :=
        carries.returnEntry laws placed room few ran rest number
      obtain rfl := Option.some.inj (ran₂.symm.trans ran')
      exact ⟨_, .returnEntry _ enough, done⟩
  | deoptEntry room rest lastSp ran =>
      obtain ⟨_, ran', done⟩ := (carries.restCalling rest lastSp).deoptEntry
        laws placed (rest.bottom ▸ room) rest.method
      obtain rfl := Option.some.inj (ran.symm.trans ran')
      exact ⟨slots, .deoptEntry, done⟩
  | exceptionEntry room ran returns ran₂ =>
      obtain ⟨_, ran', done⟩ :=
        carries.exceptionEntry laws placed room ran returns
      obtain rfl := Option.some.inj (ran₂.symm.trans ran')
      exact ⟨[], .exceptionEntry _, done⟩
  | popFrameEntry room ran rest ran₂ =>
      obtain ⟨_, ran', done⟩ :=
        carries.popFrameEntry laws placed room ran rest
      obtain rfl := Option.some.inj (ran₂.symm.trans ran')
      exact ⟨slots, .popFrameEntry, done⟩

variable {code : Interpreter.Code} {layout : Layout} {found : Found}
  {callerStart : Nat} {origin : Cpu} {ops : List Op}

theorem Enters.carries (laws : cheri.Laws)
    (enters : Enters world code layout found callerStart origin)
    {mdp : Option Cap}
    (ran : generateFixedFrame cheri layout false mdp origin = some cpu) :
    Carries (Site.entered world code layout found callerStart origin) .entered
      [] origin.mem cpu := by
  obtain ⟨ready, placed, onStack, room, metadata, data⟩ := enters
  have maxStack : code.maxStack = FixedFrame.maxStack layout found origin := by
    rw [FixedFrame.maxStack, data]
    exact placed.count.symm
  obtain ⟨_, ran', starts⟩ := generateFixedFrame_starts laws ready mdp maxStack
    placed.monitorSize.symm onStack room
  obtain rfl := Option.some.inj (ran.symm.trans ran')
  have entered := generateFixedFrame_enters laws ready ran
  have above := placed.above
  have inside := placed.inside
  have lower := placed.onStack.lower
  change (frame false origin).address + 16 * 12 ≤ callerStart at above
  change world.stack.cap.base ≤ (frame false origin).address at lower
  change callerStart ≤ world.top at inside
  rw [World.top] at inside
  apply Carries.intro (by simp)
  · exact starts.sound laws
  · refine ⟨entered.rfp, ?_, entered.data.trans data, ?_⟩
    · intro a v present
      have outside := world.outside a v present
      rw [entered.outside a (by omega), metadata a v present]
    · intro k _ _ upper
      exact entered.slots k upper
  · exact entered.method
  · exact .nil
  · have bottom : slot cpu (frame false origin) 0 = frame false origin :=
      entered.slots 0 (by decide)
    change (cpu.read esp).address + 0 = (slot cpu (frame false origin) 0).address
    rw [entered.esp, bottom, Nat.add_zero]
  · intro a far _
    change callerStart ≤ a at far
    exact entered.outside a (.inr (by omega))

theorem Run.carries (laws : cheri.Laws)
    (enters : Enters world code layout found callerStart origin)
    (run : Run cheri
      (Site.entered world code layout found callerStart origin) origin ops
      phase cpu) :
    ∃ slots, SlotRun code.maxStack ops phase slots ∧
      Carries (Site.entered world code layout found callerStart origin) phase
        slots (fun a => relocated ops (origin.mem a)) cpu := by
  induction run with
  | begin ran => exact ⟨[], .begin, enters.carries laws ran⟩
  | step _ last ih =>
      obtain ⟨slots, before, carries⟩ := ih
      obtain ⟨slots', step, carries'⟩ := carries.step laws enters.placed last
      exact ⟨slots', before.step step, carries'⟩

/-- Over every run the expression stack holds what the bytecodes make of it, its
pointers are capabilities for the stack with `csp` far enough below, and the
words of the callers are what they were, up to the collections in between. -/
theorem activation_operands (laws : cheri.Laws)
    (enters : Enters world code layout found callerStart origin)
    (run : Run cheri
      (Site.entered world code layout found callerStart origin) origin ops
      phase cpu) :
    let site := Site.entered world code layout found callerStart origin
    ∃ slots, SlotRun code.maxStack ops phase slots ∧
      Stored cpu.mem 16 (top site phase cpu).address slots ∧
      (top site phase cpu).address + 16 * slots.length =
        (slot cpu site.frame 0).address ∧
      OnStack world.stack (top site phase cpu) ∧
      OnStack world.stack (cpu.read .sp) ∧
      (phase ≠ .calling → (cpu.read .sp).address +
        Interpreter.stackDelta code 2 ≤ (slot cpu site.frame 0).address) ∧
      cpu.read rfp = site.fp ∧
      ∀ a, callerStart ≤ a → a < world.top →
        cpu.mem a = relocated ops (origin.mem a) := by
  obtain ⟨slots, before, carries⟩ := run.carries laws enters
  exact ⟨slots, before, carries.stored, carries.bottom, carries.onStack,
    carries.pointer, carries.sound.below, carries.kept.framePointer,
    carries.caller⟩

theorem Carries.completes (laws : cheri.Laws) (placed : site.Placed)
    (carries : Carries site phase slots words cpu) :
    Completes cheri site phase cpu := by
  constructor
  · rintro rfl fits
    obtain ⟨cpu', ran, -⟩ := carries.methodLocked laws placed fits
    exact ⟨cpu', ran⟩
  · rintro rfl r gpr other room
    obtain ⟨cpu', ran, -⟩ := carries.push laws placed gpr other room
    exact ⟨cpu', ran⟩
  · rintro rfl r gpr other more
    obtain ⟨cpu', -, ran, -⟩ := carries.pop laws placed gpr other more
    exact ⟨cpu', ran⟩
  · rintro rfl b deep roomy
    obtain ⟨cpu', -, ran, -⟩ := carries.shuffle laws placed deep roomy
    exact ⟨cpu', ran⟩
  · rintro rfl onStack lower upper
    obtain ⟨cpu', ran, -⟩ := carries.objectStored placed onStack lower upper
    exact ⟨cpu', ran⟩
  · rintro rfl fits
    obtain ⟨mid, grown, done, onStack, lower, upper⟩ :=
      carries.monitorsGrown laws placed fits
    obtain ⟨cpu', ran, -⟩ :=
      done.objectStored placed onStack (Nat.le_of_eq lower) upper
    exact ⟨_, mid, cpu', grown, ran⟩
  · intro here relocate mid returns
    obtain ⟨cpu', ran, -⟩ := carries.vmReturned laws placed here returns
    exact ⟨cpu', ran⟩
  · rintro rfl
    obtain ⟨mid, ran, -⟩ := carries.prepared laws placed
    exact ⟨mid, ran⟩
  · rintro rfl room
    obtain ⟨mid, ran, -⟩ := carries.returned cheri placed
    refine ⟨mid, ran, ?_⟩
    intro mid' params rest number few
    obtain ⟨cpu', popped, -⟩ :=
      carries.returnEntry laws placed room few ran rest number
    exact ⟨cpu', popped⟩
  · rintro rfl room mid rest lastSp
    obtain ⟨cpu', ran, -⟩ := (carries.restCalling rest lastSp).deoptEntry laws
      placed (rest.bottom ▸ room) rest.method
    exact ⟨cpu', ran⟩
  · intro room
    have ran : run cheri emptyExpressionStack cpu = _ :=
      run_emptyExpressionStack placed carries.kept
    refine ⟨_, ran, ?_⟩
    intro relocate mid' returns
    obtain ⟨cpu', handled, -⟩ :=
      carries.exceptionEntry laws placed room ran returns
    exact ⟨cpu', handled⟩
  · rintro rfl room
    obtain ⟨mid, ran, -⟩ := carries.returned cheri placed
    refine ⟨mid, ran, ?_⟩
    intro mid' rest
    obtain ⟨cpu', rebuilt, -⟩ :=
      carries.popFrameEntry laws placed room ran rest
    exact ⟨cpu', rebuilt⟩
  · intro sender
    obtain ⟨cpu', ran, -⟩ :=
      run_removeActivation laws placed carries.kept sender
    exact ⟨cpu', ran⟩

/-- In no state of a run does one of the pieces of emitted code fault. -/
theorem activation_completes (laws : cheri.Laws)
    (enters : Enters world code layout found callerStart origin)
    (run : Run cheri
      (Site.entered world code layout found callerStart origin) origin ops
      phase cpu) :
    Completes cheri (Site.entered world code layout found callerStart origin)
      phase cpu := by
  obtain ⟨slots, -, carries⟩ := run.carries laws enters
  exact carries.completes laws enters.placed

/-- What the callee leaves of its caller. -/
theorem Carries.removed (laws : cheri.Laws) (placed : site.Placed)
    (carries : Carries site .running slots words cpu) {args : Nat}
    (few : (cpu.read esp).address + 16 * args ≤
      (slot cpu site.frame 0).address) {mid : Cpu}
    (prepared : run cheri prepareToJump cpu = some mid)
    (jumps : Jumps world ((cpu.read esp).address + 16 * args) mid origin)
    (enters : Enters world code layout found
      ((cpu.read esp).address + 16 * args) origin) {last : Cpu}
    {slots' : List Cap}
    (callee : Carries (Site.entered world code layout found
      ((cpu.read esp).address + 16 * args) origin) phase slots'
        (fun a => relocated ops (origin.mem a)) last)
    (removed : removeActivation cheri last = some cpu')
    (unmoved : ∀ k, k = 0 ∨ 7 ≤ k → k < 12 →
      relocated ops (slot mid site.frame k) = slot mid site.frame k) :
    cpu'.read rfp = cpu.read rfp ∧ cpu'.read .sp = cpu.read .sp ∧
      (∀ a, (cpu.read esp).address + 16 * args ≤ a → a < world.top →
        cpu'.mem a = relocated ops (mid.mem a)) ∧
      CalleeReturns site args (relocated ops) mid cpu' := by
  have above := carries.bottom_le
  have frameAbove := placed.above
  have inside := placed.inside
  have below := (carries.holds (by simp)).below
  obtain ⟨mid', ran, sender, same, saved, leaves⟩ :=
    carries.prepared laws placed
  obtain rfl := Option.some.inj (prepared.symm.trans ran)
  have top : mid.read esp = cpu.read esp := same esp (by simp)
  have kept := leaves.kept carries.kept
  have senderSp : (Site.entered world code layout found
      ((cpu.read esp).address + 16 * args) origin).fixed 9 = cpu.read .sp := by
    change origin.read r13 = cpu.read .sp
    rw [jumps.sender, sender]
  obtain ⟨cpu₁, ran₁, mem, data, -, sp, rfp, -⟩ := run_removeActivation laws
    enters.placed callee.kept (senderSp ▸ carries.pointer)
  obtain rfl := Option.some.inj (removed.symm.trans ran₁)
  have words : ∀ a, (cpu.read esp).address + 16 * args ≤ a → a < world.top →
      cpu'.mem a = relocated ops (mid.mem a) := by
    intro a lower upper
    rw [mem, callee.caller a lower upper, jumps.caller a lower upper]
  have slots : ∀ k, k = 0 ∨ 7 ≤ k → k < 12 →
      slot cpu' site.frame k = slot mid site.frame k := by
    intro k which upper
    rw [slot, words _ (by omega) (by omega)]
    exact unmoved k which upper
  have framePointer : cpu'.read FixedFrame.rfp = mid.read FixedFrame.rfp :=
    rfp.trans jumps.framePointer
  refine ⟨framePointer.trans leaves.framePointer, sp.trans senderSp, words,
    ⟨⟨⟨?_, ?_, ?_, ?_, ?_⟩, ?_, ?_⟩, ?_, ?_, ?_⟩⟩
  · exact framePointer
  · intro a v present
    rw [mem, callee.kept.metadata a v present, kept.metadata a v present]
  · rw [data, callee.kept.data, kept.data]
  · exact fun k lower _ upper => slots k (.inr lower) upper
  · exact fun a lower upper => words a (by omega) upper
  · exact slots 0 (.inl rfl) (by decide)
  · intro a lower upper
    rw [leaves.bottom] at upper
    rw [top] at lower
    exact words a lower (by omega)
  · exact slots 8 (.inr (by decide)) (by decide)
  · rw [sp, senderSp]
    exact carries.pointer
  · rw [sp, senderSp, top]
    exact below

/-- A callee that runs from its prologue to the removal of its activation gives
its caller `rfp` and `csp` back, and has changed no operand below its arguments
and nothing above but for collections: it is a step of the caller. -/
theorem activation_returns (laws : cheri.Laws)
    {callerCode : Interpreter.Code} {callerLayout : Layout}
    {callerFound : Found} {callersStart : Nat} {callerOrigin : Cpu}
    {callerOps : List Op}
    (callerEnters : Enters world callerCode callerLayout callerFound
      callersStart callerOrigin)
    (callerRun : Run cheri (Site.entered world callerCode callerLayout
      callerFound callersStart callerOrigin) callerOrigin callerOps .running
        cpu) {args : Nat}
    (few : (cpu.read esp).address + 16 * args ≤
      (slot cpu (frame false callerOrigin) 0).address) {mid : Cpu}
    (prepared : run cheri prepareToJump cpu = some mid)
    (jumps : Jumps world ((cpu.read esp).address + 16 * args) mid origin)
    (enters : Enters world code layout found
      ((cpu.read esp).address + 16 * args) origin) {last : Cpu}
    (calleeRun : Run cheri (Site.entered world code layout found
      ((cpu.read esp).address + 16 * args) origin) origin ops phase last)
    (removed : removeActivation cheri last = some cpu')
    (unmoved : ∀ k, k = 0 ∨ 7 ≤ k → k < 12 →
      relocated ops (slot mid (frame false callerOrigin) k) =
        slot mid (frame false callerOrigin) k) :
    cpu'.read rfp = cpu.read rfp ∧ cpu'.read .sp = cpu.read .sp ∧
      (∀ a, (cpu.read esp).address + 16 * args ≤ a → a < world.top →
        cpu'.mem a = relocated ops (mid.mem a)) ∧
      Run cheri (Site.entered world callerCode callerLayout callerFound
        callersStart callerOrigin) callerOrigin
          (.invoke args (relocated ops) :: callerOps) .calling cpu' := by
  obtain ⟨slots, -, carries⟩ := callerRun.carries laws callerEnters
  obtain ⟨slots', -, callee⟩ := calleeRun.carries laws enters
  obtain ⟨framePointer, csp, words, returns⟩ := carries.removed laws
    callerEnters.placed few prepared jumps enters callee removed unmoved
  exact ⟨framePointer, csp, words,
    callerRun.step (.invoke few prepared returns)⟩

end Runs

/-- A capability for the upper half of the first 64 KiB. -/
def stackCap (address : Nat) : Cap :=
  { tag := true
    base := 32768
    length := 32768
    address
    perms := { swVmem := false, rest := 1 } }

/-- The stack of a thread, with metadata below. -/
def sampleWorld : World where
  stack :=
    { cap := stackCap 65536
      tagged := rfl
      inSpace := by decide }
  metadata := fun a =>
    if a < 32768 then some ((sampleCpu Cap.null Cap.null).mem a) else none
  data := fun _ => 8
  outside := by
    intro a v present
    obtain ⟨below, -⟩ := Option.ite_none_right_eq_some.mp present
    exact .inl below

def sampleCode : Interpreter.Code :=
  { Interpreter.Code.small with maxStack := 8 }

/-- A method at 4096 is called with this stack pointer. -/
structure Calls (cpu : Cpu) : Prop where
  method : cpu.read rmethod = sampleCap 4096
  metadata : ∀ a, a < 32768 → cpu.mem a = (sampleCpu Cap.null Cap.null).mem a
  data : cpu.data = fun _ => 8
  onStack : OnStack sampleWorld.stack (cpu.read .sp)
  room : 33152 ≤ (cpu.read .sp).address

theorem Calls.enters {cpu : Cpu} (calls : Calls cpu) {callerStart : Nat}
    (lower : (cpu.read .sp).address ≤ callerStart)
    (upper : callerStart ≤ 65536) :
    Enters sampleWorld sampleCode Layout.sample (Found.sample Cap.null)
      callerStart cpu := by
  obtain ⟨method, metadata, data, onStack, room⟩ := calls
  have below := onStack.upper
  change (cpu.read .sp).address ≤ 65536 at below
  have frameAddress : (frame false cpu).address =
      (cpu.read .sp).address - 16 * 12 := rfl
  have frameOnStack : OnStack sampleWorld.stack (frame false cpu) := by
    refine onStack_withAddress onStack ?_ ?_ ?_
    · change 32768 ≤ (cpu.read .sp).address - 16 * 12
      omega
    · change (cpu.read .sp).address - 16 * 12 ≤ 65536
      omega
    · exact Nat.dvd_sub onStack.aligned (Nat.dvd_mul_right 16 12)
  have holds : ∀ {a offset : Nat} {v : Cap}, 16 ∣ a + offset →
      a + offset < 32768 →
      (sampleCpu Cap.null Cap.null).mem (a + offset) = v →
      FixedFrame.Holds cpu.mem (frame false cpu) 12 (sampleCap a) offset v := by
    intro a offset v aligned inside value
    refine ⟨?_, (metadata _ inside).trans value, .inl ?_⟩
    · constructor <;> simp only [sampleCap, addressSpace] <;> omega
    · change a + offset < (frame false cpu).address
      omega
  constructor
  · constructor
    · change 16 * 12 ≤ (cpu.read .sp).address
      omega
    · refine ⟨frameOnStack.tag, ?_, ?_, ?_, frameOnStack.aligned⟩
      · rw [base_of_onStack frameOnStack]
        exact frameOnStack.lower
      · rw [top_of_onStack frameOnStack]
        change (frame false cpu).address + 16 * 12 ≤ 65536
        omega
      · change (frame false cpu).address + 16 * 12 < addressSpace
        rw [addressSpace]
        omega
    · rw [method]
      exact
        { constMethod := holds (a := 4096) (by decide) (by decide) rfl
          constants := holds (a := 8192) (by decide) (by decide) rfl
          poolHolder := holds (a := 12288) (by decide) (by decide) rfl
          handle := holds (a := 16384) (by decide) (by decide) rfl
          mirror := holds (a := 20480) (by decide) (by decide) rfl
          cache := holds (a := 12288) (by decide) (by decide) rfl }
    · exact (sample_ready Cap.null Cap.null).bytecodes
  · have here : (Site.entered sampleWorld sampleCode Layout.sample
        (Found.sample Cap.null) callerStart cpu).method = sampleCap 4096 :=
      method
    constructor
    · exact frameOnStack
    · change (frame false cpu).address + 16 * 12 ≤ callerStart
      omega
    · exact upper
    · rfl
    · exact (by decide : sampleCode.entrySize < 4096)
    · exact (by decide : 16 ∣ sampleCode.objOffset)
    · exact (by decide : Interpreter.stackDelta sampleCode 4 < addressSpace)
    · rw [here]
      have reaches : Reaches (sampleCap 4096) 16 := by
        constructor <;> decide
      exact reaches
    · rw [Site.constAddress, here]
      rfl
    · exact (sample_ready Cap.null Cap.null).bytecodes rfl |>.maxStack
    · rfl
  · exact onStack
  · exact room
  · intro a v present
    obtain ⟨inside, same⟩ := Option.ite_none_right_eq_some.mp present
    exact (metadata a inside).trans (Option.some.inj same)
  · exact data

/-- The first method is entered with 512 bytes of stack in use. -/
def sampleOrigin : Cpu :=
  { sampleCpu Cap.null Cap.null with csp := stackCap 65024 }

def sampleSite : Site sampleWorld :=
  Site.entered sampleWorld sampleCode Layout.sample (Found.sample Cap.null)
    65024 sampleOrigin

theorem sampleOrigin_enters : Enters sampleWorld sampleCode Layout.sample
    (Found.sample Cap.null) 65024 sampleOrigin := by
  have calls : Calls sampleOrigin :=
    { method := rfl
      metadata := fun _ _ => rfl
      data := rfl
      onStack := ⟨rfl, by decide, by decide, by decide⟩
      room := by decide }
  exact calls.enters (by decide) (by decide)

theorem sample_starts : ∃ cpu,
    Run Intrinsics.exact sampleSite sampleOrigin [.start] .running cpu ∧
      cpu.read .sp = stackCap 64640 ∧ cpu.read esp = stackCap 64832 ∧
      slot cpu sampleSite.frame 0 = stackCap 64832 := by
  obtain ⟨cpu, ran, same⟩ := generateFixedFrame_activation Intrinsics.exact_laws
    sampleOrigin_enters.ready none (rfl : sampleCode.maxStack = _) rfl
    (by decide)
  have claimed : Interpreter.capSub Intrinsics.exact (stackCap 65024)
      (12 * Interpreter.wordSize) = stackCap 64832 := by decide
  have lowered : Interpreter.capSub Intrinsics.exact (stackCap 64832)
      (Interpreter.stackDelta sampleCode 2) = stackCap 64640 := by decide
  have csp : cpu.read .sp = Interpreter.capSub Intrinsics.exact
      (Interpreter.capSub Intrinsics.exact (stackCap 65024)
        (12 * Interpreter.wordSize)) (Interpreter.stackDelta sampleCode 2) :=
    congrArg Interpreter.Activation.csp same
  have top : cpu.read esp = Interpreter.capSub Intrinsics.exact
      (stackCap 65024) (12 * Interpreter.wordSize) :=
    congrArg Interpreter.Activation.esp same
  have bottom : slot cpu sampleSite.frame 0 = Interpreter.capSub
      Intrinsics.exact (stackCap 65024) (12 * Interpreter.wordSize) :=
    congrArg Interpreter.Activation.initialSp same
  rw [claimed] at csp top bottom
  exact ⟨cpu, .step (.begin ran) .start, csp.trans lowered, top, bottom⟩

/-- A collection that replaces the operands from `low` upward and the words of
the callers. -/
def collected (site : Site world) (low : Nat) (relocate : Cap → Cap)
    (cpu : Cpu) : Cpu :=
  { cpu with
    mem := fun a =>
      if low ≤ a ∧ a < (slot cpu site.frame 0).address ∨
          site.callerStart ≤ a ∧ a < world.top then
        relocate (cpu.mem a)
      else cpu.mem a }

theorem slot_collected {site : Site world} {cpu : Cpu}
    (placed : site.Placed)
    (bottom : (slot cpu site.frame 0).address ≤ site.frame.address) (low : Nat)
    (relocate : Cap → Cap) {k : Nat} (below : k < 12) :
    slot (collected site low relocate cpu) site.frame k =
      slot cpu site.frame k := by
  have above := placed.above
  exact if_neg (by omega)

theorem collected_leaves {site : Site world} {cpu : Cpu}
    (placed : site.Placed)
    (bottom : (slot cpu site.frame 0).address ≤ site.frame.address) {low : Nat}
    (lower : world.stack.cap.base ≤ low) (relocate : Cap → Cap) :
    Leaves site low relocate cpu (collected site low relocate cpu) where
  framePointer := rfl
  metadata := by
    intro a v present
    have outside := world.outside a v present
    have above := placed.above
    have inside := placed.inside
    have start := placed.onStack.lower
    rw [World.top] at inside
    exact if_neg (by rw [World.top]; omega)
  data := rfl
  fixed := fun k _ _ below => slot_collected placed bottom low relocate below
  caller := fun a lower upper => if_pos (.inr ⟨lower, upper⟩)
  bottom := slot_collected placed bottom low relocate (by decide)
  operands := fun a lower upper => if_pos (.inl ⟨lower, upper⟩)

/-- Every word is replaced by one. -/
def moved (_ : Cap) : Cap := sampleCap 4096

theorem slots_called {v : Cap} {slots : List Cap}
    (run : SlotRun 8 [.returnEntry 0, .invoke 0 moved, .push v, .start]
      .running slots) : slots = [sampleCap 4096] := by
  obtain _ | ⟨before, returned⟩ := run
  obtain _ | ⟨before, called⟩ := before
  obtain _ | ⟨before, pushed⟩ := before
  obtain _ | ⟨before, started⟩ := before
  cases returned
  cases called with
  | invoke _ _ _ _ kept =>
      cases pushed
      cases started
      cases before
      exact kept

/-- A method pushes a word, calls another one during which there is a
collection, and goes on. -/
theorem activation_operands_called : ∃ v cpu,
    SlotRun 8 [.returnEntry 0, .invoke 0 moved, .push v, .start] .running
        [sampleCap 4096] ∧
      Stored cpu.mem 16 (top sampleSite .running cpu).address
        [sampleCap 4096] := by
  have laws := Intrinsics.exact_laws
  have placed := sampleOrigin_enters.placed
  obtain ⟨cpu, run, -, esp₀, bottom₀⟩ := sample_starts
  obtain ⟨_, -, carries⟩ := run.carries laws sampleOrigin_enters
  have room : (slot cpu sampleSite.frame 0).address <
      (cpu.read esp).address + 16 * 8 := by
    rw [esp₀, bottom₀]
    decide
  obtain ⟨cpu₁, pushed, carries₁⟩ :=
    carries.push laws placed (r := r0) (by decide) (by decide) room
  have run₁ := run.step (.push r0 (by decide) (by decide) room pushed)
  -- the call
  have bottom := carries₁.bottom
  have lower := carries₁.lower (by simp)
  obtain ⟨mid, prepared, -, same, -, leaves⟩ := carries₁.prepared laws placed
  have here : mid.read esp = cpu₁.read esp := same esp (by simp)
  have csp : mid.read .sp = cpu₁.read .sp := same .sp (by simp)
  have above : (slot mid sampleSite.frame 0).address ≤
      sampleSite.frame.address := leaves.bottom ▸ carries₁.bottom_le
  have start : sampleWorld.stack.cap.base ≤ (mid.read esp).address + 16 * 0 := by
    rw [here]
    exact carries₁.onStack.lower
  have returns : CalleeReturns sampleSite 0 moved mid
      (collected sampleSite ((mid.read esp).address + 16 * 0) moved mid) :=
    { toLeaves := collected_leaves placed above start moved
      lastSp := slot_collected placed above _ moved (by decide)
      pointer := by
        change OnStack sampleWorld.stack (mid.read .sp)
        rw [csp]
        exact carries₁.pointer
      below := by
        change (mid.read .sp).address ≤ (mid.read esp).address
        rw [csp, here]
        exact carries₁.below }
  have few : (cpu₁.read esp).address + 16 * 0 ≤
      (slot cpu₁ sampleSite.frame 0).address :=
    Nat.le.intro bottom
  have run₂ := run₁.step (.invoke few prepared returns)
  obtain ⟨_, -, carries₂⟩ := run₂.carries laws sampleOrigin_enters
  have kept := returns.bottom.trans leaves.bottom
  generalize collected sampleSite ((mid.read esp).address + 16 * 0) moved mid =
    cpu₂ at run₂ carries₂ kept
  -- the return
  have room₂ : sampleWorld.stack.cap.base +
      Interpreter.stackDelta sampleCode 2 ≤
        (slot cpu₂ sampleSite.frame 0).address := by
    rw [kept]
    exact lower
  have few₂ : (slot cpu₂ sampleSite.frame 8).address + 16 * 0 ≤
      (slot cpu₂ sampleSite.frame 0).address :=
    Nat.le.intro carries₂.bottom
  obtain ⟨mid₂, ran, -⟩ := carries₂.returned Intrinsics.exact placed
  have rest : Rest sampleSite (mid₂.read esp).address mid₂
      ((mid₂.write rmethod sampleSite.method).write r1 (Cap.ofInt 0)) :=
    { toRespects := (Respects.refl.write (by simp) _).write (by simp) _
      bottom := by rw [slot_write, slot_write]
      operands := fun a _ _ => by simp
      top := by simp
      pointer := by simp
      method := by simp }
  have number : ((mid₂.write rmethod sampleSite.method).write r1
      (Cap.ofInt 0)).read r1 = Cap.ofInt 0 := by simp
  obtain ⟨cpu₃, popped, -⟩ :=
    carries₂.returnEntry laws placed room₂ few₂ ran rest number
  obtain ⟨slots, before, stored, -⟩ := activation_operands laws
    sampleOrigin_enters
    (run₂.step (.returnEntry room₂ few₂ ran rest number popped))
  obtain rfl := slots_called before
  exact ⟨_, cpu₃, before, stored⟩

theorem activation_completes_started : ∃ cpu,
    Run Intrinsics.exact sampleSite sampleOrigin [.start] .running cpu ∧
      Completes Intrinsics.exact sampleSite .running cpu := by
  obtain ⟨cpu, run, -⟩ := sample_starts
  exact ⟨cpu, run,
    activation_completes Intrinsics.exact_laws sampleOrigin_enters run⟩

theorem Calls.returns {cpu : Cpu} (calls : Calls cpu) {callerStart : Nat}
    (lower : (cpu.read .sp).address ≤ callerStart)
    (upper : callerStart ≤ 65536)
    (sender : OnStack sampleWorld.stack (cpu.read r13)) :
    ∃ v last cpu', Run Intrinsics.exact (Site.entered sampleWorld sampleCode
        Layout.sample (Found.sample Cap.null) callerStart cpu) cpu
          [.push v, .start] .running last ∧
      removeActivation Intrinsics.exact last = some cpu' := by
  have enters := calls.enters lower upper
  have count : sampleCode.maxStack = FixedFrame.maxStack Layout.sample
      (Found.sample Cap.null) cpu := by
    rw [FixedFrame.maxStack, calls.data]
    rfl
  obtain ⟨first, ran, -⟩ := generateFixedFrame_activation Intrinsics.exact_laws
    enters.ready none count rfl (by decide)
  have carries := (enters.carries Intrinsics.exact_laws ran).start
  have entered : Run Intrinsics.exact (Site.entered sampleWorld sampleCode
      Layout.sample (Found.sample Cap.null) callerStart cpu) cpu [] .entered
        first := .begin ran
  have started := entered.step .start
  have placed := enters.placed
  have sender : OnStack sampleWorld.stack ((Site.entered sampleWorld sampleCode
      Layout.sample (Found.sample Cap.null) callerStart cpu).fixed 9) := sender
  have count : 0 < (Site.entered sampleWorld sampleCode Layout.sample
      (Found.sample Cap.null) callerStart cpu).code.maxStack :=
    (by decide : 0 < 8)
  generalize Site.entered sampleWorld sampleCode Layout.sample
    (Found.sample Cap.null) callerStart cpu = site
    at carries started placed sender count ⊢
  have room : (slot first site.frame 0).address <
      (first.read esp).address + 16 * site.code.maxStack := by
    have bottom := carries.bottom
    rw [top_of_ne (by simp), List.length_nil] at bottom
    omega
  obtain ⟨last, pushed, done⟩ := carries.push Intrinsics.exact_laws placed
    (r := r0) (by decide) (by decide) room
  have run := started.step (.push r0 (by decide) (by decide) room pushed)
  obtain ⟨cpu', removed, -⟩ := run_removeActivation Intrinsics.exact_laws
    placed done.kept sender
  exact ⟨_, last, cpu', run, removed⟩

/-- The method calls itself, and the callee pushes a word and returns. -/
theorem activation_returns_recursive : ∃ (v : Cap) (cpu cpu' : Cpu),
    cpu'.read rfp = cpu.read rfp ∧ cpu'.read .sp = stackCap 64640 ∧
      Run Intrinsics.exact sampleSite sampleOrigin
        [.invoke 0 (relocated [.push v, .start]), .start] .calling cpu' := by
  obtain ⟨cpu, run, csp, top, bottom⟩ := sample_starts
  obtain ⟨slots, -, carries⟩ :=
    run.carries Intrinsics.exact_laws sampleOrigin_enters
  obtain ⟨mid, prepared, sender, same, -, leaves⟩ :=
    carries.prepared Intrinsics.exact_laws sampleOrigin_enters.placed
  have kept := leaves.kept carries.kept
  have midCsp : mid.read .sp = stackCap 64640 := (same .sp (by simp)).trans csp
  have calls : Calls mid :=
    { method := (same rmethod (by simp)).trans (carries.method (by simp))
      metadata := fun a inside => kept.metadata a _ (if_pos inside)
      data := kept.data
      onStack := by
        rw [midCsp]
        exact ⟨rfl, by decide, by decide, by decide⟩
      room := by
        rw [midCsp]
        decide }
  have start : (cpu.read esp).address + 16 * 0 = 64832 := by
    rw [top]
    rfl
  have low : (mid.read .sp).address ≤ 64832 := by
    rw [midCsp]
    decide
  have few : (cpu.read esp).address + 16 * 0 ≤
      (slot cpu sampleSite.frame 0).address := by
    rw [start, bottom]
    decide
  rw [← start] at low
  have high : (cpu.read esp).address + 16 * 0 ≤ 65536 := by omega
  obtain ⟨v, last, cpu', callee, removed⟩ :=
    calls.returns low high (sender ▸ carries.pointer)
  obtain ⟨framePointer, here, -, returned⟩ := activation_returns
    Intrinsics.exact_laws sampleOrigin_enters run few prepared
    ⟨rfl, rfl, fun _ _ _ => rfl⟩ (calls.enters low high) callee removed
    (fun _ _ _ => rfl)
  exact ⟨v, cpu, cpu', framePointer, here.trans csp, returned⟩

end Activations

end Morello

end StoplessGC
