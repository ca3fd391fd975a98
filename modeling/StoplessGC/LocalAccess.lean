import StoplessGC.Locals

/-!
# Values in local variables

What a template stores into a local and what another one gets out of it again.
Values of one word go through `ldr` and `str`.  References go through
`cap_ldr` and `cap_str`.  The patch does not touch `wide_aload` and
`wide_astore`, so their code is a parameter; the notes on slot addressing list
them among the direct `ldr` and `str` accesses through `aaddress`.
-/

namespace StoplessGC

namespace Morello

namespace Locals

open ExpressionStack

/-- `iload`, `lload`, `ret` and their wide and constant forms, up to the word
in the register. -/
def Form.load (form : Form) (t : Register) : List Code :=
  form.setup ++ [form.address.ldr t]

/-- `lstore` and the like, with the word in a register. -/
def Form.store (form : Form) (t : Register) : List Code :=
  form.setup ++ [form.address.str t]

/-- `TemplateTable::aload()` -/
def aload : List Code :=
  localsIndex r1 1 ++ leaIndexed rscratch1 rlocals r1 3 ++
    [.emit (capLdrImm r0 rscratch1 0)]

/-- `TemplateTable::aload(int n)` -/
def aloadN (n : Nat) : List Code :=
  [.emit (capLdrImm r0 rlocals (localOffsetInBytes n))]

/-- `TemplateTable::astore()` -/
def astore : List Code :=
  popPtr r0 ++ (localsIndex r1 1 ++ leaIndexed rscratch1 rlocals r1 3 ++
    [.emit (capStrImm r0 rscratch1 0)])

/-- `TemplateTable::astore(int n)` -/
def astoreN (n : Nat) : List Code :=
  popPtr r0 ++ [.emit (capStrImm r0 rlocals (localOffsetInBytes n))]

/-- `TemplateTable::wide_aload()` and `TemplateTable::wide_astore()` -/
structure WideTemplates where
  aload : List Code
  astore : List Code

/-- The word goes through the address of the wide index, as in the templates
of the same list for words. -/
structure WideTemplates.EightByte (cheri : Intrinsics)
    (templates : WideTemplates) : Prop where
  aload : ∀ cpu, run cheri templates.aload cpu =
    run cheri ((Form.indexed .wide).load r0) cpu
  astore : ∀ cpu, run cheri templates.astore cpu =
    run cheri (popPtr r0 ++ (Form.indexed .wide).store r0) cpu

/-- The bytecodes for references. -/
inductive RefForm where
  | narrow
  /-- `aload_0` to `aload_3` -/
  | constant (n : Fin 4)
  | wide
deriving DecidableEq, Repr

namespace RefForm

variable (templates : WideTemplates)

def form : RefForm → Form
  | narrow => .computed (.narrow 1)
  | constant n => .constant n
  | wide => .indexed .wide

def load : RefForm → List Code
  | narrow => aload
  | constant n => aloadN n
  | wide => templates.aload

def store : RefForm → List Code
  | narrow => astore
  | constant n => astoreN n
  | wide => templates.astore

/-- What the local holds after a store of `v`. -/
def stored (old v : Cap) : RefForm → Cap
  | wide => withLow old v.address
  | _ => v

/-- What a load gets from the contents of the local. -/
def loaded (w : Cap) : RefForm → Cap
  | wide => Cap.ofInt (w.address % addressSpace)
  | _ => w

/-- A capability that an integer access keeps. -/
def IsInteger (v : Cap) : Prop := v = Cap.ofInt (v.address % addressSpace)

/-- An untagged granule with the upper half of another one. -/
structure SharesUpper (old v : Cap) : Prop where
  untagged : v.tag = false
  base : v.base = old.base
  length : v.length = old.length
  perms : v.perms = old.perms

theorem sharesUpper_iff (old v : Cap) :
    withLow old v.address = v ↔ SharesUpper old v := by
  cases v with
  | mk tag base length address perms =>
      constructor
      · intro same
        cases same
        exact ⟨rfl, rfl, rfl, rfl⟩
      · rintro ⟨rfl, rfl, rfl, rfl⟩
        rfl

/-- When a reference survives a store and a load. -/
def Transfers (old v : Cap) : RefForm → RefForm → Prop
  | _, wide => IsInteger v
  | wide, _ => SharesUpper old v
  | _, _ => True

theorem loaded_stored_iff (store load : RefForm) (old v : Cap) :
    load.loaded (store.stored old v) = v ↔ Transfers old v store load := by
  have address : (store.stored old v).address = v.address := by
    cases store <;> rfl
  cases load with
  | wide =>
      rw [loaded, address, eq_comm]
      cases store <;> rfl
  | narrow | constant _ =>
      cases store with
      | wide => exact sharesUpper_iff old v
      | narrow | constant _ => exact iff_of_true rfl trivial

end RefForm

section Accesses

variable {cheri : Intrinsics} {cpu cpu' : Cpu} {address : Address} {n k : Nat}

/-- Where the local `k` lies. -/
def localAddress (cpu : Cpu) (k : Nat) : Nat :=
  (cpu.read rlocals).address - 16 * k

theorem Located.ldr (located : Located cpu cpu' address k) (t : Register) :
    (address.ldr t).exec cheri cpu' =
      some (cpu'.writeX t (cpu.mem (localAddress cpu k)).address) := by
  have loaded : cpu'.loadAt (cpu'.read address.base) (localAddress cpu k) =
      some (cpu.mem (localAddress cpu k)) := by
    rw [Cpu.loadAt, localAddress, if_pos located.accessible, located.mem]
  cases address with
  | offset base imm =>
      have target : offsetBy (cpu'.read base) imm = localAddress cpu k :=
        located.target
      simp only [Address.base] at loaded
      simp [Address.ldr, Code.exec, Instr.exec, Cpu.load, target, loaded]
  | indexed base index =>
      have target : cpu'.indexedX base index = localAddress cpu k :=
        located.target
      simp only [Address.base] at loaded
      simp [Address.ldr, Code.exec, Instr.exec, target, loaded]

theorem Located.str (located : Located cpu cpu' address k) {t : Register}
    (notIndex : t ≠ r1) (notScratch : t ≠ rscratch1) :
    (address.str t).exec cheri cpu' =
      some (cpu'.setMem (localAddress cpu k)
        (withLow (cpu.mem (localAddress cpu k)) (cpu.read t).address)) := by
  have stored : ∀ v, cpu'.storeAt (cpu'.read address.base)
      (localAddress cpu k) v = some (cpu'.setMem (localAddress cpu k) v) := by
    intro v
    rw [Cpu.storeAt, localAddress, if_pos located.accessible]
  have value := located.read t notIndex notScratch
  cases address with
  | offset base imm =>
      have target : offsetBy (cpu'.read base) imm = localAddress cpu k :=
        located.target
      simp only [Address.str, Code.exec, Instr.exec, Cpu.store, target,
        located.mem, value]
      exact stored _
  | indexed base index =>
      have target : cpu'.indexedX base index = localAddress cpu k :=
        located.target
      simp only [Address.str, Code.exec, Instr.exec, target, located.mem,
        value]
      exact stored _

theorem Located.capLdr {base : Register} {imm : Int}
    (located : Located cpu cpu' (.offset base imm) k)
    (encodable : MemEncodable imm) (gpr : base.IsGpr) {t : Register}
    (gprT : t.IsGpr) :
    (Code.emit (capLdrImm t base imm)).exec cheri cpu' =
      some (cpu'.write t (cpu.mem (localAddress cpu k))) := by
  rw [exec_capLdrImm_at cpu' gprT gpr
    (by rw [(memOffset_eq_iff imm).mpr encodable]; exact located.target)
    located.accessible, located.mem, localAddress]

theorem Located.capStr {base : Register} {imm : Int}
    (located : Located cpu cpu' (.offset base imm) k)
    (encodable : MemEncodable imm) (gpr : base.IsGpr) {t : Register}
    (gprT : t.IsGpr) (notIndex : t ≠ r1) (notScratch : t ≠ rscratch1) :
    (Code.emit (capStrImm t base imm)).exec cheri cpu' =
      some (cpu'.setMem (localAddress cpu k) (cpu.read t)) := by
  rw [exec_capStrImm_at cpu' gprT gpr
    (by rw [(memOffset_eq_iff imm).mpr encodable]; exact located.target)
    located.accessible, located.read t notIndex notScratch, localAddress]

theorem run_popPtr {r : Register} (gpr : r.IsGpr)
    (operand : Reaches (cpu.read esp) 0) :
    ∃ top, ∀ rest, run cheri (popPtr r ++ rest) cpu =
      run cheri rest
        ((cpu.write r (cpu.mem (cpu.read esp).address)).write esp top) := by
  have moved (c : Cpu) : (Code.emit (capAddImm esp esp 16)).exec cheri c =
      some (c.write esp (moveBy cheri (c.read esp) 16)) :=
    exec_capAddImm c (by simp) (by simp) 16
  exact ⟨_, fun rest =>
    (run_cons (exec_capLdrImm_here cpu gpr (Register.isGpr_c 20) operand)
      _).trans (run_cons (moved _) rest)⟩

end Accesses

/-- Memory after a store into the local `k`. -/
structure Stored (cpu cpu' : Cpu) (k : Nat) (w : Cap) : Prop where
  mem : cpu'.mem = Function.update cpu.mem (localAddress cpu k) w
  locals : cpu'.read rlocals = cpu.read rlocals

section Templates

variable {cheri : Intrinsics} {cpu : Cpu} {n : Nat}

theorem Form.run_load (laws : cheri.Laws) (form : Form) {t : Register}
    (real : t ≠ .zr) (reads : form.Reads cpu.data (cpu.read rbcp) n)
    (reach : Reach (cpu.read rlocals) (form.slot n)) :
    ∃ cpu', run cheri (form.load t) cpu = some cpu' ∧
      cpu'.read t = Cap.ofInt
        ((cpu.mem (localAddress cpu (form.slot n))).address % addressSpace) := by
  obtain ⟨located, ran, there⟩ := form.run_setup laws reads reach
  exact ⟨_, run_concat ran (there.ldr t), Cpu.read_write_self _ _ real⟩

theorem Form.run_store (laws : cheri.Laws) (form : Form) {t : Register}
    (notIndex : t ≠ r1) (notScratch : t ≠ rscratch1)
    (reads : form.Reads cpu.data (cpu.read rbcp) n)
    (reach : Reach (cpu.read rlocals) (form.slot n)) :
    ∃ cpu', run cheri (form.store t) cpu = some cpu' ∧
      Stored cpu cpu' (form.slot n)
        (withLow (cpu.mem (localAddress cpu (form.slot n)))
          (cpu.read t).address) := by
  obtain ⟨located, ran, there⟩ := form.run_setup laws reads reach
  refine ⟨_, run_concat ran (there.str notIndex notScratch), ?_, ?_⟩
  · rw [Cpu.setMem_mem, there.mem]
  · rw [Cpu.read_setMem, there.read rlocals (by simp) (by simp)]

namespace RefForm

/-- The constant indices have offsets that `cap_ldr` can encode. -/
theorem encodable_constant (k : Fin 4) :
    MemEncodable (localOffsetInBytes k) := by
  have small := k.isLt
  right
  unfold localOffsetInBytes
  omega

theorem encodable_zero : MemEncodable 0 := .inr (by decide)

variable {templates : WideTemplates}

theorem run_load (laws : cheri.Laws) (form : RefForm)
    (known : form = .wide → templates.EightByte cheri)
    (reads : form.form.Reads cpu.data (cpu.read rbcp) n)
    (reach : Reach (cpu.read rlocals) (form.form.slot n)) :
    ∃ cpu', run cheri (form.load templates) cpu = some cpu' ∧
      cpu'.read r0 =
        form.loaded (cpu.mem (localAddress cpu (form.form.slot n))) := by
  obtain ⟨located, ran, there⟩ := form.form.run_setup laws reads reach
  have gpr : r0.IsGpr := Register.isGpr_c 0
  cases form with
  | narrow =>
      exact ⟨_, run_concat ran
        (there.capLdr encodable_zero (Register.isGpr_c 8) gpr),
        Cpu.read_write_self _ _ (by simp)⟩
  | constant k =>
      exact ⟨_, run_concat ran
        (there.capLdr (encodable_constant k) (Register.isGpr_c 24) gpr),
        Cpu.read_write_self _ _ (by simp)⟩
  | wide =>
      exact ⟨_, ((known rfl).aload cpu).trans (run_concat ran (there.ldr r0)),
        Cpu.read_write_self _ _ (by simp)⟩

theorem run_store (laws : cheri.Laws) (form : RefForm)
    (known : form = .wide → templates.EightByte cheri)
    (reads : form.form.Reads cpu.data (cpu.read rbcp) n)
    (reach : Reach (cpu.read rlocals) (form.form.slot n))
    (operand : Reaches (cpu.read esp) 0) :
    ∃ cpu', run cheri (form.store templates) cpu = some cpu' ∧
      Stored cpu cpu' (form.form.slot n)
        (form.stored (cpu.mem (localAddress cpu (form.form.slot n)))
          (cpu.mem (cpu.read esp).address)) := by
  generalize held : cpu.mem (cpu.read esp).address = v
  have gpr : r0.IsGpr := Register.isGpr_c 0
  obtain ⟨top, popped⟩ : ∃ top, ∀ rest, run cheri (popPtr r0 ++ rest) cpu = _ :=
    run_popPtr gpr operand
  rw [held] at popped
  have value : ((cpu.write r0 v).write esp top).read r0 = v := by simp
  obtain ⟨located, ran, there⟩ : ∃ located,
      run cheri form.form.setup ((cpu.write r0 v).write esp top) =
        some located ∧
      Located ((cpu.write r0 v).write esp top) located form.form.address
        (form.form.slot n) :=
    form.form.run_setup laws (by simpa using reads) (by simpa using reach)
  have place : localAddress ((cpu.write r0 v).write esp top)
      (form.form.slot n) = localAddress cpu (form.form.slot n) := by
    simp [localAddress]
  have done : located.mem = cpu.mem := by simpa using there.mem
  have locals : located.read rlocals = cpu.read rlocals := by
    simpa using there.read rlocals (by simp) (by simp)
  have stores (w : Cap) : Stored cpu
      (located.setMem (localAddress cpu (form.form.slot n)) w)
      (form.form.slot n) w :=
    ⟨by rw [Cpu.setMem_mem, done], by rw [Cpu.read_setMem, locals]⟩
  rw [← place] at stores
  cases form with
  | narrow =>
      have last : (Code.emit (capStrImm r0 rscratch1 0)).exec cheri located = _ :=
        there.capStr encodable_zero (Register.isGpr_c 8) gpr (by simp) (by simp)
      rw [value] at last
      exact ⟨_, (popped _).trans (run_concat ran last), stores v⟩
  | constant k =>
      have last : (Code.emit (capStrImm r0 rlocals (localOffsetInBytes k))).exec
          cheri located = _ :=
        there.capStr (encodable_constant k) (Register.isGpr_c 24) gpr (by simp)
          (by simp)
      rw [value] at last
      exact ⟨_, (popped _).trans (run_concat ran last), stores v⟩
  | wide =>
      have last : ((wide.form.address).str r0).exec cheri located = _ :=
        there.str (by simp) (by simp)
      rw [value, Cpu.write_mem, Cpu.write_mem] at last
      refine ⟨_, ((known rfl).astore cpu).trans
        ((popped _).trans (run_concat ran last)), ?_⟩
      rw [← place]
      exact stores _

end RefForm

end Templates

/-- Until `later` the local and `rlocals` stay as they are. -/
structure Kept (cpu later : Cpu) (k : Nat) : Prop where
  locals : later.read rlocals = cpu.read rlocals
  mem : later.mem (localAddress cpu k) = cpu.mem (localAddress cpu k)

theorem Stored.kept {cpu stored later : Cpu} {k : Nat} {w : Cap}
    (store : Stored cpu stored k w) (kept : Kept stored later k) :
    later.read rlocals = cpu.read rlocals ∧
      later.mem (localAddress later k) = w := by
  have locals := kept.locals.trans store.locals
  have same : ∀ c : Cpu, c.read rlocals = cpu.read rlocals →
      localAddress c k = localAddress cpu k := by
    intro c there
    rw [localAddress, there, localAddress]
  refine ⟨locals, ?_⟩
  have mem := kept.mem
  rw [same stored store.locals, store.mem, Function.update_self] at mem
  rw [same later locals, mem]

section Agreement

variable (cheri : Intrinsics)

/-- Each form has its access at `rlocals - 16 * slot`. -/
def AddressesAgree : Prop :=
  ∀ (form : Form) (cpu : Cpu) (n : Nat),
    form.Reads cpu.data (cpu.read rbcp) n →
    Reach (cpu.read rlocals) (form.slot n) →
    ∃ cpu', run cheri form.setup cpu = some cpu' ∧
      form.address.target cpu' = (cpu.read rlocals).address - 16 * form.slot n

/-- After `store` each form that names the local gets the word `v`. -/
def WordComesBack (stored : Cpu) (k : Nat) (v : Cap) : Prop :=
  ∀ (form : Form) (later : Cpu) (n : Nat) (t : Register), t ≠ .zr →
    form.slot n = k → Kept stored later k →
    form.Reads later.data (later.read rbcp) n →
    ∃ loaded, run cheri (form.load t) later = some loaded ∧
      loaded.read t = Cap.ofInt (v.address % addressSpace)

/-- A word that one form stores comes back through each other one. -/
def WordsAgree : Prop :=
  ∀ (form : Form) (cpu : Cpu) (n : Nat) (t : Register), t ≠ r1 →
    t ≠ rscratch1 → form.Reads cpu.data (cpu.read rbcp) n →
    Reach (cpu.read rlocals) (form.slot n) →
    ∃ stored, run cheri (form.store t) cpu = some stored ∧
      WordComesBack cheri stored (form.slot n) (cpu.read t)

/-- A reference that one of the forms stores comes back through another one
exactly where `P` holds of the old contents, the reference and the forms.  A
return address comes back through each form of `ret`. -/
def ReferencesAgree (templates : WideTemplates) (among : RefForm → Prop)
    (P : Cap → Cap → RefForm → RefForm → Prop) : Prop :=
  ∀ (store : RefForm) (cpu : Cpu) (n : Nat), among store →
    store.form.Reads cpu.data (cpu.read rbcp) n →
    Reach (cpu.read rlocals) (store.form.slot n) →
    Reaches (cpu.read esp) 0 →
    ∃ stored, run cheri (store.store templates) cpu = some stored ∧
      WordComesBack cheri stored (store.form.slot n)
        (cpu.mem (cpu.read esp).address) ∧
      ∀ (load : RefForm) (later : Cpu) (m : Nat), among load →
        load.form.slot m = store.form.slot n →
        Kept stored later (store.form.slot n) →
        load.form.Reads later.data (later.read rbcp) m →
        ∃ loaded, run cheri (load.load templates) later = some loaded ∧
          (loaded.read r0 = cpu.mem (cpu.read esp).address ↔
            P (cpu.mem (localAddress cpu (store.form.slot n)))
              (cpu.mem (cpu.read esp).address) store load)

variable {cheri}

theorem addressesAgree (laws : cheri.Laws) : AddressesAgree cheri := by
  intro form cpu n reads reach
  obtain ⟨cpu', ran, located⟩ := form.run_setup laws reads reach
  exact ⟨cpu', ran, located.target⟩

theorem wordComesBack (laws : cheri.Laws) {cpu stored : Cpu} {k : Nat}
    {v w : Cap} (reach : Reach (cpu.read rlocals) k)
    (store : Stored cpu stored k w) (word : w.address = v.address) :
    WordComesBack cheri stored k v := by
  intro form later n t real slot kept reads
  obtain ⟨locals, contents⟩ := store.kept kept
  rw [← locals, ← slot] at reach
  obtain ⟨loaded, ran, value⟩ := form.run_load laws real reads reach
  refine ⟨loaded, ran, ?_⟩
  rw [value, slot, contents, word]

theorem wordsAgree (laws : cheri.Laws) : WordsAgree cheri := by
  intro form cpu n t notIndex notScratch reads reach
  obtain ⟨stored, ran, store⟩ :=
    form.run_store laws notIndex notScratch reads reach
  exact ⟨stored, ran, wordComesBack laws reach store rfl⟩

theorem referencesAgree (laws : cheri.Laws) {templates : WideTemplates}
    {among : RefForm → Prop}
    (known : among .wide → templates.EightByte cheri) :
    ReferencesAgree cheri templates among RefForm.Transfers := by
  have codes : ∀ form, among form → form = .wide →
      templates.EightByte cheri := by
    rintro _ here rfl
    exact known here
  intro store cpu n hereStore reads reach operand
  obtain ⟨stored, ran, stores⟩ :=
    store.run_store laws (codes store hereStore) reads reach operand
  refine ⟨stored, ran, wordComesBack laws reach stores ?_, ?_⟩
  · cases store <;> rfl
  · intro load later m hereLoad slot kept readsLater
    obtain ⟨locals, contents⟩ := stores.kept kept
    rw [← locals, ← slot] at reach
    obtain ⟨loaded, ranLoad, value⟩ :=
      load.run_load laws (codes load hereLoad) readsLater reach
    refine ⟨loaded, ranLoad, ?_⟩
    rw [value, slot, contents]
    exact RefForm.loaded_stored_iff ..

end Agreement

/-- All forms have the same slot for a local.  Words come back through every
form.  References come back through every form but the wide ones, and through
those where an eight-byte access keeps them. -/
theorem local_forms_agree {cheri : Intrinsics} (laws : cheri.Laws)
    (templates : WideTemplates) :
    AddressesAgree cheri ∧ WordsAgree cheri ∧
      ReferencesAgree cheri templates (· ≠ .wide) (fun _ _ _ _ => True) ∧
      (templates.EightByte cheri →
        ReferencesAgree cheri templates (fun _ => True) RefForm.Transfers) := by
  refine ⟨addressesAgree laws, wordsAgree laws, ?_,
    fun known => referencesAgree laws fun _ => known⟩
  have agree : ReferencesAgree cheri templates (· ≠ .wide)
      RefForm.Transfers := referencesAgree laws fun other => absurd rfl other
  intro store cpu n hereStore reads reach operand
  obtain ⟨stored, ran, word, back⟩ :=
    agree store cpu n hereStore reads reach operand
  refine ⟨stored, ran, word, ?_⟩
  intro load later m hereLoad slot kept readsLater
  obtain ⟨loaded, ranLoad, same⟩ :=
    back load later m hereLoad slot kept readsLater
  refine ⟨loaded, ranLoad, same.trans ?_⟩
  cases load with
  | wide => exact absurd rfl hereLoad
  | narrow | constant _ =>
      cases store with
      | wide => exact absurd rfl hereStore
      | narrow | constant _ => rfl

/-- A reference to the heap on top of the expression stack and the local 300,
far from the first ones. -/
def sampleLocals : Cpu where
  reg := fun i =>
    { tag := true
      base := 0
      length := 2 ^ 17
      address := if i = 24 then 2 ^ 16 else if i = 22 then 2 ^ 12 else 2 ^ 14
      perms := { swVmem := false, rest := 1 } }
  csp := Cap.null
  mem := fun _ =>
    { tag := true
      base := 2 ^ 20
      length := 64
      address := 2 ^ 20
      perms := { swVmem := false, rest := 1 } }
  data := fun a => if a = 2 ^ 12 + 2 then 44 * 2 ^ 8 + 1 else 0
  flags := ⟨false, false, false, false⟩

theorem sampleLocals_reads :
    Form.Reads sampleLocals.data (sampleLocals.read rbcp) 300
      RefForm.wide.form :=
  ⟨by decide, by decide, by decide, by decide⟩

theorem sampleLocals_reach : Reach (sampleLocals.read rlocals) 300 :=
  ⟨by decide, by decide, by decide, by decide, by decide⟩

theorem sampleLocals_operand : Reaches (sampleLocals.read esp) 0 :=
  ⟨by decide, by decide, by decide, by decide, by decide⟩

/-- Templates with one direct access each. -/
def directTemplates : WideTemplates where
  aload := localsIndexWide r1 ++ [(aaddressReg r1).ldr r0]
  astore := popPtr r0 ++ (localsIndexWide r1 ++ [(aaddressReg r1).str r0])

theorem directTemplates_eightByte (cheri : Intrinsics) :
    directTemplates.EightByte cheri :=
  ⟨fun _ => rfl, fun _ => rfl⟩

theorem local_forms_agree_sample :
    ∃ stored, run Intrinsics.exact directTemplates.astore sampleLocals =
        some stored ∧
      WordComesBack Intrinsics.exact stored 300
        (sampleLocals.mem (2 ^ 14)) := by
  have agree := (local_forms_agree Intrinsics.exact_laws
    directTemplates).2.2.2 (directTemplates_eightByte Intrinsics.exact)
  obtain ⟨stored, ran, word, _⟩ :=
    agree .wide sampleLocals 300 trivial sampleLocals_reads sampleLocals_reach
      sampleLocals_operand
  exact ⟨stored, ran, word⟩

/-- Through the direct accesses a reference loses its tag. -/
theorem wide_locals_disagree :
    directTemplates.EightByte Intrinsics.exact ∧
      ¬ ReferencesAgree Intrinsics.exact directTemplates (fun _ => True)
        fun _ _ _ _ => True := by
  have known := directTemplates_eightByte Intrinsics.exact
  refine ⟨known, ?_⟩
  intro agree
  obtain ⟨stored, ran, _, back⟩ :=
    agree .wide sampleLocals 300 trivial sampleLocals_reads sampleLocals_reach
      sampleLocals_operand
  obtain ⟨stored', ran', stores⟩ := RefForm.wide.run_store
    Intrinsics.exact_laws (fun _ => known) sampleLocals_reads
    sampleLocals_reach sampleLocals_operand
  obtain rfl : stored = stored' := Option.some.inj (ran.symm.trans ran')
  have kept : Kept stored { sampleLocals with mem := stored.mem } 300 :=
    ⟨stores.locals.symm, rfl⟩
  obtain ⟨loaded, ranLoad, same⟩ := back .wide
    { sampleLocals with mem := stored.mem } 300 trivial rfl kept
    sampleLocals_reads
  obtain ⟨loaded', ranLoad', value⟩ : ∃ loaded,
      run Intrinsics.exact directTemplates.aload
        { sampleLocals with mem := stored.mem } = some loaded ∧
      loaded.read r0 = Cap.ofInt _ :=
    RefForm.wide.run_load Intrinsics.exact_laws (fun _ => known)
      sampleLocals_reads sampleLocals_reach
  obtain rfl : loaded = loaded' :=
    Option.some.inj (ranLoad.symm.trans ranLoad')
  have tags := congrArg Cap.tag (value.symm.trans (same.mpr trivial))
  exact Bool.false_ne_true tags

end Locals

end Morello

end StoplessGC
