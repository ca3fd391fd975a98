import StoplessGC.MachineCode
import StoplessGC.Foundation.StoredList

/-!
# The expression stack

`esp` points to the topmost slot.  The templates that rearrange slots go
through two registers and consist of four kinds of accesses.  `SlotOp.step`
says what each of them does to the list of slots that an instruction may
touch, and the emitted words do the same to the machine.
-/

namespace StoplessGC

namespace Morello

namespace ExpressionStack

open StoredList

abbrev esp : Register := .c 20

/-- `push_ptr` -/
def pushPtr (r : Register) : List Code :=
  [.emit (capSubImm esp esp 16), .emit (capStrImm r esp 0)]

/-- `pop_ptr` -/
def popPtr (r : Register) : List Code :=
  [.emit (capLdrImm r esp 0), .emit (capAddImm esp esp 16)]

/-- The registers that slots go through. -/
inductive Temp where
  | r0
  | r2
deriving DecidableEq, Repr

def Temp.register : Temp → Register
  | r0 => .c 0
  | r2 => .c 2

inductive SlotOp where
  /-- `cap_ldr(r, at_tos_p<k>())` -/
  | load (t : Temp) (k : Nat)
  /-- `cap_str(r, at_tos_p<k>())` -/
  | store (t : Temp) (k : Nat)
  /-- `push_ptr(r)` -/
  | push (t : Temp)
  /-- `cap_add_imm(esp, esp, n * Interpreter::stackElementSize)` -/
  | drop (n : Nat)
deriving DecidableEq, Repr

def SlotOp.emit : SlotOp → List Code
  | load t k => [.emit (capLdrImm t.register esp ((16 * k : Nat) : Int))]
  | store t k => [.emit (capStrImm t.register esp ((16 * k : Nat) : Int))]
  | push t => pushPtr t.register
  | drop n => [.emit (capAddImm esp esp ((16 * n : Nat) : Int))]

/-- The slots in reach, topmost first, and what the registers hold. -/
structure Slots where
  temp : Temp → Cap
  slots : List Cap

/-- One access among at most `limit` slots. -/
def SlotOp.step (limit : Nat) (s : Slots) : SlotOp → Option Slots
  | load t k =>
      s.slots[k]?.map fun v =>
        { s with temp := fun u => if u = t then v else s.temp u }
  | store t k =>
      if k < s.slots.length then
        some { s with slots := s.slots.set k (s.temp t) }
      else none
  | push t =>
      if s.slots.length < limit then
        some { s with slots := s.temp t :: s.slots }
      else none
  | drop n =>
      if n ≤ s.slots.length then some { s with slots := s.slots.drop n }
      else none

def SlotOp.run (limit : Nat) : List SlotOp → Slots → Option Slots
  | [], s => some s
  | op :: ops, s => (op.step limit s).bind (run limit ops)

/-- The place of at most `limit` slots below `bottom`, within the bounds of the
stack capability. -/
structure Area (stack : Cap) (limit bottom : Nat) : Prop where
  tagged : stack.tag = true
  lower : stack.base + 16 * limit ≤ bottom
  upper : bottom ≤ stack.base + stack.length
  word : bottom < addressSpace
  aligned : 16 ∣ bottom
  small : limit < 256

/-- The machine state with these slots directly above `bottom`, where `origin`
is the state at the start.  Only the area, the two registers and `esp` may have
changed. -/
structure Represents (origin cpu : Cpu) (limit bottom : Nat) (s : Slots) :
    Prop where
  top : cpu.read esp =
    (origin.read esp).withAddress (bottom - 16 * s.slots.length)
  temp : ∀ t : Temp, cpu.read t.register = s.temp t
  stored : Stored cpu.mem 16 (bottom - 16 * s.slots.length) s.slots
  fits : s.slots.length ≤ limit
  frame : ∀ a, a + 16 * limit < bottom ∨ bottom ≤ a → cpu.mem a = origin.mem a
  kept : ∀ r, r ≠ esp → (∀ t : Temp, r ≠ t.register) →
    cpu.read r = origin.read r

section Steps

variable {cheri : Intrinsics} {origin cpu : Cpu} {limit bottom : Nat}
  {stack : Cap} {s s' : Slots}

theorem Temp.isGpr (t : Temp) : t.register.IsGpr := by
  cases t <;> decide

theorem Temp.ne_zr (t : Temp) : t.register ≠ .zr := by
  cases t <;> decide

theorem Temp.ne_esp (t : Temp) : t.register ≠ esp := by
  cases t <;> decide

theorem Temp.register_injective {t u : Temp} (other : u ≠ t) :
    u.register ≠ t.register := by
  cases t <;> cases u <;> first | contradiction | decide

theorem read_write_temp (cpu : Cpu) (t u : Temp) (v : Cap) :
    (cpu.write t.register v).read u.register =
      if u = t then v else cpu.read u.register := by
  split
  · rename_i same
    rw [same, Cpu.read_write_self _ _ t.ne_zr]
  · rename_i other
    rw [Cpu.read_write_of_ne _ _ (Temp.register_injective other)]

theorem Area.reaches (area : Area stack limit bottom) {n k : Nat}
    (fits : n ≤ limit) (below : k < n) :
    Reaches (stack.withAddress (bottom - 16 * n)) (16 * k) := by
  obtain ⟨tagged, lower, upper, word, aligned, small⟩ := area
  constructor <;> simp only [Cap.withAddress]
  · exact tagged
  · omega
  · omega
  · omega
  · omega

theorem Area.moveBy (laws : cheri.Laws) (area : Area stack limit bottom)
    {m n : Nat} {offset : Int} (source : m ≤ limit) (target : n ≤ limit)
    (same : offset = 16 * m - 16 * n) :
    Morello.moveBy cheri (stack.withAddress (bottom - 16 * m)) offset =
      stack.withAddress (bottom - 16 * n) := by
  obtain ⟨tagged, lower, upper, word, aligned, small⟩ := area
  exact moveBy_eq laws (by simp only [Cap.withAddress]; omega) (by omega)
    (by simp only [Cap.withAddress]; omega)
    (by simp only [Cap.withAddress]; omega)

theorem memOffset_slot {k : Nat} (small : k < 256) :
    memOffset ((16 * k : Nat) : Int) = (16 * k : Nat) :=
  (memOffset_eq_iff _).mpr (.inl ⟨by omega, by omega, by omega⟩)

theorem Represents.load (area : Area (origin.read esp) limit bottom)
    (represents : Represents origin cpu limit bottom s) {t : Temp} {k : Nat}
    (stepped : (SlotOp.load t k).step limit s = some s') :
    ∃ cpu', run cheri (SlotOp.load t k).emit cpu = some cpu' ∧
      Represents origin cpu' limit bottom s' := by
  obtain ⟨top, temp, stored, fits, frame, kept⟩ := represents
  obtain ⟨v, found, rfl⟩ := Option.map_eq_some_iff.mp stepped
  obtain ⟨below, -⟩ := List.getElem?_eq_some_iff.mp found
  have small := area.small
  have reaches : Reaches (cpu.read esp) (16 * k) :=
    top ▸ area.reaches fits below
  have loaded : (Code.emit (capLdrImm t.register esp
      ((16 * k : Nat) : Int))).exec cheri cpu = _ :=
    exec_capLdrImm_slot cpu t.isGpr (Register.isGpr_c 20)
      (memOffset_slot (by omega)) reaches
  rw [top] at loaded
  have value := stored k v found
  change cpu.mem (_ + 16 * k) = v at value
  rw [Cap.withAddress, value] at loaded
  refine ⟨_, run_cons loaded [], ?_, ?_, ?_, fits, ?_, ?_⟩
  · rw [Cpu.read_write_of_ne _ _ t.ne_esp.symm, top]
  · intro u
    rw [read_write_temp, temp]
  · rwa [Cpu.write_mem]
  · intro a outside
    rw [Cpu.write_mem, frame a outside]
  · intro r notEsp other
    rw [Cpu.read_write_of_ne _ _ (other t), kept r notEsp other]

theorem Represents.store (area : Area (origin.read esp) limit bottom)
    (represents : Represents origin cpu limit bottom s) {t : Temp} {k : Nat}
    (stepped : (SlotOp.store t k).step limit s = some s') :
    ∃ cpu', run cheri (SlotOp.store t k).emit cpu = some cpu' ∧
      Represents origin cpu' limit bottom s' := by
  obtain ⟨top, temp, stored, fits, frame, kept⟩ := represents
  obtain ⟨below, same⟩ := Option.ite_none_right_eq_some.mp stepped
  cases same
  have small := area.small
  have lower := area.lower
  have reaches : Reaches (cpu.read esp) (16 * k) :=
    top ▸ area.reaches fits below
  have ran : (Code.emit (capStrImm t.register esp
      ((16 * k : Nat) : Int))).exec cheri cpu = _ :=
    exec_capStrImm_slot cpu t.isGpr (Register.isGpr_c 20)
      (memOffset_slot (by omega)) reaches
  rw [top, temp] at ran
  refine ⟨_, run_cons ran [], ?_, ?_, ?_, ?_, ?_, ?_⟩
  · rw [Cpu.read_setMem, top, List.length_set]
  · intro u
    rw [Cpu.read_setMem, temp]
  · rw [List.length_set]
    exact stored.update_set (by decide) k _
  · rwa [List.length_set]
  · intro a outside
    have other : a ≠ bottom - 16 * s.slots.length + 16 * k := by omega
    exact (Function.update_of_ne other ..).trans (frame a outside)
  · intro r notEsp other
    rw [Cpu.read_setMem, kept r notEsp other]

theorem Represents.push (laws : cheri.Laws)
    (area : Area (origin.read esp) limit bottom)
    (represents : Represents origin cpu limit bottom s) {t : Temp}
    (stepped : (SlotOp.push t).step limit s = some s') :
    ∃ cpu', run cheri (SlotOp.push t).emit cpu = some cpu' ∧
      Represents origin cpu' limit bottom s' := by
  obtain ⟨top, temp, stored, fits, frame, kept⟩ := represents
  obtain ⟨room, same⟩ := Option.ite_none_right_eq_some.mp stepped
  cases same
  have lower := area.lower
  have cut : (16 : Int) % 4096 = 16 := rfl
  have next : moveBy cheri (cpu.read esp) (-16) =
      (origin.read esp).withAddress
        (bottom - 16 * (s.slots.length + 1)) := by
    rw [top]
    exact area.moveBy laws fits room (by omega)
  have here : (cpu.write esp ((origin.read esp).withAddress
      (bottom - 16 * (s.slots.length + 1)))).read esp =
        (origin.read esp).withAddress
          (bottom - 16 * (s.slots.length + 1)) :=
    Cpu.read_write_self _ _ (by simp)
  have reaches := area.reaches room (Nat.succ_pos s.slots.length)
  rw [Nat.succ_eq_add_one, ← here] at reaches
  have ran : (Code.emit (capStrImm t.register esp 0)).exec cheri _ = _ :=
    exec_capStrImm_here _ t.isGpr (Register.isGpr_c 20) reaches
  rw [here, Cpu.read_write_of_ne _ _ t.ne_esp, temp] at ran
  have lowered : (Code.emit (capSubImm esp esp 16)).exec cheri cpu = _ :=
    exec_capSubImm cpu (by simp) (by simp) 16
  rw [cut, next] at lowered
  refine ⟨_, (run_cons lowered _).trans (run_cons ran []), ?_, ?_, ?_, room,
    ?_, ?_⟩
  · rw [Cpu.read_setMem, here]
    rfl
  · intro u
    rw [Cpu.read_setMem, Cpu.read_write_of_ne _ _ u.ne_esp, temp]
  · have old : bottom - 16 * (s.slots.length + 1) + 16 =
        bottom - 16 * s.slots.length := by omega
    refine stored_cons_iff.mpr ⟨Function.update_self .., ?_⟩
    rw [List.length_cons, old]
    exact stored.update_outside (.inl (by
      simp only [Cap.withAddress]; omega)) (by decide) _
  · intro a outside
    have other : a ≠ bottom - 16 * (s.slots.length + 1) := by omega
    exact (Function.update_of_ne other ..).trans (frame a outside)
  · intro r notEsp other
    rw [Cpu.read_setMem, Cpu.read_write_of_ne _ _ notEsp, kept r notEsp other]

theorem Represents.drop (laws : cheri.Laws)
    (area : Area (origin.read esp) limit bottom)
    (represents : Represents origin cpu limit bottom s) {n : Nat}
    (stepped : (SlotOp.drop n).step limit s = some s') :
    ∃ cpu', run cheri (SlotOp.drop n).emit cpu = some cpu' ∧
      Represents origin cpu' limit bottom s' := by
  obtain ⟨top, temp, stored, fits, frame, kept⟩ := represents
  obtain ⟨enough, same⟩ := Option.ite_none_right_eq_some.mp stepped
  cases same
  have small := area.small
  have lower := area.lower
  have cut : ((16 * n : Nat) : Int) % 4096 = (16 * n : Nat) := by omega
  have next : moveBy cheri (cpu.read esp) ((16 * n : Nat) : Int) =
      (origin.read esp).withAddress
        (bottom - 16 * (s.slots.length - n)) := by
    rw [top]
    exact area.moveBy laws fits (by omega) (by omega)
  have raised : (Code.emit (capAddImm esp esp ((16 * n : Nat) : Int))).exec
      cheri cpu = _ := exec_capAddImm cpu (by simp) (by simp) _
  rw [cut, next] at raised
  refine ⟨_, run_cons raised [], ?_, ?_, ?_, ?_, ?_, ?_⟩
  · rw [Cpu.read_write_self _ _ (by simp), List.length_drop]
  · intro u
    rw [Cpu.read_write_of_ne _ _ u.ne_esp, temp]
  · have rest := stored.drop n
    have place : bottom - 16 * s.slots.length + 16 * n =
        bottom - 16 * (s.slots.length - n) := by omega
    rw [place] at rest
    rwa [Cpu.write_mem, List.length_drop]
  · rw [List.length_drop]
    omega
  · intro a outside
    rw [Cpu.write_mem, frame a outside]
  · intro r notEsp other
    rw [Cpu.read_write_of_ne _ _ notEsp, kept r notEsp other]

/-- The words of an access do what the access does. -/
theorem Represents.step (laws : cheri.Laws)
    (area : Area (origin.read esp) limit bottom)
    (represents : Represents origin cpu limit bottom s) {op : SlotOp}
    (stepped : op.step limit s = some s') :
    ∃ cpu', Morello.run cheri op.emit cpu = some cpu' ∧
      Represents origin cpu' limit bottom s' := by
  cases op with
  | load t k => exact represents.load area stepped
  | store t k => exact represents.store area stepped
  | push t => exact represents.push laws area stepped
  | drop n => exact represents.drop laws area stepped

theorem Represents.run (laws : cheri.Laws)
    (area : Area (origin.read esp) limit bottom) {ops : List SlotOp}
    (represents : Represents origin cpu limit bottom s)
    (ran : SlotOp.run limit ops s = some s') :
    ∃ cpu', Morello.run cheri (ops.flatMap SlotOp.emit) cpu = some cpu' ∧
      Represents origin cpu' limit bottom s' := by
  induction ops generalizing cpu s with
  | nil =>
      cases ran
      exact ⟨cpu, rfl, represents⟩
  | cons op ops ih =>
      obtain ⟨next, stepped, rest⟩ := Option.bind_eq_some_iff.mp ran
      obtain ⟨middle, first, here⟩ := represents.step laws area stepped
      obtain ⟨cpu', last, done⟩ := ih here rest
      refine ⟨cpu', ?_, done⟩
      rw [List.flatMap_cons, run_append, first, Option.bind_some, last]

end Steps

end ExpressionStack

end Morello

end StoplessGC
