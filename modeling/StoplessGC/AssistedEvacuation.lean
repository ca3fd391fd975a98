import StoplessGC.ForwardTableAtomic
import StoplessGC.Execution
import Mathlib.Data.Finset.Prod

/-!
# Evacuation by the mutators

The concurrent mode of `test_concurrent_move`: all objects are revoked before
any is copied, and the fault handlers of the mutators do the evacuation.  Every
mutator that faults looks the object up; if it is not forwarded yet, the
callback copies it to a fresh slot and offers the slot to
`forward_table_cas_insert`, which tells the winner.  The byte copies, the
counters and the accesses of the mutators are steps of their own, and so are
the atomic accesses of the table.
-/

namespace StoplessGC

namespace Evacuation

open ForwardTable Allocator Handler AtomicObject

variable {cheri : Intrinsics}

/-- The two arenas of the test, and its objects. -/
structure Setup (cheri : Intrinsics) where
  src : Nat
  dst : Arena cheri
  objSize : Nat
  numObjs : Nat
  shadow : Nat → Nat
  perms : Perms
  objSize_pos : 0 < objSize
  src_pos : 0 < src
  exact : cheri.representableLength objSize = objSize
  aligned : cheri.alignment objSize ∣ objSize
  fits : numObjs * objSize ≤ dst.size
  apart : src + dst.size ≤ dst.base.base ∨ dst.base.base + dst.size ≤ src
  userSpace : src + dst.size ≤ 2 ^ 63

namespace Setup

variable (setup : Setup cheri)

/-- Where an object lies in `a_src`. -/
def objectAt (obj : Nat) : Nat := setup.src + obj * setup.objSize

/-- `captured_slots[obj] + off`, after the sweep. -/
def captured (obj off : Nat) : Cap :=
  { tag := false
    base := setup.objectAt obj
    length := setup.objSize
    address := setup.objectAt obj + off
    perms := setup.perms }

/-- The index that `my_evacuate` computes, unless it returns `NULL`. -/
def evacuee (fromAddr : Nat) : Option Nat :=
  if fromAddr < setup.src ∨ setup.src + setup.dst.size ≤ fromAddr then none
  else if setup.numObjs ≤ (fromAddr - setup.src) / setup.objSize then none
  else some ((fromAddr - setup.src) / setup.objSize)

/-- The slot of `arena_dst` that an evacuation bumps to. -/
def slotCap (slot : Nat) : Cap :=
  deriveObject setup.dst (slot * setup.objSize % setup.dst.size) setup.objSize

end Setup

/-- A one-byte access of a mutator. -/
inductive Access where
  | read
  | write (value : Nat)

/-- What an access to a byte of an object has done. -/
inductive Event where
  | read (obj off value : Nat)
  | wrote (obj off value : Nat)
deriving DecidableEq

/-- The memory, the two counters, and the accesses done so far. -/
structure World where
  mem : Nat → Nat
  dstSlot : Nat
  winners : Nat
  trace : List Event

/-- Where a mutator stands.  It means byte `off` of object `obj` and holds the
capability `p` in a register. -/
inductive Mutator where
  | holding (held : Option (Nat × Nat × Cap))
  | access (obj off : Nat) (p : Cap) (a : Access)
  | lookup (obj off : Nat) (p : Cap) (a : Access)
  | lookupAddress (obj off : Nat) (p : Cap) (a : Access)
  | evacuate (obj off : Nat) (p : Cap) (a : Access)
  | copy (obj off : Nat) (p : Cap) (a : Access) (idx slot : Nat)
      (rederived : Bool) (j : Nat)
  | insert (obj off : Nat) (p : Cap) (a : Access) (slot : Nat)
  | count (obj off : Nat) (p : Cap) (a : Access) (winner : Cap)
  | fatal

section Model

variable (setup : Setup cheri)

/-- Whether a byte access through the capability is within its bounds. -/
def inBounds (p : Cap) : Prop :=
  p.base ≤ p.address ∧ p.address < p.base + p.length

/-- The steps of a mutator and of its fault handler outside the table.  A
re-derived source capability is tagged or not, as the kernel leaves it. -/
inductive MutatorStep : World → Mutator → World → Mutator → Prop where
  | load {w : World} {held : Option (Nat × Nat × Cap)} {obj off : Nat}
      (a : Access) :
      obj < setup.numObjs → off < setup.objSize →
      MutatorStep w (.holding held) w
        (.access obj off (setup.captured obj off) a)
  | reuse {w : World} {obj off : Nat} {p : Cap} (a : Access) :
      MutatorStep w (.holding (some (obj, off, p))) w (.access obj off p a)
  | read {w : World} {obj off : Nat} {p : Cap} :
      revoked p = false → inBounds p →
      MutatorStep w (.access obj off p .read)
        { w with trace := w.trace ++ [.read obj off (w.mem p.address)] }
        (.holding (some (obj, off, p)))
  | write {w : World} {obj off value : Nat} {p : Cap} :
      revoked p = false → inBounds p →
      MutatorStep w (.access obj off p (.write value))
        { w with
          mem := Function.update w.mem p.address value
          trace := w.trace ++ [.wrote obj off value] }
        (.holding (some (obj, off, p)))
  | outOfBounds {w : World} {obj off : Nat} {p : Cap} {a : Access} :
      revoked p = false → ¬ inBounds p →
      MutatorStep w (.access obj off p a) w .fatal
  | fault {w : World} {obj off : Nat} {p : Cap} {a : Access} :
      revoked p = true →
      MutatorStep w (.access obj off p a) w (.lookup obj off p a)
  | refuse {w : World} {obj off : Nat} {p : Cap} {a : Access} :
      setup.evacuee p.base = none →
      MutatorStep w (.evacuate obj off p a) w .fatal
  | claim {w : World} {obj off idx : Nat} {p : Cap} {a : Access}
      (rederived : Bool) :
      setup.evacuee p.base = some idx →
      MutatorStep w (.evacuate obj off p a) { w with dstSlot := w.dstSlot + 1 }
        (.copy obj off p a idx w.dstSlot rederived 0)
  | copy {w : World} {obj off idx slot j : Nat} {p : Cap} {a : Access}
      {rederived : Bool} :
      j < setup.objSize →
      MutatorStep w (.copy obj off p a idx slot rederived j)
        { w with
          mem := Function.update w.mem ((setup.slotCap slot).address + j)
            (if rederived then w.mem (setup.objectAt idx + j)
              else setup.shadow idx) }
        (.copy obj off p a idx slot rederived (j + 1))
  | copied {w : World} {obj off idx slot : Nat} {p : Cap} {a : Access}
      {rederived : Bool} :
      MutatorStep w (.copy obj off p a idx slot rederived setup.objSize) w
        (.insert obj off p a slot)
  | count {w : World} {obj off : Nat} {p winner : Cap} {a : Access} :
      MutatorStep w (.count obj off p a winner)
        { w with winners := w.winners + 1 }
        (.access obj off (reapply cheri winner (offset p.address p.base)) a)

/-- The call of the table that a mutator is at. -/
def Mutator.request : Mutator → Option ForwardTable.Request
  | .lookup _ _ p _ => some (.lookup p.base)
  | .lookupAddress _ _ p _ => some (.lookup p.address)
  | .insert _ _ p _ slot => some (.casInsert p.base (setup.slotCap slot))
  | _ => none

/-- How the handler goes on with the result of the call. -/
def Mutator.resume : Mutator → Option Cap → Mutator
  | .lookup obj off p a, some fwd =>
      .access obj off (reapply cheri fwd (offset p.address p.base)) a
  | .lookup obj off p a, none =>
      if p.address ≠ p.base then .lookupAddress obj off p a
      else .evacuate obj off p a
  | .lookupAddress obj off _ a, some fwd =>
      .access obj off (reapply cheri fwd 0) a
  | .lookupAddress obj off p a, none => .evacuate obj off p a
  | .insert obj off p a slot, some winner =>
      if winner.address = (setup.slotCap slot).address then
        .count obj off p a winner
      else .access obj off (reapply cheri winner (offset p.address p.base)) a
  | .insert _ _ _ _ _, none => .fatal
  | l, _ => l

/-- The mutators as a program over the table. -/
def mutators (ι : Type*) : Client ι World Mutator ForwardTable.Request (Option Cap) :=
  { step := fun _ => MutatorStep setup
    call := Mutator.request setup
    resume := Mutator.resume setup }

end Model

/-- The objects as a program sees them: a read must find the last value
written. -/
def Event.apply (content : Nat → Nat → Nat) : Event → Option (Nat → Nat → Nat)
  | .read obj off value => if content obj off = value then some content else none
  | .wrote obj off value =>
      some (Function.update content obj
        (Function.update (content obj) off value))

/-- The contents after a sequence of accesses, unless a read went wrong. -/
def replay (content : Nat → Nat → Nat) (trace : List Event) :
    Option (Nat → Nat → Nat) :=
  trace.foldlM Event.apply content

theorem replay_append (content : Nat → Nat → Nat) (trace : List Event)
    (event : Event) :
    replay content (trace ++ [event]) =
      (replay content trace).bind fun content => event.apply content := by
  simp [replay, List.foldlM_append]

namespace Setup

variable {setup : Setup cheri}

/-- There is room for the slot, so that the bump cursor has not wrapped. -/
def HasSlot (setup : Setup cheri) (slot : Nat) : Prop :=
  (slot + 1) * setup.objSize ≤ setup.dst.size

def slotAt (setup : Setup cheri) (slot : Nat) : Nat :=
  setup.dst.base.base + slot * setup.objSize

/-- A capability to byte `off` of the copy in a slot. -/
def healed (setup : Setup cheri) (slot off : Nat) : Cap :=
  { objectCap setup.dst (setup.slotAt slot) setup.objSize with
    address := setup.slotAt slot + off }

theorem cell_unique {size a b x y : Nat} (xBelow : x < size) (yBelow : y < size)
    (same : a * size + x = b * size + y) : a = b ∧ x = y := by
  have rest : x = y := by
    have remainder := congrArg (· % size) same
    simpa [Nat.add_mod, Nat.mod_eq_of_lt xBelow, Nat.mod_eq_of_lt yBelow]
      using remainder
  have whole : a * size = b * size := by omega
  exact ⟨Nat.eq_of_mul_eq_mul_right (by omega) whole, rest⟩

theorem objectAt_unique {obj obj' off off' : Nat} (below : off < setup.objSize)
    (below' : off' < setup.objSize)
    (same : setup.objectAt obj + off = setup.objectAt obj' + off') :
    obj = obj' ∧ off = off' := by
  simp only [objectAt] at same
  exact cell_unique below below' (by omega)

theorem slotAt_unique {slot slot' off off' : Nat} (below : off < setup.objSize)
    (below' : off' < setup.objSize)
    (same : setup.slotAt slot + off = setup.slotAt slot' + off') :
    slot = slot' ∧ off = off' := by
  simp only [slotAt] at same
  exact cell_unique below below' (by omega)

theorem objectAt_injective {obj obj' : Nat}
    (same : setup.objectAt obj = setup.objectAt obj') : obj = obj' :=
  (objectAt_unique setup.objSize_pos setup.objSize_pos same).1

theorem slotAt_injective {slot slot' : Nat}
    (same : setup.slotAt slot = setup.slotAt slot') : slot = slot' :=
  (slotAt_unique setup.objSize_pos setup.objSize_pos same).1

theorem objectAt_ne_slotAt {obj off slot off' : Nat}
    (inside : obj < setup.numObjs) (below : off < setup.objSize)
    (room : setup.HasSlot slot) (below' : off' < setup.objSize) :
    setup.objectAt obj + off ≠ setup.slotAt slot + off' := by
  have fits := setup.fits
  have apart := setup.apart
  have object : (obj + 1) * setup.objSize ≤ setup.numObjs * setup.objSize :=
    Nat.mul_le_mul_right _ inside
  simp only [HasSlot, Nat.add_mul, Nat.one_mul] at room object
  simp only [objectAt, slotAt]
  omega

theorem evacuee_objectAt {obj : Nat} (inside : obj < setup.numObjs) :
    setup.evacuee (setup.objectAt obj) = some obj := by
  have fits := setup.fits
  have positive := setup.objSize_pos
  have object : (obj + 1) * setup.objSize ≤ setup.numObjs * setup.objSize :=
    Nat.mul_le_mul_right _ inside
  simp only [Nat.add_mul, Nat.one_mul] at object
  have index : (setup.objectAt obj - setup.src) / setup.objSize = obj := by
    rw [objectAt, Nat.add_sub_cancel_left, Nat.mul_div_cancel _ positive]
  have within : ¬ (setup.objectAt obj < setup.src ∨
      setup.src + setup.dst.size ≤ setup.objectAt obj) := by
    simp only [objectAt]
    omega
  rw [evacuee, if_neg within, index, if_neg (Nat.not_le.mpr inside)]

theorem slotCap_eq (laws : cheri.Laws) {slot : Nat} (room : setup.HasSlot slot) :
    setup.slotCap slot =
      objectCap setup.dst (setup.slotAt slot) setup.objSize := by
  have positive := setup.objSize_pos
  rw [HasSlot, Nat.add_mul, Nat.one_mul] at room
  have whole : slot * setup.objSize % setup.dst.size = slot * setup.objSize :=
    Nat.mod_eq_of_lt (by omega)
  have unit : cheri.alignment setup.objSize ∣ setup.dst.base.base :=
    (laws.alignment_mono (by omega)).trans setup.dst.aligned
  have placed : cheri.alignment (cheri.representableLength setup.objSize) ∣
      setup.slotAt slot := by
    rw [setup.exact, slotAt]
    exact Nat.dvd_add unit (setup.aligned.mul_left _)
  have lower : setup.dst.base.base ≤ setup.slotAt slot := by
    simp only [slotAt]
    omega
  have upper : setup.slotAt slot + cheri.representableLength setup.objSize ≤
      setup.dst.base.base + setup.dst.size := by
    rw [setup.exact, slotAt]
    omega
  have derived := derive_exact laws setup.dst lower upper placed
  rw [slotCap, deriveObject, whole, setup.dst.atStart]
  rw [setup.exact] at derived
  exact derived

theorem ftDerive_slot (laws : cheri.Laws) {slot : Nat}
    (room : setup.HasSlot slot) :
    ftDerive cheri (some setup.dst.base) (setup.slotAt slot) setup.objSize =
      some (objectCap setup.dst (setup.slotAt slot) setup.objSize) := by
  have positive := setup.objSize_pos
  rw [HasSlot, Nat.add_mul, Nat.one_mul] at room
  have unit : cheri.alignment setup.objSize ∣ setup.dst.base.base :=
    (laws.alignment_mono (by omega)).trans setup.dst.aligned
  apply ftDerive_objectCap laws setup.exact positive
  · simp only [slotAt]
    omega
  · simp only [slotAt]
    omega
  · rw [slotAt]
    exact Nat.dvd_add unit (setup.aligned.mul_left _)

theorem reapply_slot (laws : cheri.Laws) {slot obj off : Nat}
    (below : off < setup.objSize) (room : setup.HasSlot slot)
    (inside : obj < setup.numObjs) :
    reapply cheri (objectCap setup.dst (setup.slotAt slot) setup.objSize)
        (Handler.offset (setup.captured obj off).address
          (setup.captured obj off).base) =
      setup.healed slot off := by
  have fits := setup.fits
  have user := setup.userSpace
  have userDst := setup.dst.userSpace
  have object : (obj + 1) * setup.objSize ≤ setup.numObjs * setup.objSize :=
    Nat.mul_le_mul_right _ inside
  simp only [HasSlot, Nat.add_mul, Nat.one_mul] at object room
  have back : Handler.offset (setup.captured obj off).address
      (setup.captured obj off).base = off := by
    change Handler.offset (setup.objectAt obj + off) (setup.objectAt obj) = off
    rw [Handler.offset_of_le (Nat.le_add_right _ _), Nat.add_sub_cancel_left]
    rw [Nat.add_sub_cancel_left, addressSpace]
    omega
  have small : setup.slotAt slot + off < addressSpace := by
    simp only [slotAt, addressSpace]
    omega
  have covered := laws.representable_inBounds
    (objectCap setup.dst (setup.slotAt slot) setup.objSize)
    (setup.slotAt slot + off) (Nat.le_add_right _ _)
    (by simp only [objectCap]; omega)
  rw [back, reapply]
  split
  · change cheri.addressSet _ ((setup.slotAt slot + off) % addressSpace) = _
    rw [Nat.mod_eq_of_lt small, Intrinsics.addressSet, covered]
    rfl
  · rename_i zero
    have none : off = 0 := by omega
    subst none
    rfl

theorem healed_live (setup : Setup cheri) (slot off : Nat) :
    revoked (setup.healed slot off) = false := by
  have usable := setup.dst.usable
  simp [revoked, healed, objectCap, Perms.isZero, usable]

theorem healed_inBounds {slot off : Nat} (below : off < setup.objSize) :
    inBounds (setup.healed slot off) :=
  ⟨Nat.le_add_right _ _, Nat.add_lt_add_left below _⟩

theorem captured_revoked (setup : Setup cheri) (obj off : Nat) :
    revoked (setup.captured obj off) = true := rfl

end Setup

section Invariant

variable {ι : Type*} {setup : Setup cheri}

/-- A run of the mutators over the table as a map. -/
abbrev Mutators (ι : Type*) :=
  Interleaving.Config ι (World × (Nat → Option (Nat × Nat)))
    (Mutator × Option (Option Cap))

/-- The slot that an evacuation is filling or offering. -/
def slotOf : Mutator × Option (Option Cap) → Option Nat
  | (.copy _ _ _ _ _ slot _ _, _) => some slot
  | (.insert _ _ _ _ slot, none) => some slot
  | _ => none

section Knowledge

variable (setup : Setup cheri) (w : World) (links : Nat → Option (Nat × Nat))

/-- The object is forwarded to this slot. -/
def LinkedTo (obj slot : Nat) : Prop :=
  links (setup.objectAt obj) = some (setup.slotAt slot, setup.objSize)

/-- A capability for the copy that the object is forwarded to. -/
def IsCopy (obj : Nat) (fwd : Cap) : Prop :=
  ∃ slot, LinkedTo setup links obj slot ∧ setup.HasSlot slot ∧
    fwd = objectCap setup.dst (setup.slotAt slot) setup.objSize

/-- A captured capability to a byte of an object. -/
def Stale (obj off : Nat) (p : Cap) : Prop :=
  obj < setup.numObjs ∧ off < setup.objSize ∧ p = setup.captured obj off

/-- What a mutator may hold for a byte of an object. -/
def Register (obj off : Nat) (p : Cap) : Prop :=
  Stale setup obj off p ∨
    obj < setup.numObjs ∧ off < setup.objSize ∧
      ∃ slot, LinkedTo setup links obj slot ∧ p = setup.healed slot off

/-- The first bytes of the slot are those of the revoked object. -/
def Filled (obj slot n : Nat) : Prop :=
  ∀ o < n, w.mem (setup.slotAt slot + o) = setup.shadow obj

/-- The mutator has not evacuated the object yet. -/
def Unclaimed (owner : Nat → ι × Nat) (i : ι) (obj : Nat) : Prop :=
  ∀ slot < w.dstSlot, owner slot ≠ (i, obj)

/-- The slot was bumped to by this mutator, for this object. -/
def Claimed (owner : Nat → ι × Nat) (i : ι) (obj slot : Nat) : Prop :=
  slot < w.dstSlot ∧ owner slot = (i, obj)

/-- What a mutator knows, at each point and with the result of its call. -/
def Stands (owner : Nat → ι × Nat) (i : ι) :
    Mutator × Option (Option Cap) → Prop
  | (.holding none, none) => True
  | (.holding (some (obj, off, p)), none) => Register setup links obj off p
  | (.access obj off p _, none) => Register setup links obj off p
  | (.lookup obj off p _, none) => Stale setup obj off p
  | (.lookup obj off p _, some none) =>
      Stale setup obj off p ∧ Unclaimed w owner i obj
  | (.lookup obj off p _, some (some fwd)) =>
      Stale setup obj off p ∧ IsCopy setup links obj fwd
  | (.lookupAddress obj off p _, none) =>
      (Stale setup obj off p ∧ p.address ≠ p.base) ∧ Unclaimed w owner i obj
  | (.lookupAddress obj off p _, some none) =>
      Stale setup obj off p ∧ Unclaimed w owner i obj
  | (.evacuate obj off p _, none) =>
      Stale setup obj off p ∧ Unclaimed w owner i obj
  | (.copy obj off p _ idx slot _ j, none) =>
      Stale setup obj off p ∧ Claimed w owner i obj slot ∧
        idx = obj ∧ j ≤ setup.objSize ∧ Filled setup w obj slot j
  | (.insert obj off p _ slot, none) =>
      Stale setup obj off p ∧ Claimed w owner i obj slot ∧
        Filled setup w obj slot setup.objSize
  | (.insert obj off p _ slot, some (some winner)) =>
      Stale setup obj off p ∧ Claimed w owner i obj slot ∧
        IsCopy setup links obj winner
  | (.count obj off p _ winner, none) =>
      Stale setup obj off p ∧ IsCopy setup links obj winner
  | _ => False

end Knowledge

/-- The invariant.  `content` is what the objects hold for the program, and
`owner` tells which mutator bumped to a slot, and for which object. -/
structure Sound (setup : Setup cheri) (content : Nat → Nat → Nat)
    (owner : Nat → ι × Nat) (a : Mutators ι) : Prop where
  replayed : replay (fun obj _ => setup.shadow obj) a.shared.1.trace =
    some content
  source : ∀ obj off, obj < setup.numObjs → off < setup.objSize →
    a.shared.1.mem (setup.objectAt obj + off) = setup.shadow obj
  pristine : ∀ obj off, obj < setup.numObjs → off < setup.objSize →
    a.shared.2 (setup.objectAt obj) = none → content obj off = setup.shadow obj
  linked : ∀ k pair, a.shared.2 k = some pair → ∃ obj slot,
    obj < setup.numObjs ∧ k = setup.objectAt obj ∧
      pair = (setup.slotAt slot, setup.objSize) ∧
      slot < a.shared.1.dstSlot ∧ (owner slot).2 = obj ∧
      slotOf (a.locals (owner slot).1) ≠ some slot ∧
      ∀ off < setup.objSize,
        a.shared.1.mem (setup.slotAt slot + off) = content obj off
  claimed : ∀ slot < a.shared.1.dstSlot, (owner slot).2 < setup.numObjs ∧
    (a.shared.2 (setup.objectAt (owner slot).2) ≠ none ∨
      slotOf (a.locals (owner slot).1) = some slot)
  distinct : ∀ slot slot', slot < a.shared.1.dstSlot →
    slot' < a.shared.1.dstSlot → owner slot = owner slot' → slot = slot'
  stands : ∀ i, Stands setup a.shared.1 a.shared.2 owner i (a.locals i)

/-- Each mutator evacuates each object at most once. -/
def Fits (setup : Setup cheri) (ι : Type*) [Fintype ι] : Prop :=
  Fintype.card ι * setup.numObjs * setup.objSize ≤ setup.dst.size

namespace Sound

variable {content : Nat → Nat → Nat} {owner : Nat → ι × Nat} {a : Mutators ι}

/-- As many slots are bumped to as there are pairs of a mutator and an object,
at most. -/
theorem dstSlot_le [Fintype ι] (sound : Sound setup content owner a) :
    a.shared.1.dstSlot ≤ Fintype.card ι * setup.numObjs := by
  classical
  have injective : Set.InjOn owner (Finset.range a.shared.1.dstSlot) := by
    intro slot below slot' below' same
    exact sound.distinct slot slot' (by simpa using below) (by simpa using below')
      same
  have within : (Finset.range a.shared.1.dstSlot).image owner ⊆
      (Finset.univ : Finset ι) ×ˢ Finset.range setup.numObjs := by
    intro pair member
    obtain ⟨slot, below, rfl⟩ := Finset.mem_image.mp member
    simp only [Finset.mem_product, Finset.mem_univ, true_and, Finset.mem_range]
    exact (sound.claimed slot (Finset.mem_range.mp below)).1
  have count := Finset.card_le_card within
  rwa [Finset.card_image_of_injOn injective, Finset.card_range,
    Finset.card_product, Finset.card_univ, Finset.card_range] at count

theorem hasSlot [Fintype ι] (sound : Sound setup content owner a)
    (fits : Fits setup ι) {slot : Nat} (below : slot < a.shared.1.dstSlot) :
    setup.HasSlot slot := by
  have most := sound.dstSlot_le
  have covered : (slot + 1) * setup.objSize ≤
      Fintype.card ι * setup.numObjs * setup.objSize :=
    Nat.mul_le_mul_right _ (by omega)
  exact covered.trans fits

theorem linkedTo (sound : Sound setup content owner a) {obj slot : Nat}
    (linked : LinkedTo setup a.shared.2 obj slot) :
    obj < setup.numObjs ∧ slot < a.shared.1.dstSlot ∧ (owner slot).2 = obj ∧
      slotOf (a.locals (owner slot).1) ≠ some slot ∧
      ∀ off < setup.objSize,
        a.shared.1.mem (setup.slotAt slot + off) = content obj off := by
  obtain ⟨obj', slot', inside, key, pair, below, owned, idle, bytes⟩ :=
    sound.linked _ _ linked
  obtain rfl := Setup.objectAt_injective key
  obtain rfl := Setup.slotAt_injective (congrArg Prod.fst pair)
  exact ⟨inside, below, owned, idle, bytes⟩

variable [DecidableEq ι]

/-- A mutator moves on by itself.  It may let go of a slot once the object is
forwarded. -/
theorem move (sound : Sound setup content owner a) {i : ι}
    {l : Mutator × Option (Option Cap)}
    (stands : Stands setup a.shared.1 a.shared.2 owner i l)
    (slots : slotOf l = slotOf (a.locals i) ∨ slotOf l = none ∧
      ∀ slot, slotOf (a.locals i) = some slot →
        a.shared.2 (setup.objectAt (owner slot).2) ≠ none) :
    Sound setup content owner (a.advance i a.shared l) where
  replayed := sound.replayed
  source := sound.source
  pristine := sound.pristine
  linked := by
    intro k pair link
    obtain ⟨obj, slot, inside, key, value, below, owned, idle, bytes⟩ :=
      sound.linked k pair link
    refine ⟨obj, slot, inside, key, value, below, owned, ?_, bytes⟩
    by_cases here : (owner slot).1 = i
    · rw [here] at idle ⊢
      rw [Interleaving.Config.advance_locals_self]
      rcases slots with same | ⟨none, _⟩
      · rwa [same]
      · rw [none]
        exact Option.some_ne_none _ |>.symm
    · rwa [a.advance_locals_of_ne _ _ here]
  claimed := by
    intro slot below
    obtain ⟨inside, linked | filling⟩ := sound.claimed slot below
    · exact ⟨inside, .inl linked⟩
    · refine ⟨inside, ?_⟩
      by_cases here : (owner slot).1 = i
      · rw [here] at filling ⊢
        rw [Interleaving.Config.advance_locals_self]
        rcases slots with same | ⟨_, forwarded⟩
        · exact .inr (same.trans filling)
        · exact .inl (forwarded slot filling)
      · rw [a.advance_locals_of_ne _ _ here]
        exact .inr filling
  distinct := sound.distinct
  stands := a.forall_advance
    (P := fun j l => Stands setup a.shared.1 a.shared.2 owner j l) stands
    fun j _ => sound.stands j

end Sound

theorem Stands.mono {w w' : World} {links links' : Nat → Option (Nat × Nat)}
    {owner owner' : Nat → ι × Nat} {i : ι} {l : Mutator × Option (Option Cap)}
    (stands : Stands setup w links owner i l)
    (link : ∀ obj slot, LinkedTo setup links obj slot →
      LinkedTo setup links' obj slot)
    (unclaimed : ∀ obj, slotOf l = none → Unclaimed w owner i obj →
      Unclaimed w' owner' i obj)
    (claimed : ∀ obj slot, Claimed w owner i obj slot →
      Claimed w' owner' i obj slot)
    (filled : ∀ obj slot n, slotOf l = some slot →
      Claimed w owner i obj slot → n ≤ setup.objSize →
      Filled setup w obj slot n → Filled setup w' obj slot n) :
    Stands setup w' links' owner' i l := by
  have register : ∀ {obj off p}, Register setup links obj off p →
      Register setup links' obj off p := by
    rintro obj off p (stale | ⟨inside, below, slot, linked, here⟩)
    · exact .inl stale
    · exact .inr ⟨inside, below, slot, link _ _ linked, here⟩
  have copied : ∀ {obj fwd}, IsCopy setup links obj fwd →
      IsCopy setup links' obj fwd := by
    rintro obj fwd ⟨slot, linked, room, here⟩
    exact ⟨slot, link _ _ linked, room, here⟩
  obtain ⟨l, outcome⟩ := l
  cases l with
  | holding held =>
      rcases held with _ | ⟨obj, off, p⟩
      · cases outcome with
        | none => trivial
        | some _ => exact stands.elim
      · cases outcome with
        | none => exact register stands
        | some _ => exact stands.elim
  | access obj off p a =>
      cases outcome with
      | none => exact register stands
      | some _ => exact stands.elim
  | lookup obj off p a =>
      rcases outcome with _ | _ | fwd
      · exact stands
      · exact ⟨stands.1, unclaimed _ rfl stands.2⟩
      · exact ⟨stands.1, copied stands.2⟩
  | lookupAddress obj off p a =>
      rcases outcome with _ | _ | fwd
      · exact ⟨stands.1, unclaimed _ rfl stands.2⟩
      · exact ⟨stands.1, unclaimed _ rfl stands.2⟩
      · exact stands.elim
  | evacuate obj off p a =>
      cases outcome with
      | none => exact ⟨stands.1, unclaimed _ rfl stands.2⟩
      | some _ => exact stands.elim
  | copy obj off p a idx slot rederived j =>
      cases outcome with
      | none =>
          obtain ⟨stale, mine, same, within, bytes⟩ := stands
          exact ⟨stale, claimed _ _ mine, same, within,
            filled _ _ _ rfl mine within bytes⟩
      | some _ => exact stands.elim
  | insert obj off p a slot =>
      rcases outcome with _ | _ | winner
      · obtain ⟨stale, mine, bytes⟩ := stands
        exact ⟨stale, claimed _ _ mine,
          filled _ _ _ rfl mine (Nat.le_refl _) bytes⟩
      · exact stands.elim
      · obtain ⟨stale, mine, copy⟩ := stands
        exact ⟨stale, claimed _ _ mine, copied copy⟩
  | count obj off p a winner =>
      cases outcome with
      | none => exact ⟨stands.1, copied stands.2⟩
      | some _ => exact stands.elim
  | fatal => cases outcome <;> exact stands.elim

theorem Stands.claimed_of_slotOf {w : World}
    {links : Nat → Option (Nat × Nat)} {owner : Nat → ι × Nat} {i : ι}
    {l : Mutator × Option (Option Cap)} {slot : Nat}
    (stands : Stands setup w links owner i l)
    (filling : slotOf l = some slot) :
    slot < w.dstSlot ∧ (owner slot).1 = i := by
  obtain ⟨l, outcome⟩ := l
  cases l with
  | copy obj off p a idx slot' rederived j =>
      cases filling
      cases outcome with
      | none =>
          obtain ⟨_, ⟨below, mine⟩, _⟩ := stands
          exact ⟨below, congrArg Prod.fst mine⟩
      | some _ => exact stands.elim
  | insert obj off p a slot' =>
      cases outcome with
      | none =>
          cases filling
          obtain ⟨_, ⟨below, mine⟩, _⟩ := stands
          exact ⟨below, congrArg Prod.fst mine⟩
      | some _ => cases filling
  | _ => cases filling

namespace Sound

variable {content : Nat → Nat → Nat} {owner : Nat → ι × Nat} {a : Mutators ι}

/-- The trace gets longer, or the winners are counted. -/
theorem recount (sound : Sound setup content owner a) (winners : Nat)
    {trace : List Event}
    (replayed : replay (fun obj _ => setup.shadow obj) trace = some content) :
    Sound setup content owner
      { a with shared := ({ a.shared.1 with
          trace := trace
          winners := winners }, a.shared.2) } where
  replayed := replayed
  source := sound.source
  pristine := sound.pristine
  linked := sound.linked
  claimed := sound.claimed
  distinct := sound.distinct
  stands := fun i => (sound.stands i).mono (fun _ _ linked => linked)
    (fun _ _ unclaimed => unclaimed) (fun _ _ claimed => claimed)
    (fun _ _ _ _ _ _ filled => filled)

/-- A write through a healed register reaches the copy, and nothing else. -/
theorem store [Fintype ι] (sound : Sound setup content owner a)
    (fits : Fits setup ι) {obj off slot value : Nat}
    (below : off < setup.objSize)
    (linked : LinkedTo setup a.shared.2 obj slot) :
    Sound setup
      (Function.update content obj (Function.update (content obj) off value))
      owner
      { a with shared := ({ a.shared.1 with
          mem := Function.update a.shared.1.mem (setup.slotAt slot + off) value
          trace := a.shared.1.trace ++ [.wrote obj off value] },
        a.shared.2) } := by
  obtain ⟨inside, used, owned, idle, _⟩ := sound.linkedTo linked
  have room := sound.hasSlot fits used
  have elsewhere : ∀ obj' off', obj' ≠ obj ∨ off' ≠ off →
      Function.update content obj (Function.update (content obj) off value)
        obj' off' = content obj' off' := by
    intro obj' off' other
    by_cases same : obj' = obj
    · subst same
      rw [Function.update_self, Function.update_of_ne (other.resolve_left
        fun differs => differs rfl)]
    · rw [Function.update_of_ne same]
  constructor
  · rw [replay_append, sound.replayed]
    rfl
  · intro obj' off' inside' below'
    change Function.update _ _ _ _ = _
    rw [Function.update_of_ne (Setup.objectAt_ne_slotAt inside' below' room
      below)]
    exact sound.source obj' off' inside' below'
  · intro obj' off' inside' below' missing
    have other : obj' ≠ obj := by
      rintro rfl
      rw [show a.shared.2 (setup.objectAt obj') = _ from linked] at missing
      cases missing
    rw [elsewhere _ _ (.inl other)]
    exact sound.pristine obj' off' inside' below' missing
  · intro k pair link
    obtain ⟨obj', slot', inside', key, value', below', owned', idle', bytes⟩ :=
      sound.linked k pair link
    refine ⟨obj', slot', inside', key, value', below', owned', idle', ?_⟩
    intro off' small
    change Function.update _ _ _ _ = _
    by_cases here : setup.slotAt slot' + off' = setup.slotAt slot + off
    · obtain ⟨rfl, rfl⟩ := Setup.slotAt_unique small below here
      obtain rfl := owned.symm.trans owned'
      rw [Function.update_self, Function.update_self, Function.update_self]
    · rw [Function.update_of_ne here, bytes off' small, elsewhere]
      by_contra both
      push Not at both
      obtain ⟨rfl, rfl⟩ := both
      rw [key, show a.shared.2 (setup.objectAt obj') = _ from linked, value']
        at link
      have same : setup.slotAt slot = setup.slotAt slot' :=
        congrArg Prod.fst (Option.some.inj link)
      exact here (by rw [same])
  · exact sound.claimed
  · exact sound.distinct
  · intro j
    refine (sound.stands j).mono (fun _ _ linked => linked)
      (fun _ _ unclaimed => unclaimed) (fun _ _ claimed => claimed) ?_
    intro obj' slot' n filling claimed within filled o small
    change Function.update _ _ _ _ = _
    rw [Function.update_of_ne]
    · exact filled o small
    · intro same
      obtain ⟨rfl, _⟩ := Setup.slotAt_unique (by omega) below same
      obtain ⟨_, mine⟩ := (sound.stands j).claimed_of_slotOf filling
      rw [mine] at idle
      exact idle filling

theorem copyByte [Fintype ι] (sound : Sound setup content owner a)
    (fits : Fits setup ι) {i : ι} {slot j value : Nat}
    (filling : slotOf (a.locals i) = some slot) (below : j < setup.objSize)
    (byte : value = setup.shadow (owner slot).2) :
    Sound setup content owner
      { a with shared := ({ a.shared.1 with
          mem := Function.update a.shared.1.mem (setup.slotAt slot + j) value },
        a.shared.2) } := by
  obtain ⟨used, mine⟩ := (sound.stands i).claimed_of_slotOf filling
  have room := sound.hasSlot fits used
  constructor
  · exact sound.replayed
  · intro obj off inside small
    change Function.update _ _ _ _ = _
    rw [Function.update_of_ne (Setup.objectAt_ne_slotAt inside small room below)]
    exact sound.source obj off inside small
  · exact sound.pristine
  · intro k pair link
    obtain ⟨obj, slot', inside, key, pair_eq, below', owned, idle, bytes⟩ :=
      sound.linked k pair link
    refine ⟨obj, slot', inside, key, pair_eq, below', owned, idle, ?_⟩
    intro off small
    change Function.update _ _ _ _ = _
    rw [Function.update_of_ne]
    · exact bytes off small
    · intro same
      obtain ⟨rfl, _⟩ := Setup.slotAt_unique small below same
      rw [mine] at idle
      exact idle filling
  · exact sound.claimed
  · exact sound.distinct
  · intro k
    refine (sound.stands k).mono (fun _ _ linked => linked)
      (fun _ _ unclaimed => unclaimed) (fun _ _ claimed => claimed) ?_
    intro obj slot' n filling' claimed within filled o small
    change Function.update _ _ _ _ = _
    by_cases same : setup.slotAt slot' + o = setup.slotAt slot + j
    · obtain ⟨rfl, rfl⟩ := Setup.slotAt_unique (by omega) below same
      rw [same, Function.update_self, byte, claimed.2]
    · rw [Function.update_of_ne same]
      exact filled o small

theorem bump [DecidableEq ι] (sound : Sound setup content owner a) {i : ι}
    {obj : Nat} {l : Mutator × Option (Option Cap)}
    (inside : obj < setup.numObjs)
    (unclaimed : Unclaimed a.shared.1 owner i obj)
    (before : slotOf (a.locals i) = none)
    (after : slotOf l = some a.shared.1.dstSlot)
    (stands : Stands setup { a.shared.1 with dstSlot := a.shared.1.dstSlot + 1 }
      a.shared.2 (Function.update owner a.shared.1.dstSlot (i, obj)) i l) :
    Sound setup content (Function.update owner a.shared.1.dstSlot (i, obj))
      (a.advance i ({ a.shared.1 with dstSlot := a.shared.1.dstSlot + 1 },
        a.shared.2) l) := by
  have old : ∀ slot, slot < a.shared.1.dstSlot →
      Function.update owner a.shared.1.dstSlot (i, obj) slot = owner slot := by
    intro slot below
    exact Function.update_of_ne (Nat.ne_of_lt below) _ _
  constructor
  · exact sound.replayed
  · exact sound.source
  · exact sound.pristine
  · intro k pair link
    obtain ⟨obj', slot, inside', key, value, below, owned, idle, bytes⟩ :=
      sound.linked k pair link
    refine ⟨obj', slot, inside', key, value, Nat.lt_succ_of_lt below, ?_, ?_,
      bytes⟩
    · rw [old slot below]
      exact owned
    · rw [old slot below]
      by_cases here : (owner slot).1 = i
      · rw [here, Interleaving.Config.advance_locals_self, after]
        intro same
        cases same
        exact Nat.lt_irrefl _ below
      · rwa [a.advance_locals_of_ne _ _ here]
  · intro slot below
    by_cases newest : slot = a.shared.1.dstSlot
    · subst newest
      rw [Function.update_self, Interleaving.Config.advance_locals_self]
      exact ⟨inside, .inr after⟩
    · have earlier : slot < a.shared.1.dstSlot := by
        change slot < a.shared.1.dstSlot + 1 at below
        omega
      rw [old slot earlier]
      obtain ⟨inside', linked | filling⟩ := sound.claimed slot earlier
      · exact ⟨inside', .inl linked⟩
      · refine ⟨inside', .inr ?_⟩
        rwa [a.advance_locals_of_ne]
        intro here
        rw [here, before] at filling
        cases filling
  · intro slot slot' below below' same
    change slot < a.shared.1.dstSlot + 1 at below
    change slot' < a.shared.1.dstSlot + 1 at below'
    by_cases newest : slot = a.shared.1.dstSlot
    · by_cases newest' : slot' = a.shared.1.dstSlot
      · rw [newest, newest']
      · rw [newest, Function.update_self, old slot' (by omega)] at same
        exact absurd same.symm (unclaimed slot' (by omega))
    · by_cases newest' : slot' = a.shared.1.dstSlot
      · rw [newest', Function.update_self, old slot (by omega)] at same
        exact absurd same (unclaimed slot (by omega))
      · rw [old slot (by omega), old slot' (by omega)] at same
        exact sound.distinct slot slot' (by omega) (by omega) same
  · refine a.forall_advance (P := fun j l => Stands setup _ _ _ j l) stands ?_
    intro j here
    refine (sound.stands j).mono (fun _ _ linked => linked) ?_ ?_
      (fun _ _ _ _ _ _ filled => filled)
    · intro obj' _ free slot below
      change slot < a.shared.1.dstSlot + 1 at below
      by_cases newest : slot = a.shared.1.dstSlot
      · rw [newest, Function.update_self]
        intro same
        exact here (congrArg Prod.fst same).symm
      · rw [old slot (by omega)]
        exact free slot (by omega)
    · rintro obj' slot ⟨below, mine⟩
      refine ⟨Nat.lt_succ_of_lt below, ?_⟩
      rw [old slot below, mine]

/-- A mutator wins: its slot becomes the copy of the object, and holds what
the object held when it was revoked. -/
theorem publish [DecidableEq ι] (sound : Sound setup content owner a) {i : ι}
    {obj slot : Nat} {l : Mutator × Option (Option Cap)}
    {links : Nat → Option (Nat × Nat)}
    (inside : obj < setup.numObjs)
    (missing : a.shared.2 (setup.objectAt obj) = none)
    (new : LinkedTo setup links obj slot)
    (others : ∀ key, key ≠ setup.objectAt obj → links key = a.shared.2 key)
    (claimed : Claimed a.shared.1 owner i obj slot)
    (filled : Filled setup a.shared.1 obj slot setup.objSize)
    (before : slotOf (a.locals i) = some slot) (after : slotOf l = none)
    (stands : Stands setup a.shared.1 links owner i l) :
    Sound setup content owner (a.advance i (a.shared.1, links) l) := by
  obtain ⟨below, mine⟩ := claimed
  constructor
  · exact sound.replayed
  · exact sound.source
  · intro obj' off inside' small unlinked
    have unlinked : links (setup.objectAt obj') = none := unlinked
    have other : setup.objectAt obj' ≠ setup.objectAt obj := by
      intro same
      rw [same, show links (setup.objectAt obj) = _ from new] at unlinked
      cases unlinked
    rw [others _ other] at unlinked
    exact sound.pristine obj' off inside' small unlinked
  · intro k pair link
    have link : links k = some pair := link
    by_cases here : k = setup.objectAt obj
    · subst here
      rw [show links (setup.objectAt obj) = _ from new] at link
      cases link
      refine ⟨obj, slot, inside, rfl, rfl, below, by rw [mine], ?_, ?_⟩
      · rw [mine, Interleaving.Config.advance_locals_self, after]
        exact (Option.some_ne_none _).symm
      · intro off small
        exact (filled off small).trans
          (sound.pristine obj off inside small missing).symm
    · rw [others k here] at link
      obtain ⟨obj', slot', inside', key, value, below', owned, idle, bytes⟩ :=
        sound.linked k pair link
      refine ⟨obj', slot', inside', key, value, below', owned, ?_, bytes⟩
      by_cases same : (owner slot').1 = i
      · rw [same, Interleaving.Config.advance_locals_self, after]
        exact (Option.some_ne_none _).symm
      · rwa [a.advance_locals_of_ne _ _ same]
  · intro slot' below'
    obtain ⟨inside', linked | filling⟩ := sound.claimed slot' below'
    · refine ⟨inside', .inl ?_⟩
      have other : setup.objectAt (owner slot').2 ≠ setup.objectAt obj := by
        intro same
        exact linked (by rw [same, missing])
      change links _ ≠ none
      rwa [others _ other]
    · refine ⟨inside', ?_⟩
      by_cases here : (owner slot').1 = i
      · rw [here, before] at filling
        cases filling
        left
        change links _ ≠ none
        rw [mine, show links (setup.objectAt obj) = _ from new]
        exact Option.some_ne_none _
      · rw [a.advance_locals_of_ne _ _ here]
        exact .inr filling
  · exact sound.distinct
  · refine a.forall_advance (P := fun j l => Stands setup _ _ _ j l) stands ?_
    intro j _
    refine (sound.stands j).mono ?_ (fun _ _ unclaimed => unclaimed)
      (fun _ _ claimed => claimed) (fun _ _ _ _ _ _ filled => filled)
    intro obj' slot' linked
    have other : setup.objectAt obj' ≠ setup.objectAt obj := by
      intro same
      rw [LinkedTo, same, missing] at linked
      cases linked
    exact (others _ other).trans linked

/-- No link starts at a slot, so every chain has one link. -/
theorem resolve_linked [Fintype ι] (sound : Sound setup content owner a)
    (fits : Fits setup ι) {obj slot : Nat}
    (linked : LinkedTo setup a.shared.2 obj slot) :
    resolve a.shared.2 (setup.objectAt obj) =
      some (setup.slotAt slot, setup.objSize) := by
  have ended : a.shared.2 (setup.slotAt slot) = none := by
    cases link : a.shared.2 (setup.slotAt slot) with
    | none => rfl
    | some pair =>
        obtain ⟨obj', _, inside, key, _⟩ := sound.linked _ _ link
        obtain ⟨_, used, _⟩ := sound.linkedTo linked
        have apart := Setup.objectAt_ne_slotAt inside setup.objSize_pos
          (sound.hasSlot fits used) setup.objSize_pos
        exact absurd key.symm apart
  have link : a.shared.2 (setup.objectAt obj) = _ := linked
  rw [resolve, link]
  exact chase_terminal (.inl ended) _

theorem derived_linked [Fintype ι] (laws : cheri.Laws)
    (sound : Sound setup content owner a) (fits : Fits setup ι)
    {obj slot : Nat} (linked : LinkedTo setup a.shared.2 obj slot) :
    derived cheri (some setup.dst.base)
        (resolve a.shared.2 (setup.objectAt obj)) =
      some (objectCap setup.dst (setup.slotAt slot) setup.objSize) := by
  rw [sound.resolve_linked fits linked]
  exact Setup.ftDerive_slot laws
    (sound.hasSlot fits (sound.linkedTo linked).2.1)

theorem exists_slot (sound : Sound setup content owner a) {obj : Nat}
    (forwarded : a.shared.2 (setup.objectAt obj) ≠ none) :
    ∃ slot, LinkedTo setup a.shared.2 obj slot := by
  obtain ⟨pair, link⟩ := Option.ne_none_iff_exists'.mp forwarded
  obtain ⟨obj', slot, _, key, value, _⟩ := sound.linked _ _ link
  obtain rfl := Setup.objectAt_injective key
  exact ⟨slot, by rw [LinkedTo, link, value]⟩

/-- A lookup of a forwarded object finds its copy. -/
theorem derived_copy [Fintype ι] (laws : cheri.Laws)
    (sound : Sound setup content owner a) (fits : Fits setup ι) {obj : Nat}
    (forwarded : a.shared.2 (setup.objectAt obj) ≠ none) :
    ∃ fwd, derived cheri (some setup.dst.base)
        (resolve a.shared.2 (setup.objectAt obj)) = some fwd ∧
      IsCopy setup a.shared.2 obj fwd := by
  obtain ⟨slot, linked⟩ := sound.exists_slot forwarded
  exact ⟨_, sound.derived_linked laws fits linked, slot, linked,
    sound.hasSlot fits (sound.linkedTo linked).2.1, rfl⟩

theorem register_of_copy (laws : cheri.Laws) {links : Nat → Option (Nat × Nat)}
    {obj off : Nat} {p fwd : Cap} (stale : Stale setup obj off p)
    (copy : IsCopy setup links obj fwd) :
    Register setup links obj off
      (reapply cheri fwd (Handler.offset p.address p.base)) := by
  obtain ⟨inside, below, rfl⟩ := stale
  obtain ⟨slot, linked, room, rfl⟩ := copy
  rw [Setup.reapply_slot laws below room inside]
  exact .inr ⟨inside, below, slot, linked, rfl⟩

theorem resolve_other (sound : Sound setup content owner a) {k : Nat}
    (other : ∀ obj, k ≠ setup.objectAt obj) : resolve a.shared.2 k = none := by
  cases link : a.shared.2 k with
  | none => simp only [resolve, link]
  | some pair =>
      obtain ⟨obj, _, _, key, _⟩ := sound.linked k pair link
      exact absurd key (other obj)

variable [DecidableEq ι] [Fintype ι]

/-- One round of the copy loop. -/
theorem copy_step (laws : cheri.Laws) (fits : Fits setup ι)
    (sound : Sound setup content owner a) {i : ι} {obj off idx slot j : Nat}
    {p : Cap} {access : Access} {rederived : Bool}
    (here : a.locals i = (.copy obj off p access idx slot rederived j, none))
    (more : j < setup.objSize) :
    Sound setup content owner
      (a.advance i
        ({ a.shared.1 with
          mem := Function.update a.shared.1.mem
            ((setup.slotCap slot).address + j)
            (if rederived then a.shared.1.mem (setup.objectAt idx + j)
              else setup.shadow idx) }, a.shared.2)
        (.copy obj off p access idx slot rederived (j + 1), none)) := by
  have stands := sound.stands i
  have before : slotOf (a.locals i) = some slot := by
    rw [here]
    rfl
  rw [here] at stands
  obtain ⟨stale, claimed, rfl, _, filled⟩ := stands
  have byte : (if rederived then a.shared.1.mem (setup.objectAt idx + j)
      else setup.shadow idx) = setup.shadow (owner slot).2 := by
    rw [claimed.2, sound.source idx j stale.1 more]
    exact ite_self _
  have next := sound.copyByte fits before more byte
  have start : (setup.slotCap slot).address = setup.slotAt slot := by
    rw [Setup.slotCap_eq laws (sound.hasSlot fits claimed.1)]
    rfl
  rw [start]
  refine next.move ⟨stale, claimed, rfl, more, ?_⟩ (.inl before.symm)
  intro o small
  change Function.update _ _ _ _ = _
  by_cases last : o = j
  · rw [last, Function.update_self, byte, claimed.2]
  · rw [Function.update_of_ne]
    · exact filled o (by omega)
    · omega

theorem own_step (laws : cheri.Laws) (fits : Fits setup ι)
    (sound : Sound setup content owner a) {i : ι} {w : World} {l l' : Mutator}
    (here : a.locals i = (l, none))
    (stepped : MutatorStep setup a.shared.1 l w l') :
    ∃ content' owner', Sound setup content' owner'
      (a.advance i (w, a.shared.2) (l', none)) := by
  have stands := sound.stands i
  have before : slotOf (a.locals i) = slotOf (l, none) := by rw [here]
  rw [here] at stands
  cases stepped with
  | load access inside below =>
      exact ⟨content, owner, sound.move (.inl ⟨inside, below, rfl⟩)
        (.inl before.symm)⟩
  | reuse access => exact ⟨content, owner, sound.move stands (.inl before.symm)⟩
  | @read obj off p live bounds =>
      rcases stands with ⟨_, _, rfl⟩ | ⟨inside, below, slot, linked, rfl⟩
      · cases live
      · have value := (sound.linkedTo linked).2.2.2.2 off below
        have replayed : replay (fun obj _ => setup.shadow obj)
            (a.shared.1.trace ++ [.read obj off
              (a.shared.1.mem (setup.healed slot off).address)]) =
            some content := by
          rw [replay_append, sound.replayed]
          exact if_pos value.symm
        have next := sound.recount a.shared.1.winners replayed
        exact ⟨content, owner, next.move
          (.inr ⟨inside, below, slot, linked, rfl⟩) (.inl before.symm)⟩
  | @write obj off value p live bounds =>
      rcases stands with ⟨_, _, rfl⟩ | ⟨inside, below, slot, linked, rfl⟩
      · cases live
      · have next := @store _ _ _ _ _ _ _ sound fits _ off slot value below
          linked
        exact ⟨_, owner, next.move
          (.inr ⟨inside, below, slot, linked, rfl⟩) (.inl before.symm)⟩
  | outOfBounds live outside =>
      rcases stands with ⟨_, _, rfl⟩ | ⟨_, below, slot, _, rfl⟩
      · cases live
      · exact absurd (Setup.healed_inBounds below) outside
  | fault gone =>
      rcases stands with stale | ⟨_, _, slot, _, rfl⟩
      · exact ⟨content, owner, sound.move stale (.inl before.symm)⟩
      · rw [Setup.healed_live] at gone
        cases gone
  | refuse refused =>
      obtain ⟨⟨inside, _, rfl⟩, _⟩ := stands
      have found := Setup.evacuee_objectAt inside
      cases refused.symm.trans found
  | @claim obj off idx p access rederived found =>
      obtain ⟨stale, unclaimed⟩ := stands
      obtain ⟨inside, below, rfl⟩ := id stale
      have same : idx = obj := by
        have again := Setup.evacuee_objectAt inside
        exact Option.some.inj (found.symm.trans again)
      subst same
      refine ⟨content, _, sound.bump inside unclaimed before rfl
        ⟨stale, ⟨Nat.lt_succ_self _, Function.update_self ..⟩, rfl,
          Nat.zero_le _, ?_⟩⟩
      intro o small
      exact absurd small (Nat.not_lt_zero o)
  | copy more => exact ⟨content, owner, sound.copy_step laws fits here more⟩
  | @copied obj off idx slot p access rederived =>
      obtain ⟨stale, claimed, rfl, _, filled⟩ := stands
      exact ⟨content, owner, sound.move ⟨stale, claimed, filled⟩
        (.inl before.symm)⟩
  | count =>
      obtain ⟨stale, copy⟩ := stands
      have next := sound.recount (a.shared.1.winners + 1) sound.replayed
      exact ⟨content, owner, next.move (register_of_copy laws stale copy)
        (.inl before.symm)⟩

/-- A lookup by the base finds the copy of a forwarded object.  Otherwise no
slot is this mutator's for it. -/
theorem lookup_step (laws : cheri.Laws) (fits : Fits setup ι)
    (sound : Sound setup content owner a) {i : ι} {obj off : Nat} {p : Cap}
    {access : Access} (here : a.locals i = (.lookup obj off p access, none)) :
    Sound setup content owner
      (a.advance i a.shared (.lookup obj off p access,
        some (derived cheri (some setup.dst.base)
          (resolve a.shared.2 p.base)))) := by
  have stands := sound.stands i
  have before : slotOf (a.locals i) = none := by
    rw [here]
    rfl
  rw [here] at stands
  obtain ⟨inside, below, rfl⟩ := id stands
  change Sound setup content owner (a.advance i a.shared
    (_, some (derived cheri (some setup.dst.base)
      (resolve a.shared.2 (setup.objectAt obj)))))
  by_cases unlinked : a.shared.2 (setup.objectAt obj) = none
  · rw [show derived cheri (some setup.dst.base)
      (resolve a.shared.2 (setup.objectAt obj)) = none by
        simp only [resolve, unlinked, derived]]
    refine sound.move ⟨stands, ?_⟩ (.inl before.symm)
    intro slot used mine
    rcases (sound.claimed slot used).2 with linked | filling
    · rw [mine] at linked
      exact linked unlinked
    · rw [mine, before] at filling
      cases filling
  · obtain ⟨fwd, found, copy⟩ := sound.derived_copy laws fits unlinked
    rw [found]
    exact sound.move ⟨stands, copy⟩ (.inl before.symm)

omit [Fintype ι] in
/-- No object starts at an address inside another one. -/
theorem lookupAddress_step (sound : Sound setup content owner a) {i : ι}
    {obj off : Nat} {p : Cap} {access : Access}
    (here : a.locals i = (.lookupAddress obj off p access, none)) :
    Sound setup content owner
      (a.advance i a.shared (.lookupAddress obj off p access,
        some (derived cheri (some setup.dst.base)
          (resolve a.shared.2 p.address)))) := by
  have stands := sound.stands i
  have before : slotOf (a.locals i) = none := by
    rw [here]
    rfl
  rw [here] at stands
  obtain ⟨⟨stale, interior⟩, unclaimed⟩ := stands
  obtain ⟨inside, below, rfl⟩ := id stale
  have missed : derived cheri (some setup.dst.base)
      (resolve a.shared.2 (setup.captured obj off).address) = none := by
    rw [sound.resolve_other, derived]
    intro obj' same
    obtain ⟨rfl, rfl⟩ := Setup.objectAt_unique below setup.objSize_pos
      (same : setup.objectAt obj + off = setup.objectAt obj' + 0)
    exact interior rfl
  rw [missed]
  exact sound.move ⟨stale, unclaimed⟩ (.inl before.symm)

/-- The insertion publishes the mutator's slot, or finds another copy. -/
theorem insert_step (laws : cheri.Laws) (fits : Fits setup ι)
    (sound : Sound setup content owner a) {i : ι} {obj off slot : Nat}
    {p : Cap} {access : Access} {links : Nat → Option (Nat × Nat)}
    {r : Option Cap}
    (here : a.locals i = (.insert obj off p access slot, none))
    (effected : AtMap cheri (some setup.dst.base)
      (.casInsert p.base (setup.slotCap slot)) a.shared.2 links r) :
    Sound setup content owner
      (a.advance i (a.shared.1, links)
        (.insert obj off p access slot, some r)) := by
  have stands := sound.stands i
  have before : slotOf (a.locals i) = some slot := by
    rw [here]
    rfl
  rw [here] at stands
  obtain ⟨stale, claimed, filled⟩ := stands
  obtain ⟨inside, below, rfl⟩ := id stale
  have room := sound.hasSlot fits claimed.1
  have own := Setup.slotCap_eq laws room
  cases effected with
  | inserted _ missing =>
      rw [own]
      change Sound setup content owner (a.advance i (a.shared.1,
        Function.update a.shared.2 (setup.objectAt obj)
          (some (setup.slotAt slot, setup.objSize)))
        (_, some (ftDerive cheri (some setup.dst.base) (setup.slotAt slot)
          setup.objSize)))
      rw [Setup.ftDerive_slot laws room]
      have linked : LinkedTo setup (Function.update a.shared.2
          (setup.objectAt obj) (some (setup.slotAt slot, setup.objSize)))
          obj slot := Function.update_self ..
      exact sound.publish inside missing linked
        (fun _ other => Function.update_of_ne other _ _) claimed filled
        before rfl ⟨stale, claimed, slot, linked, room, rfl⟩
  | present _ forwarded =>
      obtain ⟨fwd, found, copy⟩ := sound.derived_copy laws fits forwarded
      change Sound setup content owner (a.advance i a.shared
        (_, some (derived cheri (some setup.dst.base)
          (resolve a.shared.2 (setup.objectAt obj)))))
      rw [found]
      refine sound.move ⟨stale, claimed, copy⟩ (.inr ⟨rfl, ?_⟩)
      intro slot' filling
      rw [before] at filling
      cases filling
      rw [claimed.2]
      exact forwarded

theorem effect_step (laws : cheri.Laws) (fits : Fits setup ι)
    (sound : Sound setup content owner a) {i : ι} {l : Mutator}
    {request : ForwardTable.Request} {links : Nat → Option (Nat × Nat)}
    {r : Option Cap} (here : a.locals i = (l, none))
    (asked : l.request setup = some request)
    (effected : AtMap cheri (some setup.dst.base) request a.shared.2 links r) :
    Sound setup content owner
      (a.advance i (a.shared.1, links) (l, some r)) := by
  cases l with
  | lookup obj off p access =>
      cases asked
      cases effected
      exact sound.lookup_step laws fits here
  | lookupAddress obj off p access =>
      cases asked
      cases effected
      exact sound.lookupAddress_step here
  | insert obj off p access slot =>
      cases asked
      exact sound.insert_step laws fits here effected
  | _ => cases asked

omit [Fintype ι] in
theorem leave_step (laws : cheri.Laws) (sound : Sound setup content owner a)
    {i : ι} {l : Mutator} {r : Option Cap} (here : a.locals i = (l, some r)) :
    Sound setup content owner
      (a.advance i a.shared (l.resume setup r, none)) := by
  have stands := sound.stands i
  have before : slotOf (a.locals i) = slotOf (l, some r) := by rw [here]
  rw [here] at stands
  cases l with
  | lookup obj off p access =>
      cases r with
      | none =>
          obtain ⟨stale, unclaimed⟩ := stands
          by_cases interior : p.address ≠ p.base
          · rw [show Mutator.resume setup (.lookup obj off p access) none =
              .lookupAddress obj off p access from if_pos interior]
            exact sound.move ⟨⟨stale, interior⟩, unclaimed⟩ (.inl before.symm)
          · rw [show Mutator.resume setup (.lookup obj off p access) none =
              .evacuate obj off p access from if_neg interior]
            exact sound.move ⟨stale, unclaimed⟩ (.inl before.symm)
      | some fwd =>
          exact sound.move (register_of_copy laws stands.1 stands.2)
            (.inl before.symm)
  | lookupAddress obj off p access =>
      cases r with
      | none => exact sound.move stands (.inl before.symm)
      | some fwd => exact stands.elim
  | insert obj off p access slot =>
      cases r with
      | none => exact stands.elim
      | some winner =>
          obtain ⟨stale, claimed, copy⟩ := stands
          by_cases own : winner.address = (setup.slotCap slot).address
          · rw [show Mutator.resume setup (.insert obj off p access slot)
              (some winner) = .count obj off p access winner from if_pos own]
            exact sound.move ⟨stale, copy⟩ (.inl before.symm)
          · rw [show Mutator.resume setup (.insert obj off p access slot)
              (some winner) = .access obj off (reapply cheri winner
                (Handler.offset p.address p.base)) access from if_neg own]
            exact sound.move (register_of_copy laws stale copy)
              (.inl before.symm)
  | holding held =>
      rcases held with _ | ⟨obj, off, p⟩ <;> exact stands.elim
  | _ => exact stands.elim

theorem step (laws : cheri.Laws) (fits : Fits setup ι)
    (sound : Sound setup content owner a) {i : ι}
    {shared : World × (Nat → Option (Nat × Nat))}
    {here : Mutator × Option (Option Cap)}
    (stepped : AtomicStep (mutators setup ι)
      (AtMap cheri (some setup.dst.base)) i a.shared (a.locals i) shared here) :
    ∃ content' owner', Sound setup content' owner' (a.advance i shared here) := by
  generalize current : a.locals i = l at stepped
  generalize before : a.shared = s at stepped
  cases stepped with
  | own _ taken =>
      have next := sound.own_step laws fits current (by rw [before]; exact taken)
      rwa [before] at next
  | effect asked effected =>
      have next := sound.effect_step laws fits current asked
        (by rw [before]; exact effected)
      rw [before] at next
      exact ⟨content, owner, next⟩
  | leave =>
      have next := sound.leave_step laws current
      rw [before] at next
      exact ⟨content, owner, next⟩

end Sound

section Counting

/-- The object that an access was for. -/
def Event.object : Event → Nat
  | .read obj _ _ => obj
  | .wrote obj _ _ => obj

/-- The objects that have been accessed. -/
def accessed (trace : List Event) : Finset Nat :=
  (trace.map Event.object).toFinset

/-- The objects that have a copy. -/
def forwarded (setup : Setup cheri) (links : Nat → Option (Nat × Nat)) :
    Finset Nat :=
  (Finset.range setup.numObjs).filter fun obj =>
    (links (setup.objectAt obj)).isSome

theorem mem_forwarded {links : Nat → Option (Nat × Nat)} {obj : Nat} :
    obj ∈ forwarded setup links ↔
      obj < setup.numObjs ∧ links (setup.objectAt obj) ≠ none := by
  rw [forwarded, Finset.mem_filter, Finset.mem_range, Option.isSome_iff_ne_none]

/-- The object that a mutator is about to access. -/
def attending : Mutator → Option Nat
  | .holding _ => none
  | .access obj _ _ _ => some obj
  | .lookup obj _ _ _ => some obj
  | .lookupAddress obj _ _ _ => some obj
  | .evacuate obj _ _ _ => some obj
  | .copy obj _ _ _ _ _ _ _ => some obj
  | .insert obj _ _ _ _ => some obj
  | .count obj _ _ _ _ => some obj
  | .fatal => none

/-- One if the mutator has won an object and has yet to count it. -/
def uncounted (setup : Setup cheri) : Mutator × Option (Option Cap) → Nat
  | (.insert _ _ _ _ slot, some (some winner)) =>
      if winner.address = (setup.slotCap slot).address then 1 else 0
  | (.count _ _ _ _ _, _) => 1
  | _ => 0

/-- Every copy is counted once, and every copied object has been accessed or
is about to be. -/
structure Counted [Fintype ι] (setup : Setup cheri) (a : Mutators ι) : Prop where
  winners : a.shared.1.winners + ∑ i, uncounted setup (a.locals i) =
    (forwarded setup a.shared.2).card
  copied : accessed a.shared.1.trace ⊆ forwarded setup a.shared.2
  attended : ∀ obj ∈ forwarded setup a.shared.2,
    obj ∈ accessed a.shared.1.trace ∨ ∃ i, attending (a.locals i).1 = some obj

namespace Counted

variable [DecidableEq ι] [Fintype ι] {a : Mutators ι}

/-- A mutator goes on, may count a copy, and makes an access if it stops to
attend to its object. -/
theorem move (counted : Counted setup a) {i : ι} {w : World}
    {l l' : Mutator × Option (Option Cap)} (here : a.locals i = l)
    (sum : w.winners + uncounted setup l' =
      a.shared.1.winners + uncounted setup l)
    (kept : accessed a.shared.1.trace ⊆ accessed w.trace)
    (copied : accessed w.trace ⊆ forwarded setup a.shared.2)
    (attends : ∀ obj, attending l.1 = some obj →
      attending l'.1 = some obj ∨ obj ∈ accessed w.trace) :
    Counted setup (a.advance i (w, a.shared.2) l') where
  winners := by
    have total := counted.winners
    have change := a.sum_advance (uncounted setup) i (w, a.shared.2) l'
    rw [here] at change
    change w.winners + _ = (forwarded setup a.shared.2).card
    omega
  copied := copied
  attended := by
    intro obj member
    rcases counted.attended obj member with done | ⟨j, attended⟩
    · exact .inl (kept done)
    · by_cases same : j = i
      · subst same
        rw [here] at attended
        rcases attends obj attended with still | done
        · refine .inr ⟨j, ?_⟩
          rwa [Interleaving.Config.advance_locals_self]
        · exact .inl done
      · refine .inr ⟨j, ?_⟩
        rwa [a.advance_locals_of_ne _ _ same]

theorem moveOn (counted : Counted setup a) {i : ι}
    {l l' : Mutator × Option (Option Cap)} (here : a.locals i = l)
    (sum : uncounted setup l' = uncounted setup l)
    (attends : attending l.1 = none ∨ attending l'.1 = attending l.1) :
    Counted setup (a.advance i a.shared l') := by
  apply counted.move here
  · rw [sum]
  · exact Finset.Subset.refl _
  · exact counted.copied
  · intro obj attended
    rcases attends with none | same
    · rw [none] at attended
      cases attended
    · exact .inl (same.trans attended)

theorem record (counted : Counted setup a) {i : ι} {w : World} {obj off : Nat}
    {p : Cap} {access : Access} {event : Event} {held : Option (Nat × Nat × Cap)}
    (here : a.locals i = (.access obj off p access, none))
    (winners : w.winners = a.shared.1.winners)
    (trace : w.trace = a.shared.1.trace ++ [event])
    (object : event.object = obj)
    (copied : obj ∈ forwarded setup a.shared.2) :
    Counted setup (a.advance i (w, a.shared.2) (.holding held, none)) := by
  have grown : accessed w.trace = accessed a.shared.1.trace ∪ {obj} := by
    rw [accessed, trace, List.map_append, List.toFinset_append, ← object]
    rfl
  apply counted.move here
  · rw [winners]
    rfl
  · rw [grown]
    exact Finset.subset_union_left
  · rw [grown]
    exact Finset.union_subset counted.copied
      (Finset.singleton_subset_iff.mpr copied)
  · intro other attended
    cases attended
    right
    rw [grown]
    exact Finset.mem_union_right _ (Finset.mem_singleton_self _)

theorem win (counted : Counted setup a) {i : ι} {obj : Nat}
    {links : Nat → Option (Nat × Nat)}
    {l l' : Mutator × Option (Option Cap)} (here : a.locals i = l)
    (grown : forwarded setup links = insert obj (forwarded setup a.shared.2))
    (fresh : obj ∉ forwarded setup a.shared.2)
    (before : uncounted setup l = 0) (after : uncounted setup l' = 1)
    (attends : attending l'.1 = some obj)
    (attended : attending l.1 = some obj) :
    Counted setup (a.advance i (a.shared.1, links) l') where
  winners := by
    have total := counted.winners
    have change := a.sum_advance (uncounted setup) i (a.shared.1, links) l'
    rw [here, before, after] at change
    change a.shared.1.winners + _ = (forwarded setup links).card
    rw [grown, Finset.card_insert_of_notMem fresh]
    omega
  copied := by
    change _ ⊆ forwarded setup links
    rw [grown]
    exact counted.copied.trans (Finset.subset_insert _ _)
  attended := by
    intro other member
    have member : other ∈ forwarded setup links := member
    rw [grown, Finset.mem_insert] at member
    rcases member with rfl | old
    · refine .inr ⟨i, ?_⟩
      rwa [Interleaving.Config.advance_locals_self]
    · rcases counted.attended other old with done | ⟨j, busy⟩
      · exact .inl done
      · refine .inr ⟨j, ?_⟩
        by_cases same : j = i
        · subst same
          rw [here, attended] at busy
          rwa [Interleaving.Config.advance_locals_self, attends]
        · rwa [a.advance_locals_of_ne _ _ same]

variable {content : Nat → Nat → Nat} {owner : Nat → ι × Nat}

omit [DecidableEq ι] [Fintype ι] in
theorem forwarded_of_live {w : World} {links : Nat → Option (Nat × Nat)}
    {i : ι} {obj off : Nat} {p : Cap} {access : Access}
    (stands : Stands setup w links owner i (.access obj off p access, none))
    (live : revoked p = false) : obj ∈ forwarded setup links := by
  rcases stands with ⟨_, _, rfl⟩ | ⟨inside, _, slot, linked, _⟩
  · cases live
  · refine mem_forwarded.mpr ⟨inside, ?_⟩
    rw [show links (setup.objectAt obj) = _ from linked]
    exact Option.some_ne_none _

theorem own_step (counted : Counted setup a) (sound : Sound setup content owner a)
    {i : ι} {w : World} {l l' : Mutator} (here : a.locals i = (l, none))
    (alive : l' ≠ .fatal) (stepped : MutatorStep setup a.shared.1 l w l') :
    Counted setup (a.advance i (w, a.shared.2) (l', none)) := by
  have stands := sound.stands i
  rw [here] at stands
  cases stepped with
  | load access _ _ => exact counted.moveOn here rfl (.inl rfl)
  | reuse access => exact counted.moveOn here rfl (.inl rfl)
  | read live _ =>
      exact counted.record here rfl rfl rfl (forwarded_of_live stands live)
  | write live _ =>
      exact counted.record here rfl rfl rfl (forwarded_of_live stands live)
  | outOfBounds _ _ => exact absurd rfl alive
  | fault _ => exact counted.moveOn here rfl (.inr rfl)
  | refuse _ => exact absurd rfl alive
  | claim rederived found =>
      exact counted.move here rfl (Finset.Subset.refl _) counted.copied
        fun _ attended => .inl attended
  | copy _ =>
      exact counted.move here rfl (Finset.Subset.refl _) counted.copied
        fun _ attended => .inl attended
  | copied => exact counted.moveOn here rfl (.inr rfl)
  | count =>
      exact counted.move here rfl (Finset.Subset.refl _) counted.copied
        fun _ attended => .inl attended

theorem effect_step (laws : cheri.Laws) (fits : Fits setup ι)
    (counted : Counted setup a) (sound : Sound setup content owner a)
    {i : ι} {l : Mutator} {request : ForwardTable.Request}
    {links : Nat → Option (Nat × Nat)} {r : Option Cap}
    (here : a.locals i = (l, none))
    (asked : l.request setup = some request)
    (effected : AtMap cheri (some setup.dst.base) request a.shared.2 links r) :
    Counted setup (a.advance i (a.shared.1, links) (l, some r)) := by
  have stands := sound.stands i
  rw [here] at stands
  cases l with
  | lookup obj off p access =>
      cases asked
      cases effected
      exact counted.moveOn here rfl (.inr rfl)
  | lookupAddress obj off p access =>
      cases asked
      cases effected
      exact counted.moveOn here rfl (.inr rfl)
  | insert obj off p access slot =>
      cases asked
      obtain ⟨⟨inside, below, rfl⟩, claimed, filled⟩ := stands
      have room := sound.hasSlot fits claimed.1
      have own := Setup.slotCap_eq laws room
      cases effected with
      | inserted _ missing =>
          have grown : forwarded setup (Function.update a.shared.2
              (setup.objectAt obj) (some ((setup.slotCap slot).address,
                (setup.slotCap slot).length))) =
              insert obj (forwarded setup a.shared.2) := by
            ext obj'
            rw [mem_forwarded, Finset.mem_insert, mem_forwarded]
            by_cases same : obj' = obj
            · subst same
              rw [Function.update_self]
              exact ⟨fun _ => .inl rfl, fun _ => ⟨inside, Option.some_ne_none _⟩⟩
            · rw [Function.update_of_ne fun key =>
                same (Setup.objectAt_injective key)]
              exact ⟨.inr, fun found => found.resolve_left same⟩
          have fresh : obj ∉ forwarded setup a.shared.2 := by
            intro member
            exact (mem_forwarded.mp member).2 missing
          have won : uncounted setup (.insert obj off (setup.captured obj off)
              access slot, some (ftDerive cheri (some setup.dst.base)
                (setup.slotCap slot).address (setup.slotCap slot).length)) =
              1 := by
            rw [own]
            change uncounted setup (_, some (ftDerive cheri
              (some setup.dst.base) (setup.slotAt slot) setup.objSize)) = 1
            rw [Setup.ftDerive_slot laws room, uncounted, own]
            exact if_pos rfl
          exact counted.win here grown fresh rfl won rfl rfl
      | present _ forwarded =>
          obtain ⟨other, linked⟩ := sound.exists_slot forwarded
          obtain ⟨_, used, owned, idle, _⟩ := sound.linkedTo linked
          have found := sound.derived_linked laws fits linked
          refine counted.moveOn here ?_ (.inr rfl)
          change uncounted setup (_, some (derived cheri (some setup.dst.base)
            (resolve a.shared.2 (setup.objectAt obj)))) = 0
          rw [found, uncounted, own]
          apply if_neg
          intro same
          obtain rfl := Setup.slotAt_injective same
          rw [claimed.2, here] at idle
          exact idle rfl
  | _ => cases asked

theorem leave_step (counted : Counted setup a) {i : ι} {l : Mutator}
    {r : Option Cap} (here : a.locals i = (l, some r))
    (alive : l.resume setup r ≠ .fatal)
    (waited : ∃ request, l.request setup = some request) :
    Counted setup (a.advance i a.shared (l.resume setup r, none)) := by
  obtain ⟨request, asked⟩ := waited
  cases l with
  | lookup obj off p access =>
      cases r with
      | none =>
          by_cases interior : p.address ≠ p.base
          · rw [show Mutator.resume setup (.lookup obj off p access) none =
              .lookupAddress obj off p access from if_pos interior]
            exact counted.moveOn here rfl (.inr rfl)
          · rw [show Mutator.resume setup (.lookup obj off p access) none =
              .evacuate obj off p access from if_neg interior]
            exact counted.moveOn here rfl (.inr rfl)
      | some fwd => exact counted.moveOn here rfl (.inr rfl)
  | lookupAddress obj off p access =>
      cases r with
      | none => exact counted.moveOn here rfl (.inr rfl)
      | some fwd => exact counted.moveOn here rfl (.inr rfl)
  | insert obj off p access slot =>
      cases r with
      | none => exact absurd rfl alive
      | some winner =>
          by_cases own : winner.address = (setup.slotCap slot).address
          · rw [show Mutator.resume setup (.insert obj off p access slot)
              (some winner) = .count obj off p access winner from if_pos own]
            exact counted.moveOn here (if_pos own).symm (.inr rfl)
          · rw [show Mutator.resume setup (.insert obj off p access slot)
              (some winner) = .access obj off (reapply cheri winner
                (Handler.offset p.address p.base)) access from if_neg own]
            exact counted.moveOn here (if_neg own).symm (.inr rfl)
  | _ => cases asked

theorem step (laws : cheri.Laws) (fits : Fits setup ι)
    (counted : Counted setup a) (sound : Sound setup content owner a) {i : ι}
    {shared : World × (Nat → Option (Nat × Nat))}
    {here : Mutator × Option (Option Cap)}
    (stepped : AtomicStep (mutators setup ι)
      (AtMap cheri (some setup.dst.base)) i a.shared (a.locals i) shared here) :
    Counted setup (a.advance i shared here) := by
  have alive : here.1 ≠ .fatal := by
    obtain ⟨content', owner', next⟩ := sound.step laws fits stepped
    have stands := next.stands i
    rw [Interleaving.Config.advance_locals_self] at stands
    intro dead
    obtain ⟨l, outcome⟩ := here
    cases dead
    cases outcome <;> exact stands.elim
  have stands := sound.stands i
  generalize current : a.locals i = l at stepped stands
  generalize before : a.shared = s at stepped
  cases stepped with
  | own _ taken =>
      have next := counted.own_step sound current alive (by rw [before]; exact taken)
      rwa [before] at next
  | effect asked effected =>
      have next := counted.effect_step laws fits sound current asked
        (by rw [before]; exact effected)
      rwa [before] at next
  | @leave _ _ l r =>
      have waited : ∃ request, l.request setup = some request := by
        cases l with
        | holding held =>
            rcases held with _ | ⟨obj, off, p⟩ <;> exact stands.elim
        | lookup obj off p access => exact ⟨_, rfl⟩
        | lookupAddress obj off p access => exact ⟨_, rfl⟩
        | insert obj off p access slot => exact ⟨_, rfl⟩
        | _ => exact stands.elim
      have next := counted.leave_step current alive waited
      rwa [before] at next

omit [DecidableEq ι] in
/-- Between accesses all copies are counted. -/
theorem settled (counted : Counted setup a)
    (idle : ∀ i, attending (a.locals i).1 = none) :
    a.shared.1.winners = (accessed a.shared.1.trace).card ∧
      forwarded setup a.shared.2 = accessed a.shared.1.trace := by
  have all : forwarded setup a.shared.2 = accessed a.shared.1.trace := by
    apply Finset.Subset.antisymm _ counted.copied
    intro obj member
    rcases counted.attended obj member with done | ⟨i, busy⟩
    · exact done
    · rw [idle i] at busy
      cases busy
  have nothing : ∀ i, uncounted setup (a.locals i) = 0 := by
    intro i
    have quiet := idle i
    generalize a.locals i = l at quiet
    obtain ⟨l, outcome⟩ := l
    cases l with
    | insert obj off p access slot => cases quiet
    | count obj off p access winner => cases quiet
    | _ => rfl
  have total := counted.winners
  simp only [nothing, Finset.sum_const_zero, Nat.add_zero] at total
  rw [total, all]
  exact ⟨rfl, rfl⟩

end Counted

end Counting

/-- The mutators start after the sweep, with a fresh table. -/
structure Start (setup : Setup cheri) (c : Interleaving.Config ι
    (World × Memory) (Mutator × Option (ForwardTable.Request × Thread))) : Prop where
  table : c.shared.2 = Memory.ready
  source : ∀ obj off, obj < setup.numObjs → off < setup.objSize →
    c.shared.1.mem (setup.objectAt obj + off) = setup.shadow obj
  dstSlot : c.shared.1.dstSlot = 0
  winners : c.shared.1.winners = 0
  trace : c.shared.1.trace = []
  locals : ∀ i, c.locals i = (.holding none, none)

/-- The addresses of the objects. -/
def keys (setup : Setup cheri) : Finset Nat :=
  (Finset.range setup.numObjs).image setup.objectAt

theorem view_ready : Memory.ready.view = fun _ => none := by
  have laid : Laid Memory.ready.state (Table.zeroed initialCap) :=
    (shape_zeroed (e := 16) rfl (by decide) _).toLaid
  funext k
  refine laid.ftFind_absent rfl ?_
  intro i _ stored
  rw [Table.zeroed_key] at stored
  cases stored

section Runs

variable [DecidableEq ι] [Fintype ι] {start c : Interleaving.Config ι
  (World × Memory) (Mutator × Option (ForwardTable.Request × Thread))}

omit [DecidableEq ι] [Fintype ι] in
theorem Start.sound (starts : Start setup start) (i : ι) :
    Sound setup (fun obj _ => setup.shadow obj) (fun _ => (i, 0))
      (atomicStart Memory.view start) := by
  have view : start.shared.2.view = fun _ => none := by
    rw [starts.table, view_ready]
  have unused : ∀ slot, ¬ slot < start.shared.1.dstSlot := by
    intro slot
    rw [starts.dstSlot]
    exact Nat.not_lt_zero slot
  constructor
  · change replay _ start.shared.1.trace = _
    rw [starts.trace]
    rfl
  · exact starts.source
  · intro obj off _ _ _
    rfl
  · intro k pair link
    change start.shared.2.view k = some pair at link
    rw [view] at link
    cases link
  · intro slot below
    exact absurd below (unused slot)
  · intro slot _ below
    exact absurd below (unused slot)
  · intro j
    change Stands setup _ _ _ j ((start.locals j).1, none)
    rw [starts.locals]
    trivial

omit [DecidableEq ι] in
theorem Start.counted (starts : Start setup start) :
    Counted setup (atomicStart Memory.view start) := by
  have nothing : forwarded setup start.shared.2.view = ∅ := by
    rw [starts.table, view_ready]
    exact Finset.filter_false_of_mem fun _ _ => Bool.false_ne_true
  constructor
  · change start.shared.1.winners + ∑ i, uncounted setup
      ((start.locals i).1, none) = (forwarded setup start.shared.2.view).card
    rw [starts.winners, nothing]
    simp only [starts.locals, uncounted, Finset.sum_const_zero,
      Finset.card_empty, Nat.add_zero]
  · change accessed start.shared.1.trace ⊆ forwarded setup start.shared.2.view
    rw [starts.trace]
    exact Finset.empty_subset _
  · change ∀ obj ∈ forwarded setup start.shared.2.view, _
    rw [nothing]
    exact fun obj member => absurd member (Finset.notMem_empty obj)

theorem sound_of_atomic (laws : cheri.Laws) (fits : Fits setup ι)
    (starts : Start setup start) {a : Mutators ι} (i : ι)
    (reachable : AtomicReachable (mutators setup ι)
      (AtMap cheri (some setup.dst.base)) (atomicStart Memory.view start) a) :
    (∃ content owner, Sound setup content owner a) ∧ Counted setup a := by
  refine reachable.invariant
    (fun a => (∃ content owner, Sound setup content owner a) ∧ Counted setup a)
    ⟨⟨_, _, starts.sound i⟩, starts.counted⟩ ?_
  rintro a j shared here ⟨⟨content, owner, sound⟩, counted⟩ stepped
  exact ⟨sound.step laws fits stepped, counted.step laws fits sound stepped⟩

omit [DecidableEq ι] [Fintype ι] in
theorem Start.room (starts : Start setup start)
    (small : setup.numObjs ≤ initialCap) :
    Room start.shared.2 0 (keys setup) := by
  rw [starts.table]
  refine ⟨⟨rfl, by decide, shape_zeroed (e := 16) rfl (by decide) _⟩, ?_, ?_⟩
  · intro i k _ stored
    change (Table.zeroed initialCap).key i = some k at stored
    rw [Table.zeroed_key] at stored
    cases stored
  · refine Finset.card_image_le.trans ?_
    rw [Finset.card_range]
    exact small

/-- Every run over the table is matched by a sound run over the map. -/
theorem atomic_of_reachable (laws : cheri.Laws) (fits : Fits setup ι)
    (small : setup.numObjs ≤ initialCap) (starts : Start setup start) (i : ι)
    (reachable : ConcreteReachable (mutators setup ι)
      (table cheri (some setup.dst.base)) start c) :
    ∃ a, AtomicReachable (mutators setup ι)
        (AtMap cheri (some setup.dst.base)) (atomicStart Memory.view start) a ∧
      a.shared = (c.shared.1, c.shared.2.view) ∧
      ∀ j, (a.locals j).1 = (c.locals j).1 := by
  obtain ⟨a, ran, matched, _⟩ := (table_simulates cheri
      (some setup.dst.base) ι 0 (keys setup)).refines
    (fun j => by rw [starts.locals j]) (starts.room small).served
    (fun a ran j request asked => by
      obtain ⟨⟨content, owner, sound⟩, _⟩ :=
        sound_of_atomic laws fits starts i ran
      have stands := sound.stands j
      generalize a.locals j = l at asked stands
      obtain ⟨l, outcome⟩ := l
      cases l with
      | lookup obj off p access =>
          cases asked
          trivial
      | lookupAddress obj off p access =>
          cases asked
          trivial
      | insert obj off p access slot =>
          cases asked
          have known : Stale setup obj off p ∧
              Claimed a.shared.1 owner j obj slot := by
            rcases outcome with _ | _ | winner
            · exact ⟨stands.1, stands.2.1⟩
            · exact stands.elim
            · exact ⟨stands.1, stands.2.1⟩
          obtain ⟨⟨inside, _, rfl⟩, used, _⟩ := known
          have room := sound.hasSlot fits used
          have positive := setup.src_pos
          have nonnull := setup.dst.nonnull
          refine ⟨Finset.mem_image_of_mem _ (Finset.mem_range.mpr inside), ?_,
            ?_⟩
          · change setup.src + obj * setup.objSize ≠ 0
            omega
          · rw [Setup.slotCap_eq laws room]
            change setup.dst.base.base + slot * setup.objSize ≠ 0
            omega
      | _ => cases asked) reachable
  exact ⟨a, ran, matched.shared, matched.own⟩

/-- When the program only stores what the objects held, as the test does, it
only reads that. -/
theorem replay_constant {shadow : Nat → Nat} {trace : List Event} :
    ∀ {content : Nat → Nat → Nat},
      replay (fun obj _ => shadow obj) trace = some content →
      (∀ obj off value, .wrote obj off value ∈ trace → value = shadow obj) →
      ∀ obj off value, .read obj off value ∈ trace → value = shadow obj := by
  induction trace with
  | nil =>
      intro content _ _ obj off value member
      cases member
  | cons event rest ih =>
      intro content replayed stores obj off value member
      rw [replay, List.foldlM_cons] at replayed
      have kept : event.apply (fun obj _ => shadow obj) =
          some fun obj _ => shadow obj := by
        cases event with
        | read obj off value =>
            rw [Event.apply] at replayed ⊢
            split at replayed
            · rename_i same
              exact if_pos same
            · cases replayed
        | wrote obj off value =>
            rw [Event.apply, stores obj off value List.mem_cons_self]
            congr 1
            funext obj' off'
            by_cases same : obj' = obj
            · subst same
              rw [Function.update_self, Function.update_apply, ite_self]
            · rw [Function.update_of_ne same]
      rw [kept] at replayed
      rcases List.mem_cons.mp member with rfl | later
      · rw [Event.apply] at kept
        split at kept
        · rename_i same
          exact same.symm
        · cases kept
      · exact ih replayed
          (fun obj off value inside =>
            stores obj off value (List.mem_cons_of_mem _ inside))
          obj off value later

omit [Fintype ι] in
theorem eq_start_of_isEmpty (none : IsEmpty ι)
    (reachable : ConcreteReachable (mutators setup ι)
      (table cheri (some setup.dst.base)) start c) : c = start := by
  induction reachable with
  | refl => rfl
  | tail _ last _ =>
      cases last with
      | run i _ => exact (none.false i).elim

/-- In every interleaving of the mutators, of their fault handlers and of the
atomic accesses of the table, every read finds the last value written to its
byte of the object, or else the byte that was revoked, and no fault goes
unhealed. -/
theorem assistedEvacuation_consistent (laws : cheri.Laws)
    (fits : Fits setup ι) (small : setup.numObjs ≤ initialCap)
    (starts : Start setup start)
    (reachable : ConcreteReachable (mutators setup ι)
      (table cheri (some setup.dst.base)) start c) :
    (∃ content, replay (fun obj _ => setup.shadow obj) c.shared.1.trace =
      some content) ∧
    ((∀ obj off value, .wrote obj off value ∈ c.shared.1.trace →
        value = setup.shadow obj) →
      ∀ obj off value, .read obj off value ∈ c.shared.1.trace →
        value = setup.shadow obj) ∧
    ∀ i, (c.locals i).1 ≠ .fatal := by
  rcases isEmpty_or_nonempty ι with none | ⟨⟨i⟩⟩
  · rw [eq_start_of_isEmpty none reachable, starts.trace]
    refine ⟨⟨_, rfl⟩, ?_, fun i => (none.false i).elim⟩
    intro _ obj off value member
    cases member
  · obtain ⟨a, ran, shared, own⟩ :=
      atomic_of_reachable laws fits small starts i reachable
    obtain ⟨⟨content, owner, sound⟩, _⟩ :=
      sound_of_atomic laws fits starts i ran
    have replayed := sound.replayed
    rw [shared] at replayed
    refine ⟨⟨content, replayed⟩, replay_constant replayed, ?_⟩
    intro j dead
    have stands := sound.stands j
    rw [← own j] at dead
    generalize a.locals j = l at dead stands
    obtain ⟨l, outcome⟩ := l
    cases dead
    cases outcome <;> exact stands.elim

/-- No object is counted before it has a copy, nor twice.  Between accesses
`g_evac_winners` is the number of objects that have been accessed, and these
are the ones that the table forwards. -/
theorem assistedEvacuation_copiesOnce (laws : cheri.Laws)
    (fits : Fits setup ι) (small : setup.numObjs ≤ initialCap)
    (starts : Start setup start)
    (reachable : ConcreteReachable (mutators setup ι)
      (table cheri (some setup.dst.base)) start c) :
    accessed c.shared.1.trace ⊆ forwarded setup c.shared.2.view ∧
    c.shared.1.winners ≤ (forwarded setup c.shared.2.view).card ∧
    ((∀ i, attending (c.locals i).1 = none) →
      c.shared.1.winners = (accessed c.shared.1.trace).card ∧
        forwarded setup c.shared.2.view = accessed c.shared.1.trace) := by
  obtain ⟨a, shared, own, counted⟩ : ∃ a : Mutators ι,
      a.shared = (c.shared.1, c.shared.2.view) ∧
      (∀ i, (a.locals i).1 = (c.locals i).1) ∧ Counted setup a := by
    rcases isEmpty_or_nonempty ι with none | ⟨⟨i⟩⟩
    · rw [eq_start_of_isEmpty none reachable]
      exact ⟨_, rfl, fun _ => rfl, starts.counted⟩
    · obtain ⟨a, ran, shared, own⟩ :=
        atomic_of_reachable laws fits small starts i reachable
      exact ⟨a, shared, own, (sound_of_atomic laws fits starts i ran).2⟩
  have copied := counted.copied
  have total := counted.winners
  have settled := counted.settled
  rw [shared] at copied total settled
  refine ⟨copied, ?_, ?_⟩
  · rw [← total]
    exact Nat.le_add_right _ _
  · intro idle
    apply settled
    intro i
    rw [own i]
    exact idle i

end Runs

end Invariant

section Unregistered

variable {ι : Type*} {setup : Setup cheri}

/-- What a mutator holds when no fault has been healed. -/
def Mutator.Unhealed : Mutator → Prop
  | .holding held => held = none
  | .access _ _ p _ => revoked p = true
  | .lookup _ _ p _ => revoked p = true
  | .lookupAddress _ _ p _ => revoked p = true
  | .evacuate _ _ p _ => revoked p = true
  | .copy _ _ p _ _ _ _ _ => revoked p = true
  | .insert _ _ p _ _ => revoked p = true
  | .count _ _ _ _ _ => False
  | .fatal => True

theorem returned_unregistered {l : Thread} {r : Option Cap}
    (back : l.returned cheri none = some r) : r = none := by
  have missed : ∀ found, derived cheri none found = none := by
    intro found
    cases found <;> rfl
  cases l with
  | lookup key pc =>
      cases pc with
      | done final =>
          cases back
          exact missed final
      | _ => cases back
  | casInsert key newCap pc =>
      cases pc with
      | got final =>
          cases final <;> cases back <;> rfl
      | _ => cases back <;> rfl
  | _ => cases back

theorem Mutator.Unhealed.own {w w' : World} {l l' : Mutator}
    (unhealed : l.Unhealed) (stepped : MutatorStep setup w l w' l') :
    l'.Unhealed ∧ w'.trace = w.trace ∧ w'.winners = w.winners := by
  cases stepped with
  | load access _ _ =>
      exact ⟨Setup.captured_revoked setup _ _, rfl, rfl⟩
  | reuse access => cases unhealed
  | read live _ => cases live.symm.trans unhealed
  | write live _ => cases live.symm.trans unhealed
  | outOfBounds live _ => cases live.symm.trans unhealed
  | refuse _ => exact ⟨trivial, rfl, rfl⟩
  | count => exact unhealed.elim
  | _ => exact ⟨unhealed, rfl, rfl⟩

theorem Mutator.Unhealed.resume {l : Mutator} (unhealed : l.Unhealed) :
    (l.resume setup none).Unhealed := by
  cases l with
  | lookup obj off p access =>
      by_cases interior : p.address ≠ p.base
      · rwa [show Mutator.resume setup (.lookup obj off p access) none =
          .lookupAddress obj off p access from if_pos interior]
      · rwa [show Mutator.resume setup (.lookup obj off p access) none =
          .evacuate obj off p access from if_neg interior]
  | insert obj off p access slot => trivial
  | _ => exact unhealed

/-- As long as `forward_table_set_arena_base` has not been called, and
whatever the table holds, no access to a revoked object ever completes and no
copy is counted: every fault ends in the default action. -/
theorem assistedEvacuation_unregistered [DecidableEq ι]
    {start c : Interleaving.Config ι (World × Memory)
      (Mutator × Option (ForwardTable.Request × Thread))}
    (trace : start.shared.1.trace = []) (winners : start.shared.1.winners = 0)
    (locals : ∀ i, (start.locals i).1 = .holding none)
    (reachable : ConcreteReachable (mutators setup ι) (table cheri none)
      start c) :
    c.shared.1.trace = [] ∧ c.shared.1.winners = 0 ∧
      ∀ i obj off p, (c.locals i).1 ≠ .holding (some (obj, off, p)) := by
  have kept : c.shared.1.trace = [] ∧ c.shared.1.winners = 0 ∧
      ∀ i, (c.locals i).1.Unhealed := by
    refine reachable.invariant (fun c => c.shared.1.trace = [] ∧
      c.shared.1.winners = 0 ∧ ∀ i, (c.locals i).1.Unhealed)
      ⟨trace, winners, ?_⟩ ?_
    · intro i
      rw [locals i]
      rfl
    · intro c i shared here within stepped
      obtain ⟨trace, winners, unhealed⟩ := within
      have mine := unhealed i
      have next : here.1.Unhealed ∧ shared.1.trace = c.shared.1.trace ∧
          shared.1.winners = c.shared.1.winners := by
        generalize c.locals i = l at stepped mine
        generalize c.shared = s at stepped
        cases stepped with
        | own _ taken => exact mine.own taken
        | enter _ => exact ⟨mine, rfl, rfl⟩
        | access _ => exact ⟨mine, rfl, rfl⟩
        | leave back =>
            rw [returned_unregistered back]
            exact ⟨mine.resume, rfl, rfl⟩
      refine ⟨next.2.1.trans trace, next.2.2.trans winners, ?_⟩
      exact c.forall_advance (P := fun _ l => l.1.Unhealed) next.1
        fun j _ => unhealed j
  refine ⟨kept.1, kept.2.1, ?_⟩
  intro i obj off p held
  have unhealed := kept.2.2 i
  rw [held] at unhealed
  cases unhealed

end Unregistered

section Example

/-- Two objects of four bytes. -/
def Setup.tiny : Setup Intrinsics.exact where
  src := 2 ^ 29
  dst := Arena.small
  objSize := 4
  numObjs := 2
  shadow := fun obj => 64 + obj
  perms := { swVmem := false, rest := 1 }
  objSize_pos := by decide
  src_pos := by decide
  exact := rfl
  aligned := Nat.one_dvd _
  fits := by decide
  apart := by decide
  userSpace := by decide

instance (p : Cap) : Decidable (inBounds p) :=
  inferInstanceAs (Decidable (_ ∧ _))

/-- A step of a mutator that reads the first byte of an object once. -/
def readerNext (setup : Setup cheri) (obj : Nat) (w : World) :
    Mutator → World × Mutator
  | .holding none =>
      if obj < setup.numObjs then
        (w, .access obj 0 (setup.captured obj 0) .read)
      else (w, .holding none)
  | .access obj off p .read =>
      if revoked p then (w, .lookup obj off p .read)
      else if inBounds p then
        ({ w with trace := w.trace ++ [.read obj off (w.mem p.address)] },
          .holding (some (obj, off, p)))
      else (w, .fatal)
  | .evacuate obj off p a =>
      match setup.evacuee p.base with
      | none => (w, .fatal)
      | some idx =>
          ({ w with dstSlot := w.dstSlot + 1 },
            .copy obj off p a idx w.dstSlot true 0)
  | .copy obj off p a idx slot rederived j =>
      if j < setup.objSize then
        ({ w with
            mem := Function.update w.mem ((setup.slotCap slot).address + j)
              (if rederived then w.mem (setup.objectAt idx + j)
                else setup.shadow idx) },
          .copy obj off p a idx slot rederived (j + 1))
      else if j = setup.objSize then (w, .insert obj off p a slot)
      else (w, .copy obj off p a idx slot rederived j)
  | .count obj off p a winner =>
      ({ w with winners := w.winners + 1 },
        .access obj off (reapply cheri winner (offset p.address p.base)) a)
  | l => (w, l)

theorem readerNext_steps (setup : Setup cheri) (obj : Nat) (w : World)
    (l : Mutator) :
    (readerNext setup obj w l = (w, l)) ∨
      MutatorStep setup w l (readerNext setup obj w l).1
        (readerNext setup obj w l).2 := by
  cases l with
  | holding held =>
      cases held with
      | none =>
          rw [readerNext]
          split
          · rename_i inside
            exact .inr (.load .read inside setup.objSize_pos)
          · exact .inl rfl
      | some _ => exact .inl rfl
  | access obj off p a =>
      cases a with
      | read =>
          rw [readerNext]
          split
          · rename_i gone
            exact .inr (.fault gone)
          · rename_i live
            have live : revoked p = false := by simpa using live
            split
            · rename_i within
              exact .inr (.read live within)
            · rename_i beyond
              exact .inr (.outOfBounds live beyond)
      | write value => exact .inl rfl
  | evacuate obj off p a =>
      rw [readerNext]
      split
      · rename_i refused
        exact .inr (.refuse refused)
      · rename_i idx found
        exact .inr (.claim true found)
  | copy obj off p a idx slot rederived j =>
      rw [readerNext]
      split
      · rename_i more
        exact .inr (.copy more)
      · split
        · rename_i last
          subst last
          exact .inr .copied
        · exact .inl rfl
  | count obj off p a winner => exact .inr .count
  | _ => exact .inl rfl

/-- The same with the calls of the table. -/
def evacuationNext (setup : Setup cheri) (arenaBase : Option Cap) (obj : Nat) :
    (World × Memory) × (Mutator × Option (ForwardTable.Request × Thread)) →
    (World × Memory) × (Mutator × Option (ForwardTable.Request × Thread)) :=
  follow (mutators setup Bool) (table cheri arenaBase) (readerNext setup obj)
    fun _ m t => Thread.next (m, t)

theorem evacuationNext_steps (setup : Setup cheri) (arenaBase : Option Cap)
    (obj : Nat) (i : Bool)
    (x : (World × Memory) × (Mutator × Option (ForwardTable.Request × Thread))) :
    Relation.ReflTransGen (fun before after =>
        ConcreteStep (mutators setup Bool) (table cheri arenaBase) i before.1
          before.2 after.1 after.2) x (evacuationNext setup arenaBase obj x) :=
  follow_steps i (readerNext_steps setup obj)
    (fun _ m t _ => .inr (Thread.next_step m t)) x

/-- Two mutators, about to access the objects. -/
def readers : Interleaving.Config Bool (World × Memory)
    (Mutator × Option (ForwardTable.Request × Thread)) :=
  { shared :=
      ({ mem := fun k => 64 + (k - 2 ^ 29) / 4
         dstSlot := 0
         winners := 0
         trace := [] }, Memory.ready)
    locals := fun _ => (.holding none, none) }

private theorem readers_start : Start Setup.tiny readers where
  table := rfl
  source := by
    intro obj off _ below
    change off < 4 at below
    change 64 + (2 ^ 29 + obj * 4 + off - 2 ^ 29) / 4 = 64 + obj
    omega
  dstSlot := rfl
  winners := rfl
  trace := rfl
  locals := fun _ => rfl

private theorem readers_fits : Fits Setup.tiny Bool := by
  rw [Fits, Fintype.card_bool]
  decide

/-- The first mutator has copied the object when the second one accesses it,
copies it as well and wins. -/
private theorem readers_run : ∃ c,
    ConcreteReachable (mutators Setup.tiny Bool)
      (table Intrinsics.exact (some Arena.small.base)) readers c ∧
    c.shared.1.trace = [.read 0 0 64, .read 0 0 64] ∧
    c.shared.1.dstSlot = 2 ∧ ∀ i, attending (c.locals i).1 = none := by
  have copied : ConcreteReachable (mutators Setup.tiny Bool)
      (table Intrinsics.exact (some Arena.small.base)) readers _ :=
    Interleaving.Reachable.repeated false 17
      (evacuationNext_steps Setup.tiny _ 0 false)
  have won := copied.trans (Interleaving.Reachable.repeated true 60
    (evacuationNext_steps Setup.tiny _ 0 true))
  have lost := won.trans (Interleaving.Reachable.repeated false 40
    (evacuationNext_steps Setup.tiny _ 0 false))
  refine ⟨_, lost, ?_, ?_, ?_⟩
  · decide +kernel
  · decide +kernel
  · decide +kernel

/-- Both read what the object held. -/
theorem assistedEvacuation_consistent_tiny : ∃ c,
    ConcreteReachable (mutators Setup.tiny Bool)
      (table Intrinsics.exact (some Arena.small.base)) readers c ∧
    (∃ content, replay (fun obj _ => 64 + obj) c.shared.1.trace =
      some content) ∧
    c.shared.1.trace = [.read 0 0 64, .read 0 0 64] := by
  obtain ⟨c, ran, trace, _⟩ := readers_run
  obtain ⟨replayed, _⟩ := assistedEvacuation_consistent Intrinsics.exact_laws
    readers_fits (by decide) readers_start ran
  exact ⟨c, ran, replayed, trace⟩

/-- Two slots are filled, and one copy is counted. -/
theorem assistedEvacuation_copiesOnce_tiny : ∃ c,
    ConcreteReachable (mutators Setup.tiny Bool)
      (table Intrinsics.exact (some Arena.small.base)) readers c ∧
    c.shared.1.dstSlot = 2 ∧ c.shared.1.winners = 1 ∧
    forwarded Setup.tiny c.shared.2.view = {0} := by
  obtain ⟨c, ran, trace, slots, idle⟩ := readers_run
  obtain ⟨_, _, settled⟩ := assistedEvacuation_copiesOnce Intrinsics.exact_laws
    readers_fits (by decide) readers_start ran
  obtain ⟨count, same⟩ := settled idle
  rw [trace] at count same
  exact ⟨c, ran, slots, count, same⟩

/-- One mutator links the object to a copy, and dies. -/
theorem assistedEvacuation_unregistered_tiny : ∃ c,
    ConcreteReachable (mutators Setup.tiny Bool) (table Intrinsics.exact none)
      readers c ∧
    (c.locals false).1 = .fatal ∧ c.shared.2.view (2 ^ 29) = some (2 ^ 30, 4) ∧
    c.shared.1.winners = 0 := by
  have alone : ConcreteReachable (mutators Setup.tiny Bool)
      (table Intrinsics.exact none) readers _ :=
    Interleaving.Reachable.repeated false 60
      (evacuationNext_steps Setup.tiny _ 0 false)
  obtain ⟨_, winners, _⟩ := assistedEvacuation_unregistered rfl rfl
    (fun _ => rfl) alone
  exact ⟨_, alone, by rfl, by decide +kernel, winners⟩

end Example

end Evacuation

end StoplessGC
