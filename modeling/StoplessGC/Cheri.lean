import Mathlib.Algebra.Ring.Nat
import Mathlib.Data.Nat.Basic
import Mathlib.Order.Basic

/-!
# Capabilities and the intrinsics the runtime relies on

A capability is modelled by its decoded fields.  Integers held in capability
registers are null-derived: untagged, based at zero, with the integer as
address.

The compressed-bounds arithmetic belongs to the architecture and not to the
repository.  It enters as the parameter `Intrinsics`, and `Intrinsics.Laws`
collects the documented behaviour that the allocator and the forwarding table
depend on.
-/

namespace StoplessGC

/-- One past the largest 64-bit address. -/
abbrev addressSpace : Nat := 2 ^ 64

/-- Permissions: `CHERI_PERM_SW_VMEM`, and all remaining bits together. -/
structure Perms where
  swVmem : Bool
  rest : Nat
deriving DecidableEq, Repr

/-- `cheri_perms_get(c) == 0`. -/
def Perms.isZero (perms : Perms) : Bool :=
  !perms.swVmem && perms.rest == 0

structure Cap where
  tag : Bool
  base : Nat
  length : Nat
  address : Nat
  perms : Perms
deriving DecidableEq, Repr

namespace Cap

/-- A null-derived integer.  `cheri_length_get` saturates on its full range. -/
def ofInt (n : Nat) : Cap :=
  { tag := false
    base := 0
    length := addressSpace - 1
    address := n
    perms := { swVmem := false, rest := 0 } }

/-- `NULL`. -/
def null : Cap := ofInt 0

/-- `cheri_perms_and(c, ~CHERI_PERM_SW_VMEM)`. -/
def withoutSwVmem (c : Cap) : Cap :=
  { c with perms := { c.perms with swVmem := false } }

@[simp] theorem ofInt_base (n : Nat) : (ofInt n).base = 0 := rfl

@[simp] theorem ofInt_address (n : Nat) : (ofInt n).address = n := rfl

end Cap

/-- The CHERI operations whose rounding is fixed by the architecture. -/
structure Intrinsics where
  /-- `cheri_representable_length` -/
  representableLength : Nat → Nat
  /-- `cheri_representable_alignment_mask` -/
  representableAlignmentMask : Nat → Nat
  /-- `cheri_bounds_set` -/
  boundsSet : Cap → Nat → Cap
  /-- Whether moving the address there keeps the bounds representable. -/
  representable : Cap → Nat → Bool

namespace Intrinsics

/-- `cheri_address_set`: an unrepresentable address costs the tag. -/
def addressSet (cheri : Intrinsics) (c : Cap) (address : Nat) : Cap :=
  { c with address := address, tag := c.tag && cheri.representable c address }

/-- The alignment in bytes that a base needs for bounds of length `n`. -/
def alignment (cheri : Intrinsics) (n : Nat) : Nat :=
  addressSpace - cheri.representableAlignmentMask n

/-- Documented behaviour of the intrinsics. -/
structure Laws (cheri : Intrinsics) : Prop where
  le_length : ∀ n, n ≤ cheri.representableLength n
  length_idem : ∀ n, cheri.representableLength (cheri.representableLength n) =
    cheri.representableLength n
  length_mono : ∀ {m n}, m ≤ n →
    cheri.representableLength m ≤ cheri.representableLength n
  length_dvd : ∀ {e n}, 2 ^ e ∣ n → 2 ^ e ∣ cheri.representableLength n
  mask_pow : ∀ n, ∃ e, e < 64 ∧
    cheri.representableAlignmentMask n = addressSpace - 2 ^ e
  alignment_mono : ∀ {m n}, m ≤ n → cheri.alignment m ∣ cheri.alignment n
  boundsSet_exact : ∀ (c : Cap) (n : Nat), c.tag = true →
    c.base ≤ c.address →
    c.address + cheri.representableLength n ≤ c.base + c.length →
    cheri.alignment (cheri.representableLength n) ∣ c.address →
    cheri.boundsSet c n =
      { c with base := c.address, length := cheri.representableLength n }
  boundsSet_address : ∀ (c : Cap) (n : Nat),
    (cheri.boundsSet c n).address = c.address
  representable_inBounds : ∀ (c : Cap) (address : Nat), c.base ≤ address →
    address ≤ c.base + c.length → cheri.representable c address = true

/-- The documented behaviour at the end of the address space: no length within
it rounds past it. -/
structure WordLaws (cheri : Intrinsics) : Prop extends Laws cheri where
  length_top : cheri.representableLength addressSpace = addressSpace

/-- Small objects on Morello: every length is representable at every base. -/
def exact : Intrinsics :=
  { representableLength := fun n => n
    representableAlignmentMask := fun _ => addressSpace - 1
    boundsSet := fun c n =>
      { c with
        base := c.address
        length := n
        tag := c.tag && decide (c.base ≤ c.address) &&
          decide (c.address + n ≤ c.base + c.length) }
    representable := fun c address =>
      decide (c.base ≤ address) && decide (address ≤ c.base + c.length) }

theorem exact_laws : exact.Laws where
  le_length := fun _ => Nat.le_refl _
  length_idem := fun _ => rfl
  length_mono := fun below => below
  length_dvd := fun multiple => multiple
  mask_pow := fun _ => ⟨0, by decide, rfl⟩
  alignment_mono := fun _ => Nat.dvd_refl _
  boundsSet_exact := by
    intro c n tagged below fits _
    have fits' : c.address + n ≤ c.base + c.length := fits
    simp [exact, tagged, below, fits']
  boundsSet_address := fun _ _ => rfl
  representable_inBounds := by
    intro c address lower upper
    simp [exact, lower, upper]

theorem exact_wordLaws : exact.WordLaws :=
  { exact_laws with length_top := rfl }

end Intrinsics

end StoplessGC
