import StoplessGC.Cheri
import StoplessGC.Foundation.Alignment
import StoplessGC.Foundation.Interleaving

/-!
# The bump allocator

`allocator.c`: `stopless_alloc` rounds the request, aligns the bump offset,
and claims the extent with a compare-and-swap loop.  The first part is the
call by itself; the second part lets any number of calls interleave, with
spurious failures of the weak compare-and-swap.

All offset arithmetic is on 64-bit words.  The theorem about interleavings is
about requests whose rounded extent ends below `2^64`, as its runs require of
every offset a call computes.
-/

namespace StoplessGC

/-- `stopless_arena_t` after a successful `stopless_arena_init`.  `mmap` hands
out whole pages of user memory, which ends below `2^63`, and an exact
capability, so the start of the arena is aligned for its size. -/
structure Arena (cheri : Intrinsics) where
  base : Cap
  size : Nat
  tagged : base.tag = true
  atStart : base.address = base.base
  nonnull : base.base ≠ 0
  covered : size ≤ base.length
  userSpace : base.base + size ≤ 2 ^ 63
  paged : 4096 ∣ base.base
  aligned : cheri.alignment size ∣ base.base
  swVmem : base.perms.swVmem = true
  usable : base.perms.rest ≠ 0

/-- Whether an address lies in the arena. -/
def Arena.covers {cheri : Intrinsics} (arena : Arena cheri) (p : Nat) : Bool :=
  decide (arena.base.base ≤ p) && decide (p < arena.base.base + arena.size)

/-- The 16 MiB arena of `test_alloc_concurrent`, placed at 1 GiB. -/
def Arena.small : Arena Intrinsics.exact where
  base :=
    { tag := true
      base := 2 ^ 30
      length := 2 ^ 24
      address := 2 ^ 30
      perms := { swVmem := true, rest := 1 } }
  size := 2 ^ 24
  tagged := rfl
  atStart := rfl
  nonnull := by decide
  covered := by decide
  userSpace := by decide
  paged := by decide
  aligned := Nat.one_dvd _
  swVmem := rfl
  usable := by decide

namespace Allocator

variable {cheri : Intrinsics}

/-- `cheri_representable_length` in `size_t`: a request near `2^64` rounds up
to zero. -/
def roundedLength (cheri : Intrinsics) (sizeBytes : Nat) : Nat :=
  cheri.representableLength sizeBytes % addressSpace

def alignUpRepr (cheri : Intrinsics) (off rounded : Nat) : Nat :=
  let mask := addressSpace - 1 - cheri.representableAlignmentMask rounded
  ((off + mask) % addressSpace) &&& (addressSpace - 1 - mask)

/-- `aligned_off + rounded` in `size_t`. -/
def newOffset (cheri : Intrinsics) (off rounded : Nat) : Nat :=
  (alignUpRepr cheri off rounded + rounded) % addressSpace

/-- The object capability for the extent at `alignedOff`. -/
def deriveObject (arena : Arena cheri) (alignedOff sizeBytes : Nat) : Cap :=
  (cheri.boundsSet
    (cheri.addressSet arena.base (arena.base.address + alignedOff))
    sizeBytes).withoutSwVmem

/-- `stopless_alloc` without interference: the object and the new
`bump_offset`, or `NULL`. -/
def stoplessAlloc (arena : Arena cheri) (bump sizeBytes : Nat) :
    Option (Cap × Nat) :=
  let rounded := roundedLength cheri sizeBytes
  if sizeBytes = 0 ∨ rounded < sizeBytes then none
  else if newOffset cheri bump rounded > arena.size then none
  else some (deriveObject arena (alignUpRepr cheri bump rounded) sizeBytes,
    newOffset cheri bump rounded)

/-- The aligned offset as a natural number. -/
def alignedOffset (cheri : Intrinsics) (off rounded : Nat) : Nat :=
  Alignment.up (cheri.alignment rounded) off

/-- The extent computed at `off` ends below `2^64`. -/
def NoWrap (cheri : Intrinsics) (off rounded : Nat) : Prop :=
  alignedOffset cheri off rounded + rounded < addressSpace

theorem NoWrap.roundedLength_eq {off sizeBytes : Nat}
    (noWrap : NoWrap cheri off (cheri.representableLength sizeBytes)) :
    roundedLength cheri sizeBytes = cheri.representableLength sizeBytes := by
  apply Nat.mod_eq_of_lt
  rw [NoWrap] at noWrap
  omega

theorem alignment_pow (laws : cheri.Laws) (rounded : Nat) :
    ∃ e, e < 64 ∧ cheri.alignment rounded = 2 ^ e ∧
      cheri.representableAlignmentMask rounded = addressSpace - 2 ^ e := by
  obtain ⟨e, narrow, power⟩ := laws.mask_pow rounded
  have small : 2 ^ e ≤ addressSpace := Nat.pow_le_pow_right (by decide) (by omega)
  have positive : 0 < 2 ^ e := Nat.two_pow_pos e
  refine ⟨e, narrow, ?_, power⟩
  rw [Intrinsics.alignment, power]
  omega

theorem alignUpRepr_of_lt (laws : cheri.Laws) {off rounded : Nat}
    (below : alignedOffset cheri off rounded < addressSpace) :
    alignUpRepr cheri off rounded = alignedOffset cheri off rounded := by
  obtain ⟨e, narrow, unit, power⟩ := alignment_pow laws rounded
  have small : 2 ^ e ≤ addressSpace := Nat.pow_le_pow_right (by decide) (by omega)
  have positive : 0 < 2 ^ e := Nat.two_pow_pos e
  have low : addressSpace - 1 - cheri.representableAlignmentMask rounded =
      2 ^ e - 1 := by
    rw [power]
    omega
  have high : addressSpace - 1 - (2 ^ e - 1) = addressSpace - 2 ^ e := by omega
  have fits : Alignment.up (2 ^ e) off < addressSpace := by
    rw [alignedOffset, unit] at below
    exact below
  have word := Alignment.add_mask_lt (w := 64) (by omega) fits
  rw [alignedOffset, unit, alignUpRepr, low]
  simp only [high]
  rw [Nat.mod_eq_of_lt word, Alignment.and_high_mask (by omega) word]
  rfl

theorem alignUpRepr_eq (laws : cheri.Laws) {off rounded : Nat}
    (noWrap : NoWrap cheri off rounded) :
    alignUpRepr cheri off rounded = alignedOffset cheri off rounded := by
  rw [NoWrap] at noWrap
  exact alignUpRepr_of_lt laws (by omega)

theorem newOffset_eq (laws : cheri.Laws) {off rounded : Nat}
    (noWrap : NoWrap cheri off rounded) :
    newOffset cheri off rounded = alignedOffset cheri off rounded + rounded := by
  rw [newOffset, alignUpRepr_eq laws noWrap, Nat.mod_eq_of_lt noWrap]

theorem alignment_pos (laws : cheri.Laws) (rounded : Nat) :
    0 < cheri.alignment rounded := by
  obtain ⟨e, _, power, _⟩ := alignment_pow laws rounded
  rw [power]
  exact Nat.two_pow_pos e

theorem le_alignedOffset (laws : cheri.Laws) (off rounded : Nat) :
    off ≤ alignedOffset cheri off rounded :=
  Alignment.le_up (alignment_pos laws rounded) off

theorem noWrap_of_le (laws : cheri.Laws) (arena : Arena cheri)
    {off rounded : Nat} (inArena : off ≤ arena.size)
    (fits : rounded ≤ arena.size) : NoWrap cheri off rounded := by
  have unit := Nat.le_of_dvd (Nat.pos_of_ne_zero arena.nonnull)
    ((laws.alignment_mono fits).trans arena.aligned)
  have close := Alignment.up_lt (alignment_pos laws rounded) off
  have user := arena.userSpace
  rw [NoWrap, alignedOffset, addressSpace]
  omega

theorem pow_dvd_alignedOffset (laws : cheri.Laws) {k off : Nat}
    (multiple : 2 ^ k ∣ off) (rounded : Nat) :
    2 ^ k ∣ alignedOffset cheri off rounded := by
  obtain ⟨e, _, power, _⟩ := alignment_pow laws rounded
  rw [alignedOffset, power]
  exact Alignment.pow_dvd_up multiple

/-- The capability of an object of `length` bytes at address `start`. -/
def objectCap (arena : Arena cheri) (start length : Nat) : Cap :=
  { tag := true
    base := start
    length := length
    address := start
    perms := { arena.base.perms with swVmem := false } }

theorem derive_exact (laws : cheri.Laws) (arena : Arena cheri)
    {start sizeBytes : Nat} (lower : arena.base.base ≤ start)
    (upper : start + cheri.representableLength sizeBytes ≤
      arena.base.base + arena.size)
    (aligned : cheri.alignment (cheri.representableLength sizeBytes) ∣ start) :
    (cheri.boundsSet (cheri.addressSet arena.base start)
      sizeBytes).withoutSwVmem =
      objectCap arena start (cheri.representableLength sizeBytes) := by
  have covered := arena.covered
  have inBounds := laws.representable_inBounds arena.base start lower (by omega)
  have moved : cheri.addressSet arena.base start =
      { tag := true
        base := arena.base.base
        length := arena.base.length
        address := start
        perms := arena.base.perms } := by
    simp [Intrinsics.addressSet, inBounds, arena.tagged]
  rw [moved, laws.boundsSet_exact _ _ rfl lower (by simpa using by omega) aligned]
  simp [Cap.withoutSwVmem, objectCap]

theorem alignment_dvd_start (laws : cheri.Laws) (arena : Arena cheri)
    {off rounded : Nat} (fits : rounded ≤ arena.size) :
    cheri.alignment rounded ∣
      arena.base.base + alignedOffset cheri off rounded :=
  Nat.dvd_add ((laws.alignment_mono fits).trans arena.aligned)
    (Alignment.dvd_up _ _)

theorem deriveObject_eq (laws : cheri.Laws) (arena : Arena cheri)
    {off sizeBytes : Nat}
    (fits : alignedOffset cheri off (cheri.representableLength sizeBytes) +
      cheri.representableLength sizeBytes ≤ arena.size) :
    deriveObject arena
        (alignedOffset cheri off (cheri.representableLength sizeBytes))
        sizeBytes =
      objectCap arena
        (arena.base.base +
          alignedOffset cheri off (cheri.representableLength sizeBytes))
        (cheri.representableLength sizeBytes) := by
  rw [deriveObject, arena.atStart]
  exact derive_exact laws arena (by omega) (by omega)
    (alignment_dvd_start laws arena (by omega))

theorem stoplessAlloc_eq_some (laws : cheri.Laws) {arena : Arena cheri}
    {bump sizeBytes newBump : Nat} {obj : Cap}
    (noWrap : NoWrap cheri bump (cheri.representableLength sizeBytes))
    (allocated : stoplessAlloc arena bump sizeBytes = some (obj, newBump)) :
    ∃ off, off = alignedOffset cheri bump (cheri.representableLength sizeBytes) ∧
      newBump = off + cheri.representableLength sizeBytes ∧
      newBump ≤ arena.size ∧ 0 < sizeBytes ∧
      cheri.alignment (cheri.representableLength sizeBytes) ∣
        arena.base.base + off ∧
      obj = objectCap arena (arena.base.base + off)
        (cheri.representableLength sizeBytes) := by
  simp only [stoplessAlloc, noWrap.roundedLength_eq] at allocated
  split at allocated
  · cases allocated
  · rename_i accepted
    push Not at accepted
    split at allocated
    · cases allocated
    · rename_i fits
      rw [newOffset_eq laws noWrap, alignUpRepr_eq laws noWrap] at *
      push Not at fits
      cases allocated
      refine ⟨_, rfl, rfl, fits,
        Nat.pos_of_ne_zero accepted.1,
        alignment_dvd_start laws arena (by omega),
        deriveObject_eq laws arena fits⟩

end Allocator

end StoplessGC
