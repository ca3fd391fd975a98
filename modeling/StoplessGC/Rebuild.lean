import StoplessGC.Execution
import StoplessGC.ForwardTableLookup

/-!
# Rebuilt object capabilities

The forwarding table stores an address and a length.  The allocator aligns an
offset for the rounded length and sets bounds from the requested one, whereas
`ft_derive` sets bounds from the rounded length that it reads back.  Both give
the same capability, so an object keeps its key however often it is moved.
-/

namespace StoplessGC

open ForwardTable Allocator

namespace Rebuild

variable {cheri : Intrinsics} {arena : Arena cheri}

/-- The capability of an object of `sizeBytes`, as the allocator returns it and
as it is rebuilt from its address and its length. -/
structure RoundTrip (arena : Arena cheri) (sizeBytes : Nat) (c : Cap) :
    Prop where
  tagged : c.tag = true
  start : c.base = c.address
  length : c.length = cheri.representableLength sizeBytes
  perms : c.perms = { arena.base.perms with swVmem := false }
  rebuilt : ftDerive cheri (some arena.base) c.address c.length = some c

theorem roundTrip_objectCap (laws : cheri.Laws) {start sizeBytes : Nat}
    (positive : 0 < sizeBytes) (lower : arena.base.base ≤ start)
    (upper : start + cheri.representableLength sizeBytes ≤
      arena.base.base + arena.size)
    (aligned : cheri.alignment (cheri.representableLength sizeBytes) ∣ start) :
    RoundTrip arena sizeBytes
      (objectCap arena start (cheri.representableLength sizeBytes)) where
  tagged := rfl
  start := rfl
  length := rfl
  perms := rfl
  rebuilt := by
    have long := laws.le_length sizeBytes
    have nonempty : 0 < cheri.representableLength sizeBytes := by omega
    exact ftDerive_objectCap laws (laws.length_idem sizeBytes) nonempty lower
      upper aligned

theorem stoplessAlloc_roundTrip (laws : cheri.Laws) {bump sizeBytes : Nat}
    (fits : alignedOffset cheri bump (cheri.representableLength sizeBytes) +
      cheri.representableLength sizeBytes ≤ arena.size)
    {c : Cap} {newBump : Nat}
    (allocated : stoplessAlloc arena bump sizeBytes = some (c, newBump)) :
    RoundTrip arena sizeBytes c := by
  have user := arena.userSpace
  have noWrap : NoWrap cheri bump (cheri.representableLength sizeBytes) := by
    rw [NoWrap, addressSpace]
    omega
  obtain ⟨off, offset, bump_eq, below, positive, aligned, rfl⟩ :=
    stoplessAlloc_eq_some laws noWrap allocated
  exact roundTrip_objectCap laws positive (by omega) (by omega) aligned

theorem stoplessAlloc_at (laws : cheri.Laws) {off sizeBytes : Nat}
    (positive : 0 < sizeBytes)
    (fits : off + cheri.representableLength sizeBytes ≤ arena.size)
    (aligned : cheri.alignment (cheri.representableLength sizeBytes) ∣
      arena.base.base + off) :
    stoplessAlloc arena off sizeBytes =
      some (objectCap arena (arena.base.base + off)
          (cheri.representableLength sizeBytes),
        off + cheri.representableLength sizeBytes) := by
  have long := laws.le_length sizeBytes
  have noWrap : NoWrap cheri off (cheri.representableLength sizeBytes) :=
    noWrap_of_le laws arena (by omega) (by omega)
  have unit := (laws.alignment_mono (m := cheri.representableLength sizeBytes)
    (n := arena.size) (by omega)).trans arena.aligned
  have here : alignedOffset cheri off (cheri.representableLength sizeBytes) =
      off :=
    Alignment.up_of_dvd (alignment_pos laws _) ((Nat.dvd_add_right unit).mp aligned)
  have object := @deriveObject_eq cheri laws arena off sizeBytes
    (by rw [here]; exact fits)
  rw [here] at object
  simp only [stoplessAlloc, noWrap.roundedLength_eq, newOffset_eq laws noWrap,
    alignUpRepr_eq laws noWrap, here, object]
  rw [if_neg (by omega), if_neg (by omega)]

/-- What the table holds for a copy, and the allocation it came from. -/
structure Rebuilds (arena : Arena cheri) (m : Machine) (b l : Nat) (c : Cap) :
    Prop where
  key : c.base = b
  derived : ftDerive cheri (some arena.base) b l = some c
  allocated : ∃ klass size,
    m.mem b = .header klass size ∧
      stoplessAlloc arena (b - arena.base.base) (size * heapWordSize) =
        some (c, b - arena.base.base + l) ∧
      RoundTrip arena (size * heapWordSize) c

theorem rebuilds_of_extent {ext : Extents} {m : Machine} (laws : cheri.Laws)
    (heap : Heap arena ext m) {b l : Nat} (there : ext b = some l) :
    Rebuilds arena m b l (objectCap arena b l) := by
  obtain ⟨klass, size, header, sized⟩ := heap.headers there
  have lower := heap.packed.lower there
  have upper := heap.packed.upper there
  have below := heap.packed.bump_le
  have aligned := heap.packed.aligned there
  have positive : 0 < size * heapWordSize :=
    Nat.mul_pos sized.positive (by decide)
  have start : arena.base.base + (b - arena.base.base) = b := by omega
  rw [← sized.length] at aligned upper
  refine ⟨rfl, heap.packed.ftDerive_eq laws there, klass, size, header, ?_, ?_⟩
  · have claimed := @stoplessAlloc_at cheri arena laws
      (b - arena.base.base) (size * heapWordSize) positive (by omega)
      (by rw [start]; exact aligned)
    rw [start, sized.length] at claimed
    exact claimed
  · have whole : RoundTrip arena (size * heapWordSize) _ :=
      roundTrip_objectCap laws positive lower (by omega) aligned
    rw [sized.length] at whole
    exact whole

/-- Objects are rebuilt as they were allocated, before and after any number of
moves. -/
theorem rebuild_round_trip (laws : cheri.Laws) (arena : Arena cheri) :
    (∀ {bump sizeBytes newBump : Nat} {c : Cap},
      alignedOffset cheri bump (cheri.representableLength sizeBytes) +
        cheri.representableLength sizeBytes ≤ arena.size →
      stoplessAlloc arena bump sizeBytes = some (c, newBump) →
      RoundTrip arena sizeBytes c) ∧
    ∀ {m : Machine}, Runs arena Machine.boot m →
      ∀ {n key b l : Nat}, Arrives (ftFind m.table) n key b l →
        (∃ original, Rebuilds arena m key l original) ∧
          ∃ c, Rebuilds arena m b l c ∧
            ftFind m.table c.base = ftFind m.table b := by
  constructor
  · intro bump sizeBytes newBump c fits allocated
    exact stoplessAlloc_roundTrip laws fits allocated
  · intro m runs n key b l arrives
    obtain ⟨ext, heap⟩ := runs.heap laws
    obtain ⟨a, link⟩ := arrives.entry
    have there := heap.target link
    have same := heap.ext_of_hops (hops_of_arrives arrives)
    exact ⟨⟨_, rebuilds_of_extent laws heap (same.trans there)⟩, _,
      rebuilds_of_extent laws heap there, rfl⟩

theorem rebuild_round_trip_small :
    RoundTrip Arena.small 24 (objectCap Arena.small (2 ^ 30 + 48) 24) := by
  have allocated : stoplessAlloc Arena.small 48 24 =
      some (objectCap Arena.small (2 ^ 30 + 48) 24, 72) := by decide
  exact (rebuild_round_trip Intrinsics.exact_laws Arena.small).1 (by decide)
    allocated

end Rebuild

end StoplessGC
