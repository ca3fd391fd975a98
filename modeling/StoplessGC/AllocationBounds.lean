import StoplessGC.Execution

/-!
# Allocation requests of any size

`mem_allocate` multiplies by the size of a heap word, and `stopless_alloc`
rounds, aligns and adds, all in `size_t`.  Only the rounding is checked.  A
request whose byte count or extent ends behind `2^64` can pass the test against
the size of the arena with what is left of it.
-/

namespace StoplessGC

open Allocator

namespace AllocationBounds

variable {cheri : Intrinsics} {arena : Arena cheri}

/-- `stopless_alloc` with the `bump_offset` it leaves. -/
def stoplessAllocCall (arena : Arena cheri) (bump sizeBytes : Nat) :
    Option Cap × Nat :=
  match stoplessAlloc arena bump sizeBytes with
  | none => (none, bump)
  | some (obj, newBump) => (some obj, newBump)

/-- `mem_allocate` with the `bump_offset` it leaves. -/
def memAllocateCall (arena : Arena cheri) (m : Machine) (words : Nat) :
    Option Cap × Nat :=
  match Collector.memAllocate arena m words with
  | none => (none, m.bumpOffset)
  | some (obj, m') => (some obj, m'.bumpOffset)

/-- The end of the extent for `sizeBytes`, as a natural number. -/
def extentEnd (cheri : Intrinsics) (bump sizeBytes : Nat) : Nat :=
  alignedOffset cheri bump (cheri.representableLength sizeBytes) +
    cheri.representableLength sizeBytes

/-- An allocation of `sizeBytes` that stays in the arena and behind the bump
offset, and spans what was requested. -/
structure Sound (arena : Arena cheri) (bump sizeBytes requested : Nat)
    (result : Option Cap × Nat) : Prop where
  extent : result.1 ≠ none → extentEnd cheri bump sizeBytes ≤ arena.size
  forward : result.1 ≠ none → bump ≤ result.2
  spans : ∀ obj, result.1 = some obj → requested ≤ obj.length
  refused : result.1 = none → result.2 = bump

/-- The request passes the tests of `stopless_alloc`, the last of them on the
wrapped end of the extent. -/
structure Granted (arena : Arena cheri) (bump sizeBytes : Nat) : Prop where
  nonzero : sizeBytes ≠ 0
  rounds : cheri.representableLength sizeBytes < addressSpace
  fits : extentEnd cheri bump sizeBytes % addressSpace ≤ arena.size

theorem alignedOffset_le (laws : cheri.Laws) {bump : Nat}
    (inArena : bump ≤ arena.size) (rounded : Nat) :
    alignedOffset cheri bump rounded ≤ 2 ^ 63 := by
  obtain ⟨e, narrow, unit, _⟩ := alignment_pow laws rounded
  have user := arena.userSpace
  have whole : Alignment.up (2 ^ e) (2 ^ 63) = 2 ^ 63 :=
    Alignment.up_of_dvd (Nat.two_pow_pos e) (Nat.pow_dvd_pow 2 (by omega))
  have below : bump ≤ 2 ^ 63 := by omega
  rw [alignedOffset, unit]
  calc Alignment.up (2 ^ e) bump
      ≤ Alignment.up (2 ^ e) (2 ^ 63) := Alignment.up_mono _ below
    _ = 2 ^ 63 := whole

/-- A request below `2^64` rounds to at most `2^64`. -/
theorem representableLength_le (laws : cheri.WordLaws) {sizeBytes : Nat}
    (word : sizeBytes < addressSpace) :
    cheri.representableLength sizeBytes ≤ addressSpace := by
  calc cheri.representableLength sizeBytes
      ≤ cheri.representableLength addressSpace := laws.length_mono word.le
    _ = addressSpace := laws.length_top

theorem stoplessAlloc_cases (laws : cheri.WordLaws) {bump sizeBytes : Nat}
    (inArena : bump ≤ arena.size) (word : sizeBytes < addressSpace) :
    (¬ Granted arena bump sizeBytes ∧
        stoplessAlloc arena bump sizeBytes = none) ∨
      (Granted arena bump sizeBytes ∧
        stoplessAlloc arena bump sizeBytes =
          some (deriveObject arena
              (alignedOffset cheri bump (cheri.representableLength sizeBytes))
              sizeBytes,
            extentEnd cheri bump sizeBytes % addressSpace)) := by
  have long := laws.le_length sizeBytes
  rcases Nat.lt_or_eq_of_le (representableLength_le laws word) with rounds | top
  · have rounded : roundedLength cheri sizeBytes =
        cheri.representableLength sizeBytes := Nat.mod_eq_of_lt rounds
    have start := alignedOffset_le laws.toLaws inArena
      (cheri.representableLength sizeBytes)
    have aligned := @alignUpRepr_of_lt cheri laws.toLaws bump
      (cheri.representableLength sizeBytes) (by rw [addressSpace]; omega)
    simp only [stoplessAlloc, rounded, newOffset, aligned]
    by_cases zero : sizeBytes = 0
    · exact .inl ⟨fun granted => granted.nonzero zero, if_pos (.inl zero)⟩
    · rw [if_neg (by omega)]
      by_cases fits : extentEnd cheri bump sizeBytes % addressSpace ≤ arena.size
      · exact .inr ⟨⟨zero, rounds, fits⟩, if_neg (Nat.not_lt.mpr fits)⟩
      · exact .inl ⟨fun granted => fits granted.fits,
          if_pos (Nat.lt_of_not_le fits)⟩
  · refine .inl ⟨fun granted => absurd granted.rounds (by omega), ?_⟩
    have zero : roundedLength cheri sizeBytes = 0 := by
      rw [roundedLength, top, Nat.mod_self]
    simp only [stoplessAlloc, zero]
    rw [if_pos (by omega)]

/-- A granted request is sound exactly when its extent ends below `2^64` and
its byte count was not cut off. -/
theorem granted_sound_iff (laws : cheri.WordLaws) {bump sizeBytes : Nat}
    (granted : Granted arena bump sizeBytes) (requested : Nat)
    (cut : sizeBytes = requested % addressSpace) :
    Sound arena bump sizeBytes requested
        (some (deriveObject arena
            (alignedOffset cheri bump (cheri.representableLength sizeBytes))
            sizeBytes),
          extentEnd cheri bump sizeBytes % addressSpace) ↔
      requested < addressSpace ∧
        extentEnd cheri bump sizeBytes < addressSpace := by
  have user := arena.userSpace
  constructor
  · intro sound
    have ends := sound.extent (by simp)
    have below : extentEnd cheri bump sizeBytes < addressSpace := by
      rw [addressSpace]
      omega
    have object := deriveObject_eq laws.toLaws arena ends
    have spans := sound.spans _ rfl
    rw [object] at spans
    have rounds := granted.rounds
    exact ⟨Nat.lt_of_le_of_lt spans rounds, below⟩
  · rintro ⟨whole, below⟩
    rw [Nat.mod_eq_of_lt whole] at cut
    subst cut
    have ends := granted.fits
    rw [Nat.mod_eq_of_lt below] at ends ⊢
    have object := deriveObject_eq laws.toLaws arena ends
    have start := le_alignedOffset laws.toLaws bump
      (cheri.representableLength sizeBytes)
    constructor
    · intro _
      exact ends
    · intro _
      exact start.trans (Nat.le_add_right _ _)
    · intro obj returned
      cases returned
      rw [object]
      exact laws.le_length sizeBytes
    · intro refused
      cases refused

theorem sound_refused (bump sizeBytes requested : Nat) :
    Sound arena bump sizeBytes requested (none, bump) where
  extent := fun returned => absurd rfl returned
  forward := fun returned => absurd rfl returned
  spans := by
    intro obj returned
    cases returned
  refused := fun _ => rfl

theorem stoplessAllocCall_sound_iff (laws : cheri.WordLaws)
    {bump sizeBytes : Nat} (inArena : bump ≤ arena.size)
    (requested : Nat) (cut : sizeBytes = requested % addressSpace) :
    Sound arena bump sizeBytes requested
        (stoplessAllocCall arena bump sizeBytes) ↔
      (Granted arena bump sizeBytes →
        requested < addressSpace ∧
          extentEnd cheri bump sizeBytes < addressSpace) := by
  have word : sizeBytes < addressSpace := by
    rw [cut]
    exact Nat.mod_lt _ (by decide)
  rcases stoplessAlloc_cases laws inArena word with
    ⟨refused, call⟩ | ⟨granted, call⟩
  · simp only [stoplessAllocCall, call]
    exact ⟨fun _ granted => absurd granted refused,
      fun _ => sound_refused ..⟩
  · simp only [stoplessAllocCall, call,
      granted_sound_iff laws granted requested cut]
    exact ⟨fun bounds _ => bounds, fun bounds => bounds granted⟩

theorem memAllocateCall_eq (arena : Arena cheri) (m : Machine) (words : Nat) :
    memAllocateCall arena m words =
      stoplessAllocCall arena m.bumpOffset
        (words * heapWordSize % addressSpace) := by
  simp only [memAllocateCall, stoplessAllocCall, Collector.memAllocate]
  cases stoplessAlloc arena m.bumpOffset
    (words * heapWordSize % addressSpace) with
  | none => rfl
  | some result => rfl

/-- Both entry points of the allocator are sound exactly for the requests that
are refused or that do not wrap. -/
theorem allocation_sound_iff (laws : cheri.WordLaws) (arena : Arena cheri) :
    (∀ {bump sizeBytes : Nat}, bump ≤ arena.size →
      sizeBytes < addressSpace →
      (Sound arena bump sizeBytes sizeBytes
          (stoplessAllocCall arena bump sizeBytes) ↔
        (Granted arena bump sizeBytes →
          extentEnd cheri bump sizeBytes < addressSpace))) ∧
    ∀ {m : Machine} (words : Nat), m.bumpOffset ≤ arena.size →
      (Sound arena m.bumpOffset (words * heapWordSize % addressSpace)
          (words * heapWordSize) (memAllocateCall arena m words) ↔
        (Granted arena m.bumpOffset (words * heapWordSize % addressSpace) →
          words * heapWordSize < addressSpace ∧
            extentEnd cheri m.bumpOffset
              (words * heapWordSize % addressSpace) < addressSpace)) := by
  constructor
  · intro bump sizeBytes inArena word
    rw [stoplessAllocCall_sound_iff laws inArena sizeBytes
      (Nat.mod_eq_of_lt word).symm]
    exact ⟨fun bounds granted => (bounds granted).2,
      fun below granted => ⟨word, below granted⟩⟩
  · intro m words inArena
    rw [memAllocateCall_eq]
    exact stoplessAllocCall_sound_iff laws inArena (words * heapWordSize) rfl

theorem allocation_sound_iff_small :
    Sound Arena.small 64 100 100 (stoplessAllocCall Arena.small 64 100) := by
  refine ((allocation_sound_iff Intrinsics.exact_wordLaws Arena.small).1
    ?_ ?_).mpr ?_
  · decide
  · decide
  · intro _
    decide

/-- `2^60 + 1` words are granted 16 bytes, and a request of `2^64 - 8` bytes
moves the bump offset back from 16 to 8. -/
theorem allocation_wraps :
    (∃ obj m, Collector.memAllocate Arena.small Machine.boot (2 ^ 60 + 1) =
        some (obj, m) ∧ obj.length = 16) ∧
      ¬ Sound Arena.small Machine.boot.bumpOffset
        ((2 ^ 60 + 1) * heapWordSize % addressSpace)
        ((2 ^ 60 + 1) * heapWordSize)
        (memAllocateCall Arena.small Machine.boot (2 ^ 60 + 1)) ∧
      (stoplessAllocCall Arena.small 16 (2 ^ 64 - 8)).2 = 8 ∧
      ¬ Sound Arena.small 16 (2 ^ 64 - 8) (2 ^ 64 - 8)
        (stoplessAllocCall Arena.small 16 (2 ^ 64 - 8)) := by
  refine ⟨⟨objectCap Arena.small (2 ^ 30) 16,
    { Machine.boot with bumpOffset := 16 }, rfl, rfl⟩, ?_, by decide, ?_⟩
  · intro sound
    exact absurd (sound.spans (objectCap Arena.small (2 ^ 30) 16) rfl)
      (by decide)
  · intro sound
    exact absurd (sound.forward (by decide)) (by decide)

end AllocationBounds

end StoplessGC
