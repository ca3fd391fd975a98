import StoplessGC.Allocator

/-!
# Interleaved allocation

Any number of `stopless_alloc` calls share one `bump_offset`.  The atomic
steps are the first load and the weak compare-and-swap, which may fail
spuriously and hands back the value it found.  A call that wins reserves the
extent it computed from the value it swapped out, so everything follows from
one fact: a reserved extent lies between two successive values of
`bump_offset`.
-/

namespace StoplessGC

namespace Allocator

open Interleaving

/-- Where a call of `stopless_alloc` stands. -/
inductive Pc where
  | start
  | loop (cur : Nat)
  | cas (cur : Nat)
  | claimed (alignedOff : Nat)
  | returned (alignedOff : Nat) (obj : Cap)
  | null

variable {cheri : Intrinsics}

/-- The steps of a call for `sizeBytes` bytes over `bump_offset`. -/
inductive CallStep (arena : Arena cheri) (sizeBytes : Nat) :
    Nat → Pc → Nat → Pc → Prop where
  | reject {bump : Nat} :
      sizeBytes = 0 ∨ roundedLength cheri sizeBytes < sizeBytes →
      CallStep arena sizeBytes bump .start bump .null
  | load {bump : Nat} :
      ¬ (sizeBytes = 0 ∨ roundedLength cheri sizeBytes < sizeBytes) →
      CallStep arena sizeBytes bump .start bump (.loop bump)
  | outOfMemory {bump cur : Nat} :
      newOffset cheri cur (roundedLength cheri sizeBytes) > arena.size →
      CallStep arena sizeBytes bump (.loop cur) bump .null
  | candidate {bump cur : Nat} :
      ¬ newOffset cheri cur (roundedLength cheri sizeBytes) >
        arena.size →
      CallStep arena sizeBytes bump (.loop cur) bump (.cas cur)
  | swapped {cur : Nat} :
      CallStep arena sizeBytes cur (.cas cur)
        (newOffset cheri cur (roundedLength cheri sizeBytes))
        (.claimed (alignUpRepr cheri cur (roundedLength cheri sizeBytes)))
  | failed {bump cur : Nat} :
      CallStep arena sizeBytes bump (.cas cur) bump (.loop bump)
  | derive {bump alignedOff : Nat} :
      CallStep arena sizeBytes bump (.claimed alignedOff) bump
        (.returned alignedOff (deriveObject arena alignedOff sizeBytes))

/-- The extent a call has reserved so far. -/
def Pc.reserved : Pc → Option Nat
  | .claimed alignedOff => some alignedOff
  | .returned alignedOff _ => some alignedOff
  | _ => none

section Calls

variable {ι : Type*} (arena : Arena cheri) (request : ι → Nat)

/-- The rounded length of call `i`. -/
def rounded (cheri : Intrinsics) (request : ι → Nat) (i : ι) : Nat :=
  cheri.representableLength (request i)

/-- Steps of call `i` that compute no extent beyond `2^64 - 1`. -/
def step (i : ι) (bump : Nat) (pc : Pc) (bump' : Nat) (pc' : Pc) : Prop :=
  CallStep arena (request i) bump pc bump' pc' ∧
    ∀ cur, pc = .loop cur → NoWrap cheri cur (rounded cheri request i)

/-- What a call knows at each point. -/
def CallOk (i : ι) (bump : Nat) : Pc → Prop
  | .start => True
  | .loop _ => True
  | .cas cur => NoWrap cheri cur (rounded cheri request i) ∧
      alignedOffset cheri cur (rounded cheri request i) +
        rounded cheri request i ≤ arena.size
  | .claimed alignedOff =>
      ∃ cur, alignedOff = alignedOffset cheri cur (rounded cheri request i) ∧
        alignedOff + rounded cheri request i ≤ arena.size ∧
        alignedOff + rounded cheri request i ≤ bump
  | .returned alignedOff obj =>
      alignedOff + rounded cheri request i ≤ arena.size ∧
        alignedOff + rounded cheri request i ≤ bump ∧
        obj = objectCap arena (arena.base.base + alignedOff)
          (rounded cheri request i)
  | .null => True

/-- The invariant of all configurations. -/
structure Separated (c : Config ι Nat Pc) : Prop where
  below : c.shared ≤ arena.size
  own : ∀ i, CallOk arena request i c.shared (c.locals i)
  apart : ∀ i j a b, i ≠ j → (c.locals i).reserved = some a →
    (c.locals j).reserved = some b →
    a + rounded cheri request i ≤ b ∨ b + rounded cheri request j ≤ a

variable {arena request}

theorem CallOk.mono {i : ι} {bump bump' : Nat} {pc : Pc}
    (ok : CallOk arena request i bump pc) (grown : bump ≤ bump') :
    CallOk arena request i bump' pc := by
  cases pc with
  | claimed alignedOff =>
      obtain ⟨cur, here, fits, reached⟩ := ok
      exact ⟨cur, here, fits, reached.trans grown⟩
  | returned alignedOff obj =>
      obtain ⟨fits, reached, derived⟩ := ok
      exact ⟨fits, reached.trans grown, derived⟩
  | _ => exact ok

theorem CallOk.reserved_le {i : ι} {bump : Nat} {pc : Pc} {a : Nat}
    (ok : CallOk arena request i bump pc) (reserved : pc.reserved = some a) :
    a + rounded cheri request i ≤ bump := by
  cases pc <;> cases reserved
  · obtain ⟨_, _, _, reached⟩ := ok
    exact reached
  · exact ok.2.1

/-- What one step of a call does: it moves `bump_offset` only when it reserves
the extent in between, and otherwise keeps what it has reserved. -/
theorem step_effect (laws : cheri.Laws) {i : ι} {bump bump' : Nat} {pc pc' : Pc}
    (ok : CallOk arena request i bump pc) (inside : bump ≤ arena.size)
    (taken : step arena request i bump pc bump' pc') :
    CallOk arena request i bump' pc' ∧ bump' ≤ arena.size ∧
      (bump' = bump ∧ pc'.reserved = pc.reserved ∨
        pc.reserved = none ∧ ∃ a, pc' = .claimed a ∧ bump ≤ a ∧
          bump' = a + rounded cheri request i) := by
  obtain ⟨called, noWrap⟩ := taken
  cases called with
  | reject _ => exact ⟨trivial, inside, .inl ⟨rfl, rfl⟩⟩
  | load _ => exact ⟨trivial, inside, .inl ⟨rfl, rfl⟩⟩
  | outOfMemory _ => exact ⟨trivial, inside, .inl ⟨rfl, rfl⟩⟩
  | candidate fits =>
      have fine := noWrap _ rfl
      have extent := newOffset_eq laws fine
      simp only [rounded] at fine extent
      rw [fine.roundedLength_eq, extent] at fits
      exact ⟨⟨fine, Nat.le_of_not_gt fits⟩, inside, .inl ⟨rfl, rfl⟩⟩
  | swapped =>
      obtain ⟨fine, fits⟩ := ok
      have extent := newOffset_eq laws fine
      have start := alignUpRepr_eq laws fine
      simp only [rounded] at *
      rw [fine.roundedLength_eq, extent, start]
      exact ⟨⟨_, rfl, fits, Nat.le_refl _⟩, fits,
        .inr ⟨rfl, _, rfl, le_alignedOffset laws _ _, rfl⟩⟩
  | failed => exact ⟨trivial, inside, .inl ⟨rfl, rfl⟩⟩
  | derive =>
      obtain ⟨cur, rfl, fits, reached⟩ := ok
      exact ⟨⟨fits, reached, deriveObject_eq laws arena fits⟩, inside,
        .inl ⟨rfl, rfl⟩⟩

variable [DecidableEq ι]

theorem Separated.step (laws : cheri.Laws) {c : Config ι Nat Pc}
    (separated : Separated arena request c) {i : ι} {bump' : Nat} {pc' : Pc}
    (taken : Allocator.step arena request i c.shared (c.locals i) bump' pc') :
    c.shared ≤ bump' ∧ Separated arena request (c.advance i bump' pc') := by
  obtain ⟨ok, inside, effect⟩ :=
    step_effect laws (separated.own i) separated.below taken
  have grown : c.shared ≤ bump' := by
    rcases effect with ⟨same, _⟩ | ⟨_, a, _, above, moved⟩ <;> omega
  refine ⟨grown, inside, ?_, ?_⟩
  · intro j
    by_cases same : j = i
    · subst same
      simpa using ok
    · rw [Config.advance_locals_of_ne _ _ _ same]
      exact (separated.own j).mono grown
  -- a fresh extent starts above every extent reserved before it
  have fresh : ∀ j a b, j ≠ i → pc'.reserved = some a →
      (c.locals j).reserved = some b →
      a + rounded cheri request i ≤ b ∨ b + rounded cheri request j ≤ a := by
    intro j a b other mine theirs
    rcases effect with ⟨_, kept⟩ | ⟨_, claim, rfl, above, _⟩
    · rw [kept] at mine
      exact separated.apart i j a b other.symm mine theirs
    · cases mine
      have reached := (separated.own j).reserved_le theirs
      omega
  intro j k a b different jReserved kReserved
  by_cases jHere : j = i
  · subst jHere
    rw [Config.advance_locals_self] at jReserved
    rw [Config.advance_locals_of_ne _ _ _ different.symm] at kReserved
    exact fresh k a b different.symm jReserved kReserved
  · rw [Config.advance_locals_of_ne _ _ _ jHere] at jReserved
    by_cases kHere : k = i
    · subst kHere
      rw [Config.advance_locals_self] at kReserved
      exact (fresh j b a jHere kReserved jReserved).symm
    · rw [Config.advance_locals_of_ne _ _ _ kHere] at kReserved
      exact separated.apart j k a b different jReserved kReserved

variable {start c : Config ι Nat Pc}

theorem separated_of_reachable (laws : cheri.Laws)
    (fresh : ∀ i, start.locals i = .start) (inside : start.shared ≤ arena.size)
    (reachable : Reachable (step arena request) start c) :
    Separated arena request c := by
  apply reachable.invariant (Separated arena request)
  · refine ⟨inside, fun i => ?_, fun i j a b _ reserved => ?_⟩
    · rw [fresh i]
      trivial
    · rw [fresh i] at reserved
      cases reserved
  · intro c i shared here separated taken
    exact (separated.step laws taken).2

theorem reserved_stable (laws : cheri.Laws) {i : ι} {a : Nat}
    (separated : Separated arena request start)
    (reserved : (start.locals i).reserved = some a)
    (reachable : Reachable (step arena request) start c) :
    (c.locals i).reserved = some a := by
  have both : Separated arena request c ∧ (c.locals i).reserved = some a := by
    apply reachable.invariant (fun c =>
      Separated arena request c ∧ (c.locals i).reserved = some a)
    · exact ⟨separated, reserved⟩
    · rintro c j shared here ⟨separated, reserved⟩ taken
      refine ⟨(separated.step laws taken).2, ?_⟩
      by_cases same : i = j
      · subst same
        obtain ⟨_, _, ⟨_, kept⟩ | ⟨nothing, _⟩⟩ :=
          step_effect laws (separated.own i) separated.below taken
        · rw [Config.advance_locals_self, kept, reserved]
        · rw [nothing] at reserved
          cases reserved
      · rw [Config.advance_locals_of_ne _ _ _ same, reserved]
  exact both.2

/-- In every interleaving of allocation calls the reserved extents are pairwise
disjoint and inside the arena, returned bounds stay inside their own extent,
`bump_offset` only grows and never exceeds the arena, and a call that returns
`NULL` has never changed it. -/
theorem stoplessAlloc_never_overlaps (laws : cheri.Laws)
    (fresh : ∀ i, start.locals i = .start) (inside : start.shared ≤ arena.size)
    (reachable : Reachable (step arena request) start c) :
    (∀ i a, (c.locals i).reserved = some a →
      a + rounded cheri request i ≤ arena.size) ∧
    (∀ i j a b, i ≠ j → (c.locals i).reserved = some a →
      (c.locals j).reserved = some b →
      a + rounded cheri request i ≤ b ∨ b + rounded cheri request j ≤ a) ∧
    (∀ i a obj, c.locals i = .returned a obj →
      arena.base.base + a ≤ obj.base ∧
        obj.base + obj.length ≤
          arena.base.base + a + rounded cheri request i) ∧
    c.shared ≤ arena.size ∧
    (∀ c', Step (step arena request) c c' → c.shared ≤ c'.shared) ∧
    (∀ i before bump' pc', Reachable (step arena request) start before →
      step arena request i before.shared (before.locals i) bump' pc' →
      Reachable (step arena request) (before.advance i bump' pc') c →
      c.locals i = .null → bump' = before.shared) := by
  have separated := separated_of_reachable laws fresh inside reachable
  refine ⟨?_, separated.apart, ?_, separated.below, ?_, ?_⟩
  · intro i a reserved
    exact ((separated.own i).reserved_le reserved).trans separated.below
  · intro i a obj returned
    have ok := separated.own i
    rw [returned] at ok
    obtain ⟨_, _, rfl⟩ := ok
    exact ⟨Nat.le_refl _, Nat.le_refl _⟩
  · rintro c' ⟨i, taken⟩
    exact (separated.step laws taken).1
  · intro i before bump' pc' earlier taken later isNull
    have before_ok := separated_of_reachable laws fresh inside earlier
    obtain ⟨_, _, ⟨same, _⟩ | ⟨_, a, claimed, _⟩⟩ :=
      step_effect laws (before_ok.own i) before_ok.below taken
    · exact same
    · have kept := reserved_stable laws (before_ok.step laws taken).2
        (i := i) (a := a)
        (by rw [Config.advance_locals_self, claimed]; rfl) later
      rw [isNull] at kept
      cases kept

end Calls

private theorem reserve_small {c : Config Bool Nat Pc} (i : Bool)
    (starting : c.locals i = .start) (low : c.shared ≤ 64) :
    ∃ c', Reachable (step Arena.small fun _ => 64) c c' ∧
      c'.shared = c.shared + 64 ∧ c'.locals i = .claimed c.shared ∧
      ∀ j, j ≠ i → c'.locals j = c.locals j := by
  have unit : Intrinsics.exact.alignment 64 = 1 := rfl
  have aligned : alignedOffset Intrinsics.exact c.shared 64 = c.shared := by
    simp [alignedOffset, Alignment.up, unit]
  have fine : NoWrap Intrinsics.exact c.shared 64 := by
    simp only [NoWrap, aligned, addressSpace]
    omega
  have extent : newOffset Intrinsics.exact c.shared 64 = c.shared + 64 := by
    rw [newOffset_eq Intrinsics.exact_laws fine, aligned]
  have start : alignUpRepr Intrinsics.exact c.shared 64 = c.shared := by
    rw [alignUpRepr_eq Intrinsics.exact_laws fine, aligned]
  have loads : step Arena.small (fun _ => 64) i c.shared (c.locals i) c.shared
      (.loop c.shared) := by
    rw [starting]
    have accepted : ¬ ((64 : Nat) = 0 ∨
        Intrinsics.exact.representableLength 64 < 64) := by decide
    exact ⟨.load accepted, fun _ impossible => by cases impossible⟩
  have fits : step Arena.small (fun _ => 64) i c.shared (.loop c.shared)
      c.shared (.cas c.shared) := by
    refine ⟨.candidate ?_, ?_⟩
    · change ¬ newOffset Intrinsics.exact c.shared 64 > 2 ^ 24
      omega
    · rintro cur ⟨⟩
      exact fine
  have wins : step Arena.small (fun _ => 64) i c.shared (.cas c.shared)
      (c.shared + 64) (.claimed c.shared) := by
    have swap : CallStep Arena.small 64 c.shared (.cas c.shared)
        (newOffset Intrinsics.exact c.shared 64)
        (.claimed (alignUpRepr Intrinsics.exact c.shared 64)) := .swapped
    rw [extent, start] at swap
    exact ⟨swap, fun _ impossible => by cases impossible⟩
  refine ⟨((c.advance i c.shared (.loop c.shared)).advance i c.shared
    (.cas c.shared)).advance i (c.shared + 64) (.claimed c.shared), ?_, rfl,
    Config.advance_locals_self _ _ _ _, ?_⟩
  · refine ((Relation.ReflTransGen.single (.run i loads)).tail
      (.run i ?_)).tail (.run i ?_)
    · simpa using wins
    · simpa using fits
  · intro j other
    simp only [Config.advance_locals_of_ne _ _ _ other]

/-- Two calls for 64 bytes; the second one loads the offset the first one
left. -/
theorem stoplessAlloc_never_overlaps_pair :
    ∃ c : Config Bool Nat Pc,
      (c.locals false).reserved = some 0 ∧ (c.locals true).reserved = some 64 ∧
      (0 + rounded Intrinsics.exact (fun _ => 64) false ≤ 64 ∨
        64 + rounded Intrinsics.exact (fun _ => 64) true ≤ 0) := by
  obtain ⟨first, reachFirst, moved, claimed, others⟩ :=
    reserve_small (c := ⟨0, fun _ => .start⟩) false rfl (by decide)
  obtain ⟨second, reachSecond, _, claimedNext, kept⟩ :=
    reserve_small (c := first) true (others true (by decide))
      (by rw [moved])
  have low : (second.locals false).reserved = some 0 := by
    rw [kept false (by decide), claimed]
    rfl
  have high : (second.locals true).reserved = some 64 := by
    rw [claimedNext, moved]
    rfl
  exact ⟨second, low, high, (stoplessAlloc_never_overlaps
    Intrinsics.exact_laws (fun _ => rfl) (by decide)
    (reachFirst.trans reachSecond)).2.1 false true 0 64 (by decide) low high⟩

end Allocator

end StoplessGC
