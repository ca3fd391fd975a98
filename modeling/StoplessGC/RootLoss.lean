import StoplessGC.Execution

/-!
# When a cycle keeps its roots

`forward_table_cas_insert` answers `NULL` when the table is full, and when the
key is there with a chain that the lookup gives up on.  `do_oop` stores the
answer into the slot.  The theorem says that a cycle keeps every root and every
moved object if and only if neither happens at an insertion.
-/

namespace StoplessGC

open ForwardTable Allocator Forwarding Collector Mutator

variable {cheri : Intrinsics} {arena : Arena cheri}

/-- An arena reference in the slot is afterwards a nonnull arena reference to
the same copy or to one that its forwarding entries lead to. -/
def KeepsRoot (arena : Arena cheri) (m m' : Machine) (p : Nat) : Prop :=
  ∀ o, m.mem p = .value o → o.address ≠ 0 → isIn arena o = true →
    ∃ o', m'.mem p = .value o' ∧ o'.address ≠ 0 ∧ isIn arena o' = true ∧
      Leads (ftFind m'.table) o.address o'.address

/-- What a single visit must not do: store `NULL` over a reference, or put an
object on `moved_from` that the table does not know. -/
structure KeepsObject (arena : Arena cheri) (s s' : Scan) (p : Nat) : Prop where
  slot : KeepsRoot arena s.machine s'.machine p
  retrievable : ∀ o, s'.movedFrom = s.movedFrom ++ [o] →
    forwardTableLookup cheri (some arena.base) s'.machine.table o.address ≠ none

/-- The machine on which the scan of a cycle starts. -/
def grown (replies : Replies) (m : Machine) : Machine :=
  match forwardTableMaybeGrow replies.callocGrow m.table with
  | .ok table => { m with table := table }
  | .error _ => m

/-- A cycle that loses nothing, at any visit and at its end. -/
structure LosesNothing (arena : Arena cheri) (env : Env) (replies : Replies)
    (roots : List Nat) (m m' : Machine) : Prop where
  slots : ∀ p, p ∈ roots → KeepsRoot arena m m' p
  visits : ∀ before after p s s', roots = before ++ p :: after →
    scanRoots arena env replies (cycleLimit env m) before
      (Scan.start (grown replies m)) = .ok s →
    doOop arena env replies (cycleLimit env m) s p = .ok s' →
    KeepsObject arena s s' p

namespace KeepsRoot

variable {m m₁ m₂ : Machine} {p : Nat}

theorem refl (m : Machine) (p : Nat) : KeepsRoot arena m m p := by
  intro o word nonnull inArena
  exact ⟨o, word, nonnull, inArena, .refl _⟩

theorem trans (first : KeepsRoot arena m m₁ p) (second : KeepsRoot arena m₁ m₂ p)
    (larger : Extends (ftFind m₁.table) (ftFind m₂.table)) :
    KeepsRoot arena m m₂ p := by
  intro o word nonnull inArena
  obtain ⟨o₁, word₁, nonnull₁, inArena₁, leads₁⟩ := first o word nonnull inArena
  obtain ⟨o₂, word₂, nonnull₂, inArena₂, leads₂⟩ :=
    second o₁ word₁ nonnull₁ inArena₁
  exact ⟨o₂, word₂, nonnull₂, inArena₂, (leads₁.mono larger).trans leads₂⟩

theorem resumed {marks : Revoke.Shadow} {swept : Prop}
    (after : Resumed m marks swept m₁) : KeepsRoot arena m m₁ p := by
  intro o word nonnull inArena
  rcases after.words with ⟨_, mem, _⟩ | ⟨_, mem, _⟩
  · refine ⟨Revoke.sweepCap marks o, ?_, nonnull, inArena, .refl _⟩
    rw [mem]
    change sweepWord marks (m.mem p) = _
    rw [word]
    rfl
  · refine ⟨o, ?_, nonnull, inArena, .refl _⟩
    rw [mem, word]

theorem fix {env : Env} {q b l : Nat} {o : Cap} (word : m.mem q = .value o)
    (leads : Leads (ftFind m.table) o.address b)
    (inArena : isIn arena (objectCap arena b l) = true) :
    KeepsRoot arena m (fix env m q (objectCap arena b l)) p := by
  unfold StoplessGC.fix
  split
  · exact .refl m p
  · by_cases here : p = q
    · subst here
      intro other word' _ _
      rw [word] at word'
      cases word'
      refine ⟨_, m.store_mem_self .., ?_, inArena, leads⟩
      have lower := (isIn_iff.mp inArena).1
      have positive := Nat.pos_of_ne_zero arena.nonnull
      omega
    · intro other word' nonnull within
      rw [← m.store_mem_of_ne _ here] at word'
      exact ⟨other, word', nonnull, within, .refl _⟩

end KeepsRoot

theorem Packed.isIn_objectCap {bump : Nat} {ext : Extents}
    (packed : Packed arena bump ext) {b l : Nat} (there : ext b = some l) :
    isIn arena (objectCap arena b l) = true := by
  have lower := packed.lower there
  have upper := packed.upper there
  have positive := packed.positive there
  have below := packed.bump_le
  apply isIn_iff.mpr
  change arena.base.base ≤ b ∧ b < arena.base.base + arena.size
  omega

theorem Visit.keepsRoot (laws : cheri.Laws) {env : Env} {granted : Bool}
    {p q : Nat} {ext ext' : Extents} {m m' : Machine} {news : List Cap}
    (heap : Heap arena ext m) (visited : RootSlot arena m p)
    (root : RootSlot arena m q)
    (visit : Visit arena env granted False p ext m ext' m' news) :
    KeepsRoot arena m m' q := by
  cases visit with
  | quiet => exact .refl m q
  | @fixed o b word based atStart present ends there =>
      refine .fix word ?_ (heap.packed.isIn_objectCap there)
      rw [atStart]
      exact ends.1
  | @moved o size start bump table moves absent room live added =>
      have there : Function.update ext start (some o.length) start =
          some o.length := Function.update_self ..
      have inArena := (heap.packed.extend moves.fresh).isIn_objectCap there
      have linked : ftFind table o.base = some (start, o.length) := by
        rw [added, Function.update_self]
      have copied : KeepsRoot arena m
          { copyOf m o size start bump with table := table } q := by
        intro other word nonnull within
        refine ⟨other, ?_, nonnull, within, .refl _⟩
        rw [← word]
        exact moves.frame laws (moves.outside root)
      have slotKept : ({ copyOf m o size start bump with table := table } :
          Machine).mem p = .value o := by
        rw [← moves.word]
        exact moves.frame laws (moves.outside visited)
      refine copied.trans (.fix slotKept ?_ inArena) ?_
      · rw [moves.atStart]
        exact .single linked
      · rw [fix_table]
        exact .refl _
  | lost loses moves missing live same => exact loses.elim

theorem Visit.retrievable (laws : cheri.Laws) {env : Env} {granted : Bool}
    {p : Nat} {ext ext' : Extents} {m m' : Machine} {o : Cap}
    (heap : Heap arena ext m) (root : RootSlot arena m p)
    (visit : Visit arena env granted False p ext m ext' m' [o]) :
    forwardTableLookup cheri (some arena.base) m'.table o.address ≠ none := by
  have after := visit.heap laws heap root
  cases visit with
  | @moved _ size start bump table moves absent room live added =>
      have below := moves.fresh.below heap.packed moves.based.extent
      have positive := heap.packed.positive moves.based.extent
      have elsewhere : start ≠ o.base := by omega
      have ended := heap.unlinked (moves.fresh.unused heap.packed)
      have found : resolve (ftFind table) o.base = some (start, o.length) := by
        simp only [resolve, added, Function.update_self, chaseMax, chase,
          Function.update_of_ne elsewhere, ended]
      rw [fix_table, moves.atStart]
      simp only [forwardTableLookup, found]
      rw [(heap.packed.extend moves.fresh).ftDerive_eq laws
        (Function.update_self ..)]
      simp
  | lost loses moves missing live same => exact loses.elim

theorem scanRoots_split {env : Env} {replies : Replies} {limit p : Nat}
    {before after : List Nat} {s s'' : Scan}
    (ran : scanRoots arena env replies limit (before ++ p :: after) s =
      .ok s'') :
    ∃ s₁ s₂, scanRoots arena env replies limit before s = .ok s₁ ∧
      doOop arena env replies limit s₁ p = .ok s₂ ∧
      scanRoots arena env replies limit after s₂ = .ok s'' := by
  induction before generalizing s with
  | nil =>
      obtain ⟨s₂, visited, rest⟩ := scanRoots_cons ran
      exact ⟨s, s₂, rfl, visited, rest⟩
  | cons q before ih =>
      obtain ⟨s₀, visited, rest⟩ := scanRoots_cons ran
      obtain ⟨s₁, s₂, first, second, third⟩ := ih rest
      refine ⟨s₁, s₂, ?_, second, third⟩
      rw [scanRoots, visited]
      exact first

theorem scanRoots_middle (laws : cheri.Laws) {env : Env} {replies : Replies}
    {limit p : Nat} {before after : List Nat} {ext : Extents} {s s' : Scan}
    (heap : Heap arena ext s.machine)
    (slots : ∀ q, q ∈ before ++ p :: after → RootSlot arena s.machine q)
    (ran : scanRoots arena env replies limit before s = .ok s') :
    (∃ ext', Heap arena ext' s'.machine) ∧ RootSlot arena s'.machine p := by
  have early : ∀ q, q ∈ before → RootSlot arena s.machine q :=
    fun q member => slots q (List.mem_append_left _ member)
  obtain ⟨ext', all, visits, _⟩ :=
    scanRoots_visits laws heap early (AtInsertion.trivial ..) ran
  obtain ⟨after', root⟩ := visits.invariant laws
    (fun _ m _ => RootSlot arena m p)
    (fun _ _ visit root => visit.rootSlot laws root) heap early []
    (slots p (by simp))
  exact ⟨⟨ext', after'⟩, root⟩

/-- The condition of the theorem: wherever a visit inserts, the table has a
free slot and the object has no entry yet. -/
def InsertionsFit (arena : Arena cheri) (env : Env) (replies : Replies)
    (roots : List Nat) (m : Machine) : Prop :=
  AtInsertion arena env replies (cycleLimit env m) roots
    (Scan.start (grown replies m)) (fun table key =>
      HasRoom replies.callocInsert table ∧ ftFind table key = none)

theorem InsertionsFit.losesNothing (laws : cheri.Laws) {env : Env}
    {replies : Replies} {roots : List Nat} {ext : Extents} {m m' : Machine}
    {moved : List Cap} (heap : Heap arena ext m)
    (slots : ∀ p, p ∈ roots → RootSlot arena m p)
    (returned : doit arena env replies roots m = .ok (m', moved))
    (fit : InsertionsFit arena env replies roots m) :
    LosesNothing arena env replies roots m m' := by
  obtain ⟨table, s, grew, live, same, scanned, _, branch⟩ :=
    doit_cases heap.live returned
  have start_eq : grown replies m = { m with table := table } := by
    simp only [grown, grew]
  have startHeap := heap.start live same
  have startSlots : ∀ p, p ∈ roots →
      RootSlot arena (Scan.start { m with table := table }).machine p :=
    fun p member => (slots p member).start table
  unfold InsertionsFit at fit
  rw [start_eq] at fit
  have room : AtInsertion arena env replies (cycleLimit env m) roots
      (Scan.start { m with table := table }) (fun table key =>
        False ∨ HasRoom replies.callocInsert table ∧ ftFind table key = none) :=
    fun _ _ _ _ _ split ran reaches => .inr (fit split ran reaches)
  constructor
  · intro p member
    obtain ⟨ext', all, visits, _⟩ :=
      scanRoots_visits laws startHeap startSlots room scanned
    obtain ⟨_, kept, _⟩ := visits.invariant laws
      (fun _ after _ => KeepsRoot arena m after p ∧ RootSlot arena after p)
      (fun heap visited visit before =>
        ⟨before.1.trans (visit.keepsRoot laws heap visited before.2)
          visit.extends, visit.rootSlot laws before.2⟩)
      startHeap startSlots []
      ⟨fun o word nonnull inArena => ⟨o, word, nonnull, inArena, .refl _⟩,
        startSlots p member⟩
    rcases branch with ⟨_, rfl⟩ | ⟨_, _, concurrent⟩ | ⟨_, _, rfl⟩
    · exact kept
    · obtain ⟨swept, resumed⟩ := revokeConcurrent_resumed concurrent
      refine kept.trans (.resumed resumed) ?_
      rw [resumed.table]
      exact .refl _
    · have resumed := revokeSynchronous_resumed env replies moved s.machine
      refine kept.trans (.resumed resumed) ?_
      rw [resumed.table]
      exact .refl _
  · intro before after p s₁ s₂ split early visited
    rw [start_eq] at early
    obtain ⟨⟨ext₁, heap₁⟩, root₁⟩ := scanRoots_middle laws startHeap
      (by rw [← split]; exact startSlots) early
    obtain ⟨ext₂, news, visit, movedFrom⟩ := doOop_visit laws heap₁ root₁
      (fun o reaches => room split early reaches) visited
    constructor
    · exact visit.keepsRoot laws heap₁ root₁ root₁
    · intro o appended
      rw [movedFrom] at appended
      have single : news = [o] := List.append_cancel_left appended
      subst single
      exact visit.retrievable laws heap₁ root₁

/-- A visit that puts an object with a retrievable entry on `moved_from` has
found room for it. -/
theorem Reaches.fits (laws : cheri.Laws) {env : Env} {replies : Replies}
    {limit : Nat} {ext : Extents} {s s' : Scan} {p : Nat} {o : Cap}
    (heap : Heap arena ext s.machine) (root : RootSlot arena s.machine p)
    (reaches : Reaches arena env limit s p o)
    (visited : doOop arena env replies limit s p = .ok s')
    (kept : KeepsObject arena s s' p) :
    HasRoom replies.callocInsert s.machine.table ∧
      ftFind s.machine.table o.address = none := by
  obtain ⟨klass, size, o2, m, table, fwd, header, copied, entered, machine_eq,
    movedFrom, _⟩ := reaches.inserts visited
  obtain ⟨start, bump, moves, rfl, outcome⟩ :=
    heap.inserted laws root reaches header copied entered
  have known := kept.retrievable o movedFrom
  rw [machine_eq, fix_table] at known
  have missing := reaches.unforwarded
  cases outcome with
  | added absent room live added =>
      rw [moves.atStart]
      exact ⟨room, absent⟩
  | found present live same =>
      rw [forwardTableLookup_congr same] at known
      exact absurd missing known
  | full absent noRoom live same =>
      rw [forwardTableLookup_congr same] at known
      exact absurd missing known

/-- From every reachable machine, a cycle that returns loses nothing exactly
when its insertions fit. -/
theorem doit_loses_nothing_iff (laws : cheri.Laws) {env : Env}
    {replies : Replies} {roots : List Nat} {m m' : Machine} {moved : List Cap}
    (runs : Runs arena Machine.boot m)
    (slots : ∀ p, p ∈ roots → RootSlot arena m p)
    (returned : doit arena env replies roots m = .ok (m', moved)) :
    LosesNothing arena env replies roots m m' ↔
      InsertionsFit arena env replies roots m := by
  obtain ⟨ext, heap⟩ := runs.heap laws
  constructor
  · intro keeps before after p s o split early reaches
    obtain ⟨table, s₀, grew, live, same, scanned, _⟩ :=
      doit_cases heap.live returned
    have start_eq : grown replies m = { m with table := table } := by
      simp only [grown, grew]
    rw [split] at scanned
    obtain ⟨s₁, s₂, first, visited, _⟩ := scanRoots_split scanned
    have sameScan : s₁ = s := by
      rw [start_eq, first] at early
      exact Except.ok.inj early
    subst sameScan
    obtain ⟨⟨ext₁, heap₁⟩, root₁⟩ := scanRoots_middle laws
      (heap.start live same)
      (by rw [← split]; exact fun q member => (slots q member).start table)
      first
    exact reaches.fits laws heap₁ root₁ visited
      (keeps.visits before after p s₁ s₂ split early visited)
  · exact InsertionsFit.losesNothing laws heap slots returned

theorem Allocator.stoplessAlloc_small {bump : Nat} (room : bump + 16 ≤ 2 ^ 24) :
    stoplessAlloc Arena.small bump 16 =
      some (objectCap Arena.small (2 ^ 30 + bump) 16, bump + 16) := by
  have unit : Intrinsics.exact.alignment 16 = 1 := by decide
  have offset : alignedOffset Intrinsics.exact bump 16 = bump := by
    rw [alignedOffset, unit]
    exact Alignment.up_of_dvd Nat.one_pos (Nat.one_dvd _)
  have noWrap : NoWrap Intrinsics.exact bump 16 := by
    rw [NoWrap, offset, addressSpace]
    omega
  have length : Intrinsics.exact.representableLength 16 = 16 := rfl
  have rounded : roundedLength Intrinsics.exact 16 = 16 := rfl
  have fits : ¬ bump + 16 > Arena.small.size := Nat.not_lt_of_le room
  have inArena : alignedOffset Intrinsics.exact bump
      (Intrinsics.exact.representableLength 16) +
      Intrinsics.exact.representableLength 16 ≤ Arena.small.size := by
    rw [length, offset]
    exact room
  have derived := deriveObject_eq Intrinsics.exact_laws Arena.small inArena
  rw [length, offset] at derived
  simp only [stoplessAlloc, rounded, newOffset_eq Intrinsics.exact_laws noWrap,
    alignUpRepr_eq Intrinsics.exact_laws noWrap, offset, derived, if_neg fits]
  rfl

theorem Collector.memAllocate_small {m : Machine} {bump : Nat}
    (here : m.bumpOffset = bump) (room : bump + 16 ≤ 2 ^ 24) :
    memAllocate Arena.small m 1 =
      some (objectCap Arena.small (2 ^ 30 + bump) 16,
        { m with bumpOffset := bump + 16 }) := by
  have allocated : stoplessAlloc Arena.small m.bumpOffset
      (1 * heapWordSize % addressSpace) =
        some (objectCap Arena.small (2 ^ 30 + bump) 16, bump + 16) := by
    rw [here]
    exact stoplessAlloc_small room
  rw [memAllocate, allocated]

theorem Collector.moveObject_small {m : Machine} {bump : Nat}
    (here : m.bumpOffset = bump) (room : bump + 16 ≤ 2 ^ 24) (o : Cap) :
    moveObject Arena.small m o 1 =
      some (objectCap Arena.small (2 ^ 30 + bump) 16,
        ({ m with bumpOffset := bump + 16 } : Machine).copyWords o.address
          (2 ^ 30 + bump) 1) := by
  rw [moveObject, memAllocate_small here room]
  rfl

theorem Heap.header_small {ext : Extents} {m : Machine} {a : Nat}
    (heap : Heap Arena.small ext m) (extent : ext a = some 16) :
    ∃ klass, m.mem a = .header klass 1 := by
  obtain ⟨klass, size, header, sized⟩ := heap.headers extent
  cases sized.single
  exact ⟨klass, header⟩

namespace Crowd

/-- The `i`th of many one-word objects, and the frame slot that holds it. -/
def objectAt (i : Nat) : Cap := objectCap Arena.small (2 ^ 30 + 16 * i) 16

def slotAt (i : Nat) : Nat := 16 * (i + 1)

/-- A program that allocates `n` objects and keeps each in a slot. -/
def crowd : Nat → Machine
  | 0 => Machine.boot
  | n + 1 =>
      (setReg (initialise { crowd n with bumpOffset := 16 * n + 16 }
        (2 ^ 30 + 16 * n) none 1 0) 0 (objectAt n)).store (slotAt n)
          (.value (objectAt n))

theorem crowd_bump (n : Nat) : (crowd n).bumpOffset = 16 * n := by
  cases n with
  | zero => rfl
  | succ n => exact Nat.mul_succ 16 n

theorem crowd_table (n : Nat) : (crowd n).table = initial := by
  induction n with
  | zero => rfl
  | succ n ih => exact ih

theorem crowd_slot {n : Nat} (few : n ≤ 2 ^ 20) {i : Nat} (below : i < n) :
    (crowd n).mem (slotAt i) = .value (objectAt i) := by
  induction n with
  | zero => omega
  | succ n ih =>
      rw [crowd]
      by_cases last : i = n
      · subst last
        exact Machine.store_mem_self ..
      · have elsewhere : slotAt i ≠ slotAt n := by
          rw [slotAt, slotAt]
          omega
        have low : slotAt i < 2 ^ 30 + 16 * n := by
          rw [slotAt]
          omega
        rw [Machine.store_mem_of_ne _ _ elsewhere]
        change (initialise { crowd n with bumpOffset := 16 * n + 16 }
          (2 ^ 30 + 16 * n) none 1 0).mem (slotAt i) = _
        rw [initialise_frame _ _ _ _ _ (.inl low)]
        exact ih (by omega) (by omega)

theorem runs_crowd {n : Nat} (few : n ≤ 2 ^ 20) :
    Runs Arena.small Machine.boot (crowd n) := by
  induction n with
  | zero => exact .refl
  | succ n ih =>
      have room : 16 * n + 16 ≤ 2 ^ 24 := by omega
      have allocated : memAllocate Arena.small (crowd n) 1 =
          some (objectAt n, { crowd n with bumpOffset := 16 * n + 16 }) :=
        memAllocate_small (crowd_bump n) room
      have admissible : Op.Admissible Intrinsics.exact (crowd n)
          (.alloc 0 none 1) := by
        refine ⟨by decide, ?_⟩
        apply noWrap_of_le Intrinsics.exact_laws Arena.small
        · rw [crowd_bump]
          exact (by omega : 16 * n ≤ 2 ^ 24)
        · decide
      have alloc : Step Arena.small (crowd n) (setReg
          (initialise { crowd n with bumpOffset := 16 * n + 16 }
            (2 ^ 30 + 16 * n) none 1 0) 0 (objectAt n)) := by
        have ran : exec Arena.small none 0 0 (crowd n) (.alloc 0 none 1) =
            some (setReg (initialise { crowd n with bumpOffset := 16 * n + 16 }
              (2 ^ 30 + 16 * n) none 1 0) 0 (objectAt n), true) := by
          simp only [exec, allocated]
          rfl
        exact .op _ 0 0 admissible ran
      have spill : Step Arena.small (setReg
          (initialise { crowd n with bumpOffset := 16 * n + 16 }
            (2 ^ 30 + 16 * n) none 1 0) 0 (objectAt n)) (crowd (n + 1)) := by
        have outside : Arena.small.covers (slotAt n) = false := by
          have low : slotAt n < 2 ^ 30 := by
            rw [slotAt]
            omega
          simp only [Arena.covers, Bool.and_eq_false_iff, decide_eq_false_iff_not]
          exact .inl (Nat.not_le_of_lt low)
        have ran : ∀ m : Machine, m.regs 0 = objectAt n →
            exec Arena.small none 0 0 m (.spill (slotAt n) 0) =
              some (m.store (slotAt n) (.value (objectAt n)), true) := by
          intro m held
          simp only [exec, outside, held]
          rfl
        exact .op (.spill (slotAt n) 0) 0 0 trivial (ran _ rfl)
      exact ((ih (by omega)).tail alloc).tail spill

/-- A move limit that lets all of them move. -/
def env : Env := { Env.unset with moveLimit := 100000 }

/-- The scan before it visits slot `k` of `n`. -/
structure Filling (n k : Nat) (s : Scan) : Prop where
  heap : ∃ ext, Heap Arena.small ext s.machine
  roots : ∀ j, j < n → RootSlot Arena.small s.machine (slotAt j)
  slots : ∀ j, k ≤ j → j < n → s.machine.mem (slotAt j) = .value (objectAt j)
  fresh : ∀ j, k ≤ j → j < n →
    ftFind s.machine.table (2 ^ 30 + 16 * j) = none
  moved : s.moved = k
  bump : s.machine.bumpOffset = 16 * n + 16 * k
  allocated : ∃ t, s.machine.table.gTable = some t
  capacity : s.machine.table.gCapacity = initialCap
  size : s.machine.table.gSize ≤ k

theorem rootSlot_crowd {n : Nat} (few : n ≤ 2 ^ 20) {i : Nat} (below : i < n) :
    RootSlot Arena.small (crowd n) (slotAt i) where
  place := by
    left
    change slotAt i < 2 ^ 30 + (crowd n).bumpOffset
    rw [crowd_bump, slotAt]
    omega
  content := ⟨objectAt i, crowd_slot few below, fun _ => rfl⟩

theorem filling_start {n : Nat} (few : n ≤ 2 ^ 20) :
    Filling n 0 (Scan.start (grown Replies.granted (crowd n))) := by
  obtain ⟨ext, heap⟩ := (runs_crowd few).heap Intrinsics.exact_laws
  have grown_eq : grown Replies.granted (crowd n) =
      { crowd n with table := forwardTableInit true initial } := by
    rw [grown, crowd_table]
    rfl
  have unchanged : ftFind (forwardTableInit true initial) =
      ftFind (crowd n).table := by
    rw [crowd_table]
    exact live_initial.ftFind_init true
  rw [grown_eq]
  constructor
  · exact ⟨ext, heap.start (live_initial.init true) unchanged⟩
  · intro j below
    exact (rootSlot_crowd few below).start _
  · intro j _ below
    exact crowd_slot few below
  · intro j _ _
    change ftFind (forwardTableInit true initial) _ = none
    rw [live_initial.ftFind_init true]
    rfl
  · rfl
  · exact crowd_bump n
  · exact ⟨Table.zeroed initialCap, rfl⟩
  · rfl
  · exact Nat.le_refl 0

theorem moveObject_crowd {n k : Nat} (few : n ≤ 2 ^ 19) {s : Scan}
    (filling : Filling n k s) (below : k < n) :
    moveObject Arena.small s.machine (objectAt k) 1 = some
      (objectCap Arena.small (2 ^ 30 + (16 * n + 16 * k)) 16,
        ({ s.machine with bumpOffset := 16 * n + 16 * k + 16 } :
          Machine).copyWords (2 ^ 30 + 16 * k) (2 ^ 30 + (16 * n + 16 * k))
            1) :=
  moveObject_small filling.bump (by omega) (objectAt k)

theorem Filling.reaches {n k : Nat} (few : n ≤ 2 ^ 16 + 1) {s : Scan}
    (filling : Filling n k s) (below : k < n) :
    Reaches Arena.small env env.moveLimit s (slotAt k) (objectAt k) := by
  obtain ⟨ext, heap⟩ := filling.heap
  have word := filling.slots k (Nat.le_refl k) below
  have inArena : isIn Arena.small (objectAt k) = true := by
    apply isIn_iff.mpr
    change 2 ^ 30 ≤ 2 ^ 30 + 16 * k ∧ 2 ^ 30 + 16 * k < 2 ^ 30 + 2 ^ 24
    omega
  obtain ⟨based, _⟩ := heap.based_of_root (filling.roots k below) word inArena
  obtain ⟨klass, header⟩ := heap.header_small based.extent
  exact
    { word := word
      nonnull := by
        change 2 ^ 30 + 16 * k ≠ 0
        omega
      inArena := inArena
      unforwarded := Heap.lookup_eq_none
        (filling.fresh k (Nat.le_refl k) below)
      below := by
        rw [filling.moved]
        change k < 100000
        omega
      copied := by
        refine ⟨klass, 1, Machine.header_of_load rfl header, rfl, ?_⟩
        rw [moveObject_crowd (by omega) filling below]
        simp }

theorem Filling.step {n k : Nat} (few : n ≤ 2 ^ 16 + 1) {s : Scan}
    (filling : Filling n k s) (below : k < n) :
    ∃ s', doOop Arena.small env Replies.granted env.moveLimit s (slotAt k) =
        .ok s' ∧
      Filling n (k + 1) s' ∧ s'.movedFrom = s.movedFrom ++ [objectAt k] ∧
      Extends (ftFind s.machine.table) (ftFind s'.machine.table) := by
  obtain ⟨ext, heap⟩ := filling.heap
  have laws := Intrinsics.exact_laws
  have root := filling.roots k below
  have reaches := filling.reaches few below
  have granted : Replies.granted.callocInsert = true := rfl
  obtain ⟨s', visited⟩ := reaches.returns laws heap root granted
  obtain ⟨klass, size, o2, m, table, fwd, header, copied, entered, machine_eq,
    movedFrom, moved⟩ := reaches.inserts visited
  obtain ⟨start, bump, moves, rfl, outcome⟩ :=
    heap.inserted laws root reaches header copied entered
  have anyway : ∀ o, Reaches Arena.small env env.moveLimit s (slotAt k) o →
      True ∨ HasRoom Replies.granted.callocInsert s.machine.table ∧
        ftFind s.machine.table o.address = none :=
    fun _ _ => .inl trivial
  obtain ⟨ext', news, visit, _⟩ := doOop_visit laws heap root anyway visited
  cases moves.sized.single
  have bump_eq : bump = 16 * n + 16 * k + 16 := by
    rw [moveObject_crowd (by omega) filling below] at copied
    have same := congrArg Machine.bumpOffset
      (congrArg Prod.snd (Option.some.inj copied))
    rw [copyOf_bumpOffset, Machine.copyWords_bumpOffset] at same
    exact same.symm
  obtain ⟨t, allocated⟩ := filling.allocated
  rw [copyOf_table] at entered
  obtain ⟨stillThere, capacity, size⟩ :=
    forwardTableCasInsert_capacity allocated entered
  refine ⟨s', visited, ?_, movedFrom, visit.extends⟩
  constructor
  · exact ⟨ext', visit.heap laws heap root⟩
  · intro j jBelow
    exact visit.rootSlot laws (filling.roots j jBelow)
  · intro j later jBelow
    have elsewhere : slotAt j ≠ slotAt k := by
      rw [slotAt, slotAt]
      omega
    rw [machine_eq, fix_mem_of_ne _ _ _ elsewhere]
    rw [← filling.slots j (by omega) jBelow]
    exact moves.frame laws (moves.outside (filling.roots j jBelow))
  · intro j later jBelow
    have before := filling.fresh j (by omega) jBelow
    rw [machine_eq, fix_table]
    cases outcome with
    | added absent room live added =>
        have elsewhere : 2 ^ 30 + 16 * j ≠ (objectAt k).base := by
          change 2 ^ 30 + 16 * j ≠ 2 ^ 30 + 16 * k
          omega
        rw [added, Function.update_of_ne elsewhere, before]
    | found present live same => rw [same, before]
    | full absent noRoom live same => rw [same, before]
  · rw [moved, filling.moved]
  · rw [machine_eq, fix_bumpOffset]
    change (copyOf s.machine (objectAt k) 1 start bump).bumpOffset = _
    rw [copyOf_bumpOffset, bump_eq]
    omega
  · rw [machine_eq, fix_table]
    exact stillThere
  · rw [machine_eq, fix_table]
    exact capacity.trans filling.capacity
  · rw [machine_eq, fix_table]
    exact size.trans (Nat.succ_le_succ filling.size)

/-- The slots that are presented, in order. -/
def slots (n : Nat) : List Nat := (List.range n).map slotAt

theorem slots_succ (n : Nat) : slots (n + 1) = slots n ++ [slotAt n] := by
  simp [slots, List.range_succ]

theorem slots_split {n k : Nat} (below : k < n) :
    ∃ after, slots n = slots k ++ slotAt k :: after := by
  induction n with
  | zero => omega
  | succ n ih =>
      rw [slots_succ]
      by_cases last : k = n
      · subst last
        exact ⟨[], rfl⟩
      · obtain ⟨after, split⟩ := ih (by omega)
        refine ⟨after ++ [slotAt n], ?_⟩
        rw [split, List.append_assoc, List.cons_append]

theorem filling_scan {n k : Nat} (few : n ≤ 2 ^ 16 + 1) (below : k ≤ n) :
    ∃ s, scanRoots Arena.small env Replies.granted env.moveLimit (slots k)
        (Scan.start (grown Replies.granted (crowd n))) = .ok s ∧
      Filling n k s := by
  induction k with
  | zero => exact ⟨_, rfl, filling_start (by omega)⟩
  | succ k ih =>
      obtain ⟨s, scanned, filling⟩ := ih (by omega)
      obtain ⟨s', visited, next, _, _⟩ := filling.step few (by omega)
      refine ⟨s', ?_, next⟩
      rw [slots_succ, scanRoots_append scanned, scanRoots, visited]
      rfl

theorem insertionsFit_crowd {n : Nat} (few : n ≤ 2 ^ 16) :
    InsertionsFit Arena.small env Replies.granted (slots n) (crowd n) := by
  intro before after p s o split early reaches
  have below : before.length < n := by
    have lengths := congrArg List.length split
    simp only [slots, List.length_map, List.length_range, List.length_append,
      List.length_cons] at lengths
    omega
  obtain ⟨after', again⟩ := slots_split below
  obtain ⟨same, rest⟩ := List.append_inj (split.symm.trans again)
    (by simp [slots])
  obtain ⟨rfl, -⟩ := List.cons.inj rest
  obtain ⟨s', scanned, filling⟩ :=
    filling_scan (Nat.le_succ_of_le few) (Nat.le_of_lt below)
  have early : scanRoots Arena.small env Replies.granted env.moveLimit
      (slots before.length) (Scan.start (grown Replies.granted (crowd n))) =
        .ok s := same ▸ early
  obtain rfl := Except.ok.inj (scanned.symm.trans early)
  have word := filling.slots before.length (Nat.le_refl _) below
  obtain rfl : objectAt before.length = o := by
    simpa using word.symm.trans reaches.word
  obtain ⟨t, allocated⟩ := filling.allocated
  have room : s'.machine.table.gSize < s'.machine.table.gCapacity := by
    rw [filling.capacity]
    exact Nat.lt_of_le_of_lt filling.size (Nat.lt_of_lt_of_le below few)
  refine ⟨?_, filling.fresh _ (Nat.le_refl _) below⟩
  simpa only [HasRoom, forwardTableInit, allocated] using room

/-- What a table with a limited capacity can know. -/
theorem keys_le_capacity {s : State} (live : Live s) {t : Table}
    (allocated : s.gTable = some t) {n : Nat}
    (known : ∀ j, j < n → ftFind s (2 ^ 30 + 16 * j) ≠ none) :
    n ≤ s.gCapacity := by
  obtain ⟨m, refines, _⟩ := live
  have shape := refines.shape allocated
  have injective : Function.Injective (fun j : Nat => 2 ^ 30 + 16 * j) := by
    intro i j same
    simp only at same
    omega
  have inside : (Finset.range n).image (fun j => 2 ^ 30 + 16 * j) ⊆ m.keys := by
    intro key member
    obtain ⟨j, jBelow, rfl⟩ := Finset.mem_image.mp member
    by_contra absent
    apply known j (Finset.mem_range.mp jBelow)
    rw [refines.ftFind_eq]
    exact refines.outside _ absent
  calc
    n = ((Finset.range n).image (fun j => 2 ^ 30 + 16 * j)).card := by
      rw [Finset.card_image_of_injective _ injective, Finset.card_range]
    _ ≤ m.keys.card := Finset.card_le_card inside
    _ = s.gSize := (refines.keys_card allocated).symm
    _ ≤ s.gCapacity := by
      rw [shape.count, ← shape.size_eq]
      exact OpenAddressing.occupied_card_le

theorem doit_crowd {n : Nat} (few : n ≤ 2 ^ 16 + 1) :
    ∃ m' moved, doit Arena.small env Replies.granted (slots n) (crowd n) =
      .ok (m', moved) := by
  obtain ⟨s, scanned, _⟩ := filling_scan few (Nat.le_refl n)
  have grown_eq : forwardTableMaybeGrow Replies.granted.callocGrow
      (crowd n).table = .ok (forwardTableInit true initial) := by
    rw [crowd_table]
    rfl
  rw [grown, grown_eq] at scanned
  have limit : cycleLimit env (crowd n) = env.moveLimit := rfl
  refine ⟨revokeSynchronous env Replies.granted s.movedFrom s.machine,
    s.movedFrom, ?_⟩
  simp only [doit, grown_eq, limit, scanned]
  rfl

/-- If nothing is lost, all objects that were visited have an entry. -/
theorem known_of_keeps {n : Nat} (few : n ≤ 2 ^ 16 + 1) {m' : Machine}
    (keeps : LosesNothing Arena.small env Replies.granted (slots n) (crowd n) m')
    {k : Nat} (below : k ≤ n) {s : Scan}
    (scanned : scanRoots Arena.small env Replies.granted env.moveLimit (slots k)
      (Scan.start (grown Replies.granted (crowd n))) = .ok s) {j : Nat}
    (visited : j < k) : ftFind s.machine.table (2 ^ 30 + 16 * j) ≠ none := by
  induction k generalizing s with
  | zero => omega
  | succ k ih =>
      obtain ⟨s₁, early, filling⟩ := filling_scan few (Nat.le_of_succ_le below)
      obtain ⟨s₂, here, _, movedFrom, larger⟩ := filling.step few (by omega)
      rw [slots_succ, scanRoots_append early, scanRoots, here] at scanned
      cases scanned
      obtain ⟨after, split⟩ := slots_split (Nat.lt_of_succ_le below)
      have kept := keeps.visits _ _ _ _ _ split early here
      by_cases last : j = k
      · subst last
        intro missing
        exact kept.retrievable _ movedFrom (Heap.lookup_eq_none missing)
      · obtain ⟨pair, known⟩ := Option.ne_none_iff_exists'.mp
          (ih (by omega) early (by omega))
        rw [larger known]
        simp

end Crowd

/-- A program with 65537 roots: the last of them finds the table full. -/
theorem doit_loses_root :
    Runs Arena.small Machine.boot (Crowd.crowd 65537) ∧
    (∀ p, p ∈ Crowd.slots 65537 →
      RootSlot Arena.small (Crowd.crowd 65537) p) ∧
    ∃ m' moved,
      doit Arena.small Crowd.env Replies.granted (Crowd.slots 65537)
        (Crowd.crowd 65537) = .ok (m', moved) ∧
      ¬ LosesNothing Arena.small Crowd.env Replies.granted (Crowd.slots 65537)
        (Crowd.crowd 65537) m' := by
  refine ⟨Crowd.runs_crowd (by decide), ?_, ?_⟩
  · intro p member
    obtain ⟨i, below, rfl⟩ := List.mem_map.mp member
    exact Crowd.rootSlot_crowd (by decide) (List.mem_range.mp below)
  · have few : 65537 ≤ 2 ^ 16 + 1 := by decide
    obtain ⟨m', moved, returned⟩ := Crowd.doit_crowd few
    refine ⟨m', moved, returned, fun keeps => ?_⟩
    obtain ⟨s, scanned, filling⟩ := Crowd.filling_scan few (Nat.le_refl 65537)
    obtain ⟨ext, heap⟩ := filling.heap
    obtain ⟨t, allocated⟩ := filling.allocated
    have fits := Crowd.keys_le_capacity heap.live allocated (fun j below =>
      Crowd.known_of_keeps few keeps (Nat.le_refl 65537) scanned below)
    rw [filling.capacity] at fits
    exact absurd fits (by decide)

/-- A program with 65536 roots keeps them all. -/
theorem doit_loses_nothing_iff_crowded :
    ∃ m' moved,
      doit Arena.small Crowd.env Replies.granted (Crowd.slots 65536)
        (Crowd.crowd 65536) = .ok (m', moved) ∧
      LosesNothing Arena.small Crowd.env Replies.granted (Crowd.slots 65536)
        (Crowd.crowd 65536) m' := by
  obtain ⟨m', moved, returned⟩ := Crowd.doit_crowd (n := 65536) (by decide)
  refine ⟨m', moved, returned, ?_⟩
  apply (doit_loses_nothing_iff Intrinsics.exact_laws
    (Crowd.runs_crowd (by decide)) ?_ returned).mpr
  · exact Crowd.insertionsFit_crowd (Nat.le_refl _)
  · intro p member
    obtain ⟨i, below, rfl⟩ := List.mem_map.mp member
    exact Crowd.rootSlot_crowd (by decide) (List.mem_range.mp below)

end StoplessGC
