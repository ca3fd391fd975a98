import StoplessGC.ForwardingGraph

/-!
# Chains beyond the chase limit

Entries persist, and every relocation makes the chain of an old reference one
link longer.  `FT_CHASE_MAX` therefore limits how often an object may be
relocated while a reference to an old copy is still held, in a table that is
not corrupt at all.
-/

namespace StoplessGC

open ForwardTable Allocator Forwarding Collector Mutator

variable {cheri : Intrinsics} {arena : Arena cheri}

/-- The lookup of a stale base returns the capability of the current copy. -/
def FindsCurrent (arena : Arena cheri) (m : Machine) (key : Nat) : Prop :=
  ∃ b l, Ends (ftFind m.table) key b ∧ ObjectAt arena m b l ∧
    forwardTableLookup cheri (some arena.base) m.table key =
      some (objectCap arena b l)

/-- In every reachable machine, for every capability whose base has an entry:
the lookup returns the current copy if and only if the object has been
relocated at most `FT_CHASE_MAX` times since the capability was made. -/
theorem lookup_current_iff (laws : cheri.Laws) {m : Machine}
    (runs : Runs arena Machine.boot m) {c : Cap}
    (stale : ftFind m.table c.base ≠ none) :
    FindsCurrent arena m c.base ↔
      ∀ {n b : Nat}, Hops (ftFind m.table) n c.base b → n ≤ chaseMax := by
  obtain ⟨ext, heap⟩ := runs.heap laws
  constructor
  · intro finds n b hops
    obtain ⟨_, _, _, _, found⟩ := finds
    by_contra long
    have gaveUp := resolve_exhausted heap.upward hops (Nat.lt_of_not_le long)
    simp only [forwardTableLookup, gaveUp] at found
    cases found
  · intro short
    obtain ⟨b, ⟨n, hops⟩, ended⟩ := heap.exists_end c.base
    obtain ⟨l, there, found⟩ :=
      heap.lookup_of_hops laws stale hops ended (short hops)
    exact ⟨b, l, ⟨⟨n, hops⟩, ended⟩, heap.objectAt there, found⟩

namespace Relay

/-- The copy after `n` relocations of a one-word object. -/
def copyAt (n : Nat) : Cap := objectCap Arena.small (2 ^ 30 + 16 * n) 16

/-- A frame slot that always has the current copy, while `x0` keeps the first
reference: the machine after `n` cycles. -/
structure Relayed (n : Nat) (m : Machine) : Prop where
  runs : Runs Arena.small Machine.boot m
  slot : m.mem 16 = .value (copyAt n)
  held : (m.regs 0).base = 2 ^ 30
  bump : m.bumpOffset = 16 * n + 16
  chain : Hops (ftFind m.table) n (2 ^ 30) (2 ^ 30 + 16 * n)
  current : ftFind m.table (2 ^ 30 + 16 * n) = none
  unmarked : ∀ a, 2 ^ 30 + 16 * n ≤ a → m.shadow a = false
  sized : m.table.gTable = none ∨ (∃ t, m.table.gTable = some t) ∧
    m.table.gCapacity = initialCap ∧ m.table.gSize ≤ n

/-- The program before its first cycle. -/
def acts : List Act := [.op (.alloc 0 none 1), .op (.spill 16 0)]

theorem relayed_start : ∃ m, Relayed 0 m := by
  obtain ⟨m, ran, checked⟩ := (Option.any_eq_true _ _).mp
    (by decide +kernel : (perform Arena.small Machine.boot acts).any (fun m =>
      decide (m.mem 16 = .value (copyAt 0)) &&
      decide ((m.regs 0).base = 2 ^ 30) && decide (m.bumpOffset = 16)) = true)
  simp only [Bool.and_eq_true, decide_eq_true_eq] at checked
  obtain ⟨⟨slot, held⟩, bump⟩ := checked
  have untouched : m.table = initial ∧ m.shadow = fun _ => false := by
    have same : perform Arena.small Machine.boot acts = some m := ran
    cases same
    exact ⟨rfl, rfl⟩
  refine ⟨m, runs_perform ran, slot, held, bump, .here _, ?_, ?_, ?_⟩
  · rw [untouched.1]
    rfl
  · intro a _
    rw [untouched.2]
  · rw [untouched.1]
    exact .inl rfl

/-- The table does not grow before the first 45875 entries. -/
theorem Relayed.grown_eq {n : Nat} {m : Machine} (relayed : Relayed n m)
    (few : n ≤ 4096) :
    ∃ table, grown Replies.granted m = { m with table := table } ∧
      (∃ t, table.gTable = some t) ∧ table.gCapacity = initialCap ∧
      table.gSize ≤ n := by
  rcases relayed.sized with unused | ⟨⟨t, allocated⟩, capacity, size⟩
  · refine ⟨forwardTableInit true m.table, ?_, ?_⟩
    · simp only [grown, forwardTableMaybeGrow, unused]
      rfl
    · simp only [forwardTableInit, unused]
      exact ⟨⟨Table.zeroed initialCap, rfl⟩, trivial, Nat.zero_le n⟩
  · refine ⟨m.table, ?_, ⟨t, allocated⟩, capacity, size⟩
    have low : m.table.gSize * 10 < m.table.gCapacity * 7 := by
      rw [capacity, initialCap]
      omega
    simp only [grown, forwardTableMaybeGrow, allocated, if_pos low]

theorem Relayed.root {n : Nat} {m : Machine} (relayed : Relayed n m) :
    RootSlot Arena.small m 16 where
  place := by
    left
    change 16 < 2 ^ 30 + m.bumpOffset
    omega
  content := ⟨copyAt n, relayed.slot, fun _ => rfl⟩

theorem Relayed.stale {n : Nat} {m : Machine} (relayed : Relayed (n + 1) m) :
    ftFind m.table (m.regs 0).base ≠ none := by
  rw [relayed.held]
  cases relayed.chain with
  | hop linked _ =>
      rw [linked]
      exact Option.some_ne_none _

theorem Relayed.reaches {n : Nat} {m : Machine} (relayed : Relayed n m)
    (few : n ≤ 4096) {table : State}
    (same : ftFind table = ftFind m.table) :
    Reaches Arena.small Env.unset 8 (Scan.start { m with table := table }) 16
      (copyAt n) := by
  obtain ⟨ext, heap⟩ := relayed.runs.heap Intrinsics.exact_laws
  have inArena : isIn Arena.small (copyAt n) = true := by
    apply isIn_iff.mpr
    change 2 ^ 30 ≤ 2 ^ 30 + 16 * n ∧ 2 ^ 30 + 16 * n < 2 ^ 30 + 2 ^ 24
    omega
  have based : Based Arena.small ext (copyAt n) := by
    rcases heap.caps.mem relayed.slot with ⟨k, integer⟩ | based
    · cases integer
    · exact based
  obtain ⟨klass, header⟩ := heap.header_small based.extent
  exact
    { word := relayed.slot
      nonnull := by
        change 2 ^ 30 + 16 * n ≠ 0
        omega
      inArena := inArena
      unforwarded := by
        rw [show (Scan.start { m with table := table }).machine.table =
          table from rfl, forwardTableLookup_congr same]
        exact Heap.lookup_eq_none relayed.current
      below := (by decide : 0 < 8)
      copied := by
        refine ⟨klass, 1, Machine.header_of_load rfl header, rfl, ?_⟩
        have here : (Scan.start { m with table := table }).machine.bumpOffset =
            16 * n + 16 := relayed.bump
        rw [moveObject_small here (by omega)]
        simp }

theorem markAll_single {o : Cap} (nonnull : o.address ≠ 0)
    (shadow : Revoke.Shadow) :
    markAll Replies.granted.markRc 0 [o] shadow = fun a => shadow a ||
      (decide (o.base ≤ a) && decide (a < o.base + o.length)) := by
  simp only [markAll, Revoke.stoplessMarkRevokeCap, if_neg nonnull]
  rfl

theorem Relayed.placed {n : Nat} {m : Machine} (relayed : Relayed n m)
    (few : n ≤ 4096) (table : State) {ext : Extents} {size start bump : Nat}
    {o2 : Cap}
    (moves : Moves Arena.small ext { m with table := table } 16 (copyAt n) size
      start bump)
    (moved : moveObject Arena.small { m with table := table } (copyAt n) size =
      some (o2, copyOf { m with table := table } (copyAt n) size start bump)) :
    size = 1 ∧ bump = 16 * (n + 1) + 16 ∧ start = 2 ^ 30 + 16 * (n + 1) := by
  cases moves.sized.single
  have here : ({ m with table := table } : Machine).bumpOffset =
      16 * n + 16 := relayed.bump
  have bump_eq : bump = 16 * (n + 1) + 16 := by
    rw [moveObject_small here (by omega)] at moved
    have ends := congrArg Machine.bumpOffset
      (congrArg Prod.snd (Option.some.inj moved))
    rw [copyOf_bumpOffset, Machine.copyWords_bumpOffset] at ends
    rw [← ends]
    rfl
  have upper : start + 16 = 2 ^ 30 + bump := moves.fresh.upper
  exact ⟨rfl, bump_eq, by omega⟩

/-- The next cycle after its scan, which has visited the slot. -/
structure Visited (n : Nat) (m s : Machine) : Prop where
  slot : s.mem 16 = .value (copyAt (n + 1))
  regs : s.regs = m.regs
  bump : s.bumpOffset = 16 * (n + 1) + 16
  shadow : s.shadow = m.shadow
  unused : ftFind m.table (2 ^ 30 + 16 * (n + 1)) = none
  added : ftFind s.table = Function.update (ftFind m.table) (2 ^ 30 + 16 * n)
    (some (2 ^ 30 + 16 * (n + 1), 16))
  sized : (∃ t, s.table.gTable = some t) ∧ s.table.gCapacity = initialCap ∧
    s.table.gSize ≤ n + 1

theorem Relayed.visited {n : Nat} {m : Machine} (relayed : Relayed n m)
    (few : n ≤ 4096) :
    ∃ s, doit Arena.small Env.unset Replies.granted [16] m =
        .ok (revokeSynchronous Env.unset Replies.granted [copyAt n] s,
          [copyAt n]) ∧
      Visited n m s := by
  have laws := Intrinsics.exact_laws
  obtain ⟨ext, heap⟩ := relayed.runs.heap laws
  obtain ⟨table, grown_eq, ⟨t, allocated⟩, capacity, size⟩ :=
    relayed.grown_eq few
  obtain ⟨table', grew, live, same⟩ :=
    heap.live.maybeGrow Replies.granted.callocGrow
  have table_eq : table' = table := by
    simp only [grown, grew] at grown_eq
    exact congrArg Machine.table grown_eq
  subst table_eq
  have startHeap := heap.start live same
  have startRoot := relayed.root.start table'
  have reaches := relayed.reaches few same
  have returns : ∃ s, doOop Arena.small Env.unset Replies.granted 8
      (Scan.start { m with table := table' }) 16 = .ok s :=
    reaches.returns laws startHeap startRoot rfl
  obtain ⟨s, visited⟩ := returns
  obtain ⟨klass, size', o2, copied, table₁, fwd, header, moved, entered,
    machine_eq, movedFrom, _⟩ := reaches.inserts visited
  obtain ⟨start, bump, moves, rfl, outcome⟩ :=
    startHeap.inserted laws startRoot reaches header moved entered
  obtain ⟨rfl, bump_eq, rfl⟩ := relayed.placed few table' moves moved
  rw [copyOf_table] at entered
  obtain ⟨stillThere, sameCapacity, sameSize⟩ :=
    forwardTableCasInsert_capacity allocated entered
  have rebuilt : fwd = some (copyAt (n + 1)) ∧
      ftFind table₁ = Function.update (ftFind m.table) (2 ^ 30 + 16 * n)
        (some (2 ^ 30 + 16 * (n + 1), 16)) := by
    cases outcome with
    | added absent room live added =>
        refine ⟨(startHeap.packed.extend moves.fresh).ftDerive_eq laws
          (Function.update_self ..), ?_⟩
        rw [added]
        exact congrArg (fun find => Function.update find _ _) same
    | found present live unchanged =>
        exact absurd ((congrFun same _).trans relayed.current) present
    | full absent noRoom live unchanged =>
        refine absurd ?_ noRoom
        change (forwardTableInit true table').gSize <
          (forwardTableInit true table').gCapacity
        simp only [forwardTableInit, allocated, capacity, initialCap]
        omega
  refine ⟨s.machine, ?_, ?_⟩
  · have scanned : scanRoots Arena.small Env.unset Replies.granted
        (cycleLimit Env.unset m) [16]
        (Scan.start { m with table := table' }) = .ok s := by
      rw [scanRoots]
      exact congrArg (fun r => r >>= scanRoots _ _ _ _ []) visited
    have single : s.movedFrom = [copyAt n] := movedFrom
    simp only [doit, grew, scanned, ← single]
    rfl
  · rw [machine_eq]
    exact
      { slot := by
          rw [rebuilt.1]
          exact Machine.store_mem_self ..
        regs := copyOf_regs ..
        bump := by
          rw [fix_bumpOffset, ← bump_eq]
          exact copyOf_bumpOffset ..
        shadow := copyOf_shadow ..
        unused := heap.unlinked (moves.fresh.unused heap.packed)
        added := by
          rw [fix_table]
          exact rebuilt.2
        sized := by
          rw [fix_table]
          have more : table₁.gSize ≤ table'.gSize + 1 := sameSize
          exact ⟨stillThere, sameCapacity.trans capacity,
            Nat.le_trans more (Nat.succ_le_succ size)⟩ }

theorem Relayed.next {n : Nat} {m : Machine} (relayed : Relayed n m)
    (few : n ≤ 4096) : ∃ m', Relayed (n + 1) m' := by
  obtain ⟨s, returned, visited⟩ := relayed.visited few
  have resumed :=
    revokeSynchronous_resumed Env.unset Replies.granted [copyAt n] s
  have nonnull : (copyAt n).address ≠ 0 := by
    change 2 ^ 30 + 16 * n ≠ 0
    omega
  rw [markAll_single nonnull, visited.shadow] at resumed
  have unmarked : ∀ a, 2 ^ 30 + 16 * (n + 1) ≤ a → (m.shadow a ||
      (decide ((copyAt n).base ≤ a) &&
        decide (a < (copyAt n).base + (copyAt n).length))) = false := by
    intro a above
    have beyond : ¬ a < (copyAt n).base + (copyAt n).length := by
      change ¬ a < 2 ^ 30 + 16 * n + 16
      omega
    rw [relayed.unmarked a (by omega), decide_eq_false beyond]
    simp
  exact ⟨_,
    { runs := relayed.runs.tail (.cycle (by simpa using relayed.root) returned)
      slot := by
        rcases resumed.words with ⟨_, mem, _⟩ | ⟨_, mem, _⟩
        · rw [mem]
          change sweepWord _ (s.mem 16) = _
          rw [visited.slot]
          change Word.value (Revoke.sweepCap _ (copyAt (n + 1))) = _
          rw [Revoke.sweepCap]
          simp only [show (copyAt (n + 1)).base = 2 ^ 30 + 16 * (n + 1) from rfl,
            unmarked _ (Nat.le_refl _)]
          rfl
        · rw [mem, visited.slot]
      held := by
        rcases resumed.words with ⟨_, _, swept⟩ | ⟨_, _, unswept⟩
        · rw [swept]
          change (s.regs 0).base = _
          rw [visited.regs, relayed.held]
        · rw [unswept, visited.regs, relayed.held]
      bump := by rw [resumed.bump, visited.bump]
      chain := by
        rw [resumed.table, visited.added]
        have extended := relayed.chain.mono (Extends.update relayed.current
          (2 ^ 30 + 16 * (n + 1), 16))
        exact extended.snoc (Function.update_self ..)
      current := by
        have elsewhere : 2 ^ 30 + 16 * (n + 1) ≠ 2 ^ 30 + 16 * n := by omega
        rw [resumed.table, visited.added, Function.update_of_ne elsewhere,
          visited.unused]
      unmarked := by
        rw [resumed.shadow]
        exact unmarked
      sized := by
        rw [resumed.table]
        exact .inr visited.sized }⟩

theorem exists_relayed {n : Nat} (few : n ≤ 4097) : ∃ m, Relayed n m := by
  induction n with
  | zero => exact relayed_start
  | succ n ih =>
      obtain ⟨m, relayed⟩ := ih (by omega)
      exact relayed.next (by omega)

end Relay

/-- After 4097 cycles of a program that keeps its first reference in `x0`, the
lookup of that reference fails in a sound table. -/
theorem lookup_gives_up :
    ∃ m, Runs Arena.small Machine.boot m ∧
      ftFind m.table (m.regs 0).base ≠ none ∧
      forwardTableLookup Intrinsics.exact (some Arena.small.base) m.table
        (m.regs 0).base = none ∧
      ¬ FindsCurrent Arena.small m (m.regs 0).base := by
  obtain ⟨m, relayed⟩ := Relay.exists_relayed (Nat.le_refl 4097)
  obtain ⟨ext, heap⟩ := relayed.runs.heap Intrinsics.exact_laws
  have gaveUp : forwardTableLookup Intrinsics.exact (some Arena.small.base)
      m.table (m.regs 0).base = none := by
    rw [relayed.held]
    simp only [forwardTableLookup,
      resolve_exhausted heap.upward relayed.chain (by decide)]
  refine ⟨m, relayed.runs, relayed.stale, gaveUp, ?_⟩
  intro finds
  obtain ⟨_, _, _, _, found⟩ := finds
  rw [gaveUp] at found
  cases found

/-- After one cycle the lookup succeeds. -/
theorem lookup_current_iff_once :
    ∃ m, Runs Arena.small Machine.boot m ∧
      FindsCurrent Arena.small m (m.regs 0).base := by
  obtain ⟨m, relayed⟩ := Relay.exists_relayed (by decide : 1 ≤ 4097)
  obtain ⟨ext, heap⟩ := relayed.runs.heap Intrinsics.exact_laws
  refine ⟨m, relayed.runs, ?_⟩
  apply (lookup_current_iff Intrinsics.exact_laws relayed.runs
    relayed.stale).mpr
  intro n b hops
  have bound := heap.within hops
  rw [relayed.bump] at bound
  exact bound.trans (by decide)

end StoplessGC
