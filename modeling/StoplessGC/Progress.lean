import StoplessGC.AllocatorAtomic
import StoplessGC.ForwardTableAtomic
import StoplessGC.Foundation.StepBounds

/-!
# Progress of allocation and of the forwarding table

`stopless_alloc` is lock-free: a swap can only fail because another call has
moved `bump_offset`, and each call moves it once.  `forward_table_lookup` is
wait-free.  A call of `forward_table_cas_insert` may wait for `new_addr`, and
then the winner for its key is two stores from publishing.
-/

namespace StoplessGC

open AtomicObject

namespace Allocator

variable {cheri : Intrinsics} {arena : Arena cheri}

/-- A weak swap that fails although nothing has changed. -/
def spurious (_ : Request) (bump : Nat) : Point → Point → Bool
  | .alloc (.cas cur), .alloc (.loop _) => cur == bump
  | _, _ => false

/-- What a call still has to pay for: its own accesses, and two more for every
other call, since it moves the offset that they have loaded. -/
def rank (others bump : Nat) : Point → Nat
  | .alloc .start => 2 * others + 4
  | .alloc (.loop cur) => 2 * others + 3 + if cur = bump then 0 else 2
  | .alloc (.cas cur) => 2 * others + 2 + if cur = bump then 0 else 2
  | .alloc (.claimed _) => 1
  | .used none => 1
  | .reset false => 2 * others + 1
  | _ => 0

/-- A loaded offset that has become stale costs its call two accesses. -/
theorem rank_le_add (others bump bump' : Nat) (point : Point) :
    rank others bump' point ≤ rank others bump point + 2 := by
  unfold rank
  split <;> (try split) <;> (try split) <;> omega

theorem rank_enter (others bump : Nat) (request : Request) :
    rank others bump request.enter ≤ 2 * others + 4 := by
  cases request <;> simp only [rank, Request.enter] <;> omega

/-- Only a swap that succeeds, and a reset, disturb the other calls. -/
theorem PointStep.pays (others : Nat) {request : Request} {bump bump' : Nat}
    {point point' : Point}
    (stepped : PointStep arena request bump point bump' point') :
    ∃ d, (∀ place, rank others bump' place ≤
        rank others bump place + d) ∧
      rank others bump' point' + others * d + 1 ≤
        rank others bump point +
          if spurious request bump point point' then 1 + 1 else 0 := by
  cases stepped with
  | used => exact ⟨0, fun _ => Nat.le_refl _, Nat.le_refl _⟩
  | reset =>
      refine ⟨2, rank_le_add others bump 0, ?_⟩
      simp only [rank, spurious]
      omega
  | @alloc sizeBytes _ _ pc pc' called =>
      cases called with
      | swapped =>
          refine ⟨2, rank_le_add others _ _, ?_⟩
          simp only [rank, spurious, if_pos]
          omega
      | @failed cur =>
          refine ⟨0, fun _ => Nat.le_refl _, ?_⟩
          by_cases fresh : cur = bump
          · simp only [rank, spurious, fresh, beq_self_eq_true, if_pos]
            omega
          · simp only [rank, spurious, if_pos, if_neg fresh,
              beq_eq_false_iff_ne.mpr fresh, Bool.false_eq_true]
            omega
      | load _ =>
          refine ⟨0, fun _ => Nat.le_refl _, ?_⟩
          simp only [rank, spurious, if_pos]
          omega
      | reject _ =>
          refine ⟨0, fun _ => Nat.le_refl _, ?_⟩
          simp only [rank, spurious]
          omega
      | outOfMemory _ =>
          refine ⟨0, fun _ => Nat.le_refl _, ?_⟩
          simp only [rank, spurious]
          omega
      | candidate _ =>
          refine ⟨0, fun _ => Nat.le_refl _, ?_⟩
          simp only [rank, spurious]
          omega
      | derive =>
          refine ⟨0, fun _ => Nat.le_refl _, ?_⟩
          simp only [rank, spurious]
          omega

/-- In every run the accesses of all calls are bounded by the number of calls,
but for swaps that fail spuriously: while calls go on, some call returns. -/
theorem stoplessAlloc_lockFree {ι γ ρ : Type*} [DecidableEq ι] [Fintype ι]
    {client : Client ι γ ρ Request Answer}
    {start c : Interleaving.Config ι (γ × Nat) (ρ × Option (Request × Point))}
    {t : Tally} (idle : ∀ i, (start.locals i).2 = none)
    (tallied : Tallied client (allocator arena) spurious start c t) :
    t.accesses ≤ (2 * (Fintype.card ι - 1) + 4) * t.calls + t.waits := by
  have paid := tallied.accesses_le
    (fun bump _ => rank (Fintype.card ι - 1) bump)
    (2 * (Fintype.card ι - 1) + 4) 1 (fun bump request => rank_enter _ bump request)
    (fun stepped => by
      obtain ⟨d, raised, enough⟩ := stepped.pays (Fintype.card ι - 1)
      exact ⟨d, fun _ => raised, enough⟩) idle
  omega

theorem stoplessAlloc_lockFree_pair : ∃ c t,
    Tallied (scripted Bool Request Answer) (allocator Arena.small) spurious
      twoCallers c t ∧
    (∀ i, (c.locals i).2 = none) ∧ t.accesses ≤ 6 * t.calls + t.waits := by
  obtain ⟨c, ran, between, _⟩ := twoCallers_run
  obtain ⟨t, tallied⟩ := exists_tallied spurious ran
  exact ⟨c, t, tallied, between,
    stoplessAlloc_lockFree (fun _ => rfl) tallied⟩

end Allocator

namespace ForwardTable

/-- The accesses of a lookup: one `ft_find` more than `FT_CHASE_MAX`. -/
def lookupBound (capacity : Nat) : Nat := (chaseMax + 1) * (capacity + 5)

def CasPc.rank (capacity : Nat) : CasPc → Nat
  | .loadTable => 2 * capacity + lookupBound capacity + 4
  | .loadCapacity _ => 2 * capacity + lookupBound capacity + 3
  | .loadKey _ mask _ probe => 2 * (mask - probe) + lookupBound capacity + 4
  | .exchange _ mask _ probe => 2 * (mask - probe) + lookupBound capacity + 3
  | .storeLen _ _ => 3
  | .storeAddr _ _ => 2
  | .addSize _ _ => 1
  | .spin _ _ => lookupBound capacity + 2
  | .lookup pc => pc.rank capacity + 1
  | _ => 0

def Thread.rank (capacity : Nat) : Thread → Nat
  | .lookup _ pc => pc.rank capacity
  | .casInsert _ _ pc => pc.rank capacity
  | _ => 0

/-- The accesses a call makes, but for those in which it waits. -/
def Request.bound (capacity : Nat) : Request → Nat
  | .lookup _ => lookupBound capacity
  | .casInsert _ _ => 2 * capacity + lookupBound capacity + 4

/-- The call finds the slot of its key without an address. -/
def Thread.spins (m : Memory) : Thread → Bool
  | .casInsert _ _ (.spin t i) => (m.slot t i).newAddr == 0
  | _ => false

/-- The call has its result. -/
def Thread.ended : Thread → Bool
  | .lookup _ (.done _) => true
  | .casInsert _ _ (.won _ _) => true
  | .casInsert _ _ (.got _) => true
  | _ => false

/-- The call does nothing new. -/
def Thread.waits (_ : Request) (m : Memory) (l : Thread) : Bool :=
  l.spins m || l.ended

variable {t₀ : Nat} {keys : Finset Nat} {m : Memory} {key : Nat}

theorem LookupPc.Relies.bounded {pc : LookupPc}
    (relies : pc.Relies t₀ m key) : pc.Bounded := by
  cases pc with
  | chase depth na nl find => exact relies.1.1
  | first find => trivial
  | done final => trivial

theorem lookupBound_pos (capacity : Nat) : 0 < lookupBound capacity :=
  Nat.mul_pos (Nat.succ_pos _) (Nat.succ_pos _)

theorem rank_lookup (capacity : Nat) :
    (LookupPc.first .loadTable).rank capacity = lookupBound capacity := by
  simp only [LookupPc.rank, FindPc.rank, lookupBound, Nat.add_mul]
  omega

/-- The next iteration of the probe loop has two accesses less. -/
theorem rank_advance (capacity t mask i probe : Nat) :
    (CasPc.advance t mask i probe).rank capacity ≤
      2 * (mask - probe) + lookupBound capacity + 2 := by
  unfold CasPc.advance
  split <;> simp only [CasPc.rank] <;> omega

theorem CasPc.Relies.rank {capacity : Nat} {newCap : Cap} {pc : CasPc}
    (positive : 0 < capacity) (small : m.gCapacity = capacity)
    (relies : pc.Relies t₀ m key newCap) (memory : Serving t₀ keys m)
    (granted : Bool)
    (busy : Thread.waits (.casInsert key newCap) m
      (.casInsert key newCap pc) = false) :
    (casInsertStep granted key newCap m pc).2.rank capacity + 1 ≤
      pc.rank capacity := by
  cases pc with
  | loadTable =>
      simp only [casInsertStep, memory.current, CasPc.rank]
      omega
  | loadCapacity t =>
      simp only [casInsertStep, CasPc.rank]
      omega
  | loadKey t mask i probe =>
      have further := rank_advance capacity t mask i probe
      simp only [casInsertStep]
      split
      · simp only [CasPc.rank]
        omega
      split
      · simp only [CasPc.rank]
        omega
      · change (CasPc.advance t mask i probe).rank capacity + 1 ≤
          2 * (mask - probe) + lookupBound capacity + 4
        omega
  | exchange t mask i probe =>
      have further := rank_advance capacity t mask i probe
      have bound := lookupBound_pos capacity
      simp only [casInsertStep]
      split
      · simp only [CasPc.rank]
        omega
      split
      · simp only [CasPc.rank]
        omega
      · change (CasPc.advance t mask i probe).rank capacity + 1 ≤
          2 * (mask - probe) + lookupBound capacity + 3
        omega
  | spin t i =>
      have shown : (m.slot t i).newAddr ≠ 0 := by
        intro hidden
        simp [Thread.waits, Thread.spins, hidden] at busy
      simp only [casInsertStep, if_neg shown, CasPc.rank, rank_lookup]
      omega
  | lookup pc =>
      by_cases returned : ∃ final, pc = .done final
      · obtain ⟨final, rfl⟩ := returned
        exact Nat.le_refl _
      · have running : ∀ final, pc ≠ .done final := fun final done =>
          returned ⟨final, done⟩
        have fewer := lookupStep_rank key positive small relies.2.bounded
          running
        have next : (casInsertStep granted key newCap m (.lookup pc)).2 =
            .lookup (lookupStep m key pc) := by
          cases pc with
          | done final => exact absurd rfl (running final)
          | _ => rfl
        rw [next]
        exact Nat.succ_le_succ fewer
  | storeLen t i => exact Nat.le_refl _
  | storeAddr t i => exact Nat.le_refl _
  | addSize t i => exact Nat.le_refl _
  | won t i => cases busy
  | got final => cases busy
  | init pc => exact relies.elim
  | reload => exact relies.elim
  | full => exact relies.elim
  | crash => exact relies.elim

theorem CasPc.Relies.rank_le {capacity : Nat} {newCap : Cap} {pc : CasPc}
    (granted : Bool)
    (idle : Thread.waits (.casInsert key newCap) m
      (.casInsert key newCap pc) = true) :
    (casInsertStep granted key newCap m pc).2.rank capacity ≤
      pc.rank capacity := by
  cases pc with
  | spin t i =>
      have hidden : (m.slot t i).newAddr = 0 := by
        simpa [Thread.waits, Thread.spins, Thread.ended] using idle
      simp only [casInsertStep, if_pos hidden]
      exact Nat.le_refl _
  | won t i => exact Nat.le_refl _
  | got final => exact Nat.le_refl _
  | _ => cases idle

theorem Thread.Relies.rank {capacity : Nat} {request : Request}
    {l l' : Thread} {m' : Memory} (positive : 0 < capacity)
    (small : m.gCapacity = capacity) (relies : l.Relies t₀ keys m request)
    (memory : Serving t₀ keys m) (stepped : ThreadStep m l m' l') :
    l'.rank capacity + (if Thread.waits request m l then 0 else 1) ≤
      l.rank capacity := by
  cases request with
  | lookup key =>
      cases stepped with
      | @lookup key' pc =>
          obtain ⟨rfl, pcRelies⟩ := relies
          by_cases returned : ∃ final, pc = .done final
          · obtain ⟨final, rfl⟩ := returned
            exact Nat.le_refl _
          · have fewer := lookupStep_rank key' positive small pcRelies.bounded
              fun final done => returned ⟨final, done⟩
            simp only [Thread.rank]
            split <;> omega
      | _ => exact relies.elim
  | casInsert key newCap =>
      cases stepped with
      | @casInsert key' newCap' pc granted =>
          obtain ⟨rfl, rfl, proper, pcRelies⟩ := relies
          cases idle : Thread.waits (.casInsert key' newCap') m
            (.casInsert key' newCap' pc) with
          | true => exact CasPc.Relies.rank_le granted idle
          | false => exact pcRelies.rank positive small memory granted idle
      | _ => exact relies.elim

section Waiting

variable {ι : Type*} {cheri : Intrinsics} {arenaBase : Option Cap}

/-- Every slot that has a key and no address is about to be published. -/
def Attended (t₀ : Nat) (m : Memory) (calls : ι → Option (Request × Thread)) :
    Prop :=
  ∀ i, i < (m.tables t₀).size → (m.slot t₀ i).fromAddr ≠ 0 →
    (m.slot t₀ i).newAddr = 0 →
    ∃ j call, calls j = some call ∧ call.2.writing = some i

theorem Thread.Relies.writing_step {request : Request} {l l' : Thread}
    {m' : Memory} (relies : l.Relies t₀ keys m request)
    (stepped : ThreadStep m l m' l') {i : Nat} (writing : l.writing = some i) :
    l'.writing = some i ∨ (m'.slot t₀ i).newAddr ≠ 0 := by
  cases request with
  | lookup key =>
      cases stepped with
      | lookup => cases writing
      | _ => exact relies.elim
  | casInsert key newCap =>
      cases stepped with
      | @casInsert key' newCap' pc granted =>
          obtain ⟨rfl, rfl, proper, pcRelies⟩ := relies
          cases pc with
          | storeLen t k =>
              cases writing
              exact .inl rfl
          | storeAddr t k =>
              cases writing
              obtain ⟨rfl, _, _⟩ := pcRelies
              right
              simp only [casInsertStep, Memory.storeAddr,
                Memory.setSlot_slot_self]
              exact proper.2.2
          | _ => cases writing
      | _ => exact relies.elim

/-- A slot without an address has just been claimed, is being written, or was
there before. -/
theorem TableEffect.unpublished {l l' : Thread} {m' : Memory}
    (effect : TableEffect t₀ keys m l m' l') {i : Nat}
    (held : (m'.slot t₀ i).fromAddr ≠ 0) (hidden : (m'.slot t₀ i).newAddr = 0) :
    l'.writing = some i ∨ l.writing = some i ∨
      (m.slot t₀ i).fromAddr ≠ 0 ∧ (m.slot t₀ i).newAddr = 0 := by
  cases effect with
  | idle _ => exact .inr (.inr ⟨held, hidden⟩)
  | count _ => exact .inr (.inr ⟨held, hidden⟩)
  | claim claimed _ _ _ _ _ =>
      by_cases here : l'.writing = some i
      · exact .inl here
      · rw [claimed] at here
        rw [Memory.setSlot_slot_of_ne _ _ _ _ (.inr fun same => here (by rw [same]))]
          at held hidden
        exact .inr (.inr ⟨held, hidden⟩)
  | write mine _ _ _ =>
      by_cases here : l.writing = some i
      · exact .inr (.inl here)
      · rw [mine] at here
        rw [Memory.setSlot_slot_of_ne _ _ _ _ (.inr fun same => here (by rw [same]))]
          at held hidden
        exact .inr (.inr ⟨held, hidden⟩)

theorem TableEffect.capacity {l l' : Thread} {m' : Memory}
    (effect : TableEffect t₀ keys m l m' l') : m'.gCapacity = m.gCapacity := by
  cases effect <;> rfl

/-- A call that spins waits for the winner of its key. -/
theorem Served.spins {γ ρ : Type*} {c : Interleaving.Config ι (γ × Memory)
      (ρ × Option (Request × Thread × Nat))}
    (served : Served t₀ keys c.shared.2 (inProgress (uncounted c)))
    (attended : Attended t₀ c.shared.2 (inProgress (uncounted c)))
    {i : ι} {request : Request} {l : Thread} {n : Nat}
    (running : (c.locals i).2 = some (request, l, n))
    (spins : l.spins c.shared.2 = true) :
    ∃ key newCap, request = .casInsert key newCap ∧
      ∃ j newCap' pc n', j ≠ i ∧ (c.locals j).2 =
          some (.casInsert key newCap', .casInsert key newCap' pc, n') ∧
        ∃ s, pc = .storeLen t₀ s ∨ pc = .storeAddr t₀ s := by
  have mine := inProgress_uncounted running
  have relies := served.relies i _ _ mine
  cases l with
  | casInsert key newCap pc =>
      cases pc with
      | spin t s =>
          cases request with
          | lookup _ => exact relies.elim
          | casInsert key' newCap' =>
              obtain ⟨rfl, rfl, ⟨_, nonzero, _⟩, rfl, below, held⟩ := relies
              obtain ⟨j, ⟨theirs, writer⟩, there, writing⟩ := attended s below
                (by rw [held]; exact nonzero) (beq_iff_eq.mp spins)
              obtain ⟨n', running'⟩ := exists_count there
              have other : j ≠ i := by
                rintro rfl
                rw [mine] at there
                cases there
                cases writing
              refine ⟨key, newCap, rfl, j, ?_⟩
              have writes := served.relies j _ _ there
              cases writer with
              | casInsert key'' newCap'' pc =>
                  cases theirs with
                  | lookup _ => exact writes.elim
                  | casInsert _ _ =>
                      obtain ⟨rfl, rfl, _, content⟩ := writes
                      have same : key'' = key := by
                        cases pc with
                        | storeLen _ _ =>
                            cases writing
                            rw [content.2.2] at held
                            exact held
                        | storeAddr _ _ =>
                            cases writing
                            rw [content.2.2] at held
                            exact held
                        | _ => cases writing
                      subst same
                      refine ⟨newCap'', pc, n', other, running', s, ?_⟩
                      cases pc with
                      | storeLen _ _ =>
                          cases writing
                          exact .inl (by rw [content.1])
                      | storeAddr _ _ =>
                          cases writing
                          exact .inr (by rw [content.1])
                      | _ => cases writing
              | _ => cases writing
      | _ => cases spins
  | _ => cases spins

variable [DecidableEq ι] {calls : ι → Option (Request × Thread)}

theorem Attended.step (attended : Attended t₀ m calls) {i : ι}
    {request : Request} {l l' : Thread} {m' : Memory}
    (memory : Serving t₀ keys m) (running : calls i = some (request, l))
    (relies : l.Relies t₀ keys m request) (stepped : ThreadStep m l m' l')
    (effect : TableEffect t₀ keys m l m' l') :
    Attended t₀ m' (Function.update calls i (some (request, l'))) := by
  intro k below held hidden
  have written : l.writing = some k → ∃ j call,
      Function.update calls i (some (request, l')) j = some call ∧
        call.2.writing = some k := by
    intro writing
    rcases relies.writing_step stepped writing with still | shown
    · exact ⟨i, _, Function.update_self .., still⟩
    · exact absurd hidden shown
  rcases effect.unpublished held hidden with claimed | writing | ⟨held, hidden⟩
  · exact ⟨i, _, Function.update_self .., claimed⟩
  · exact written writing
  · rw [(effect.grown memory).keysKept.size_eq memory.allocated] at below
    obtain ⟨j, call, theirs, writing⟩ := attended k below held hidden
    by_cases same : j = i
    · subst same
      rw [running] at theirs
      cases theirs
      exact written writing
    · exact ⟨j, call, by rwa [Function.update_of_ne same], writing⟩

theorem Attended.replace (attended : Attended t₀ m calls) {i : ι}
    (call : Option (Request × Thread))
    (quiet : ∀ old, calls i = some old → old.2.writing = none) :
    Attended t₀ m (Function.update calls i call) := by
  intro k below held hidden
  obtain ⟨j, old, theirs, writing⟩ := attended k below held hidden
  have same : j ≠ i := by
    rintro rfl
    rw [quiet old theirs] at writing
    cases writing
  exact ⟨j, old, by rwa [Function.update_of_ne same], writing⟩

theorem Thread.writing_of_returned {l : Thread} {result : Option Cap}
    (back : l.returned cheri arenaBase = some result) : l.writing = none := by
  cases l with
  | casInsert key newCap pc =>
      cases pc with
      | storeLen t i => cases back
      | storeAddr t i => cases back
      | _ => rfl
  | _ => rfl

variable {γ ρ : Type*} {client : Client ι γ ρ Request (Option Cap)}

theorem table_attended {start c : Interleaving.Config ι (γ × Memory)
      (ρ × Option (Request × Thread))}
    (room : Room start.shared.2 t₀ keys)
    (published : Attended t₀ start.shared.2 fun _ : ι => none)
    (idle : ∀ i, (start.locals i).2 = none)
    (proper : ∀ a, AtomicReachable client (AtMap cheri arenaBase)
        (atomicStart Memory.view start) a →
      ∀ i request, client.call (a.locals i).1 = some request →
        request.Proper keys)
    (reachable : ConcreteReachable client (table cheri arenaBase) start c) :
    Served t₀ keys c.shared.2 (inProgress c) ∧
      Attended t₀ c.shared.2 (inProgress c) ∧
      c.shared.2.gCapacity = start.shared.2.gCapacity := by
  have sim := table_simulates cheri arenaBase ι t₀ keys
  obtain ⟨_, _, _, served⟩ := sim.refines idle room.served proper reachable
  refine ⟨served, ?_⟩
  refine sim.invariant idle room.served proper (fun m calls =>
    Attended t₀ m calls ∧ m.gCapacity = start.shared.2.gCapacity)
    ⟨published, rfl⟩ ?_ ?_ ?_ reachable
  · rintro m calls i request ⟨attended, capacity⟩ free
    refine ⟨attended.replace _ ?_, capacity⟩
    intro old running
    rw [free] at running
    cases running
  · rintro m calls i request l m' l' served ⟨attended, capacity⟩ running stepped
    have relies := served.relies i _ _ running
    obtain ⟨_, effect, _⟩ := relies.step cheri arenaBase served.memory stepped
    exact ⟨attended.step served.memory running relies stepped effect,
      effect.capacity.trans capacity⟩
  · rintro m calls i request l result ⟨attended, capacity⟩ running back
    refine ⟨attended.replace _ ?_, capacity⟩
    intro old same
    rw [running] at same
    cases same
    exact Thread.writing_of_returned back

/-- Each call makes a bounded number of accesses, whatever the others do,
besides those in which it waits.  No lookup waits, and an insertion only while
another one of the same key is about to publish its link. -/
theorem forwardTable_waits
    {start c : Interleaving.Config ι (γ × Memory)
      (ρ × Option (Request × Thread × Nat))}
    (room : Room start.shared.2 t₀ keys)
    (published : ∀ i, i < start.shared.2.gCapacity →
      (start.shared.2.slot t₀ i).fromAddr ≠ 0 →
      (start.shared.2.slot t₀ i).newAddr ≠ 0)
    (idle : ∀ i, (start.locals i).2 = none)
    (proper : ∀ a, AtomicReachable client (AtMap cheri arenaBase)
        (atomicStart Memory.view (uncounted start)) a →
      ∀ i request, client.call (a.locals i).1 = some request →
        request.Proper keys)
    (reachable : ConcreteReachable client
      ((table cheri arenaBase).counted Thread.waits) start c)
    {i : ι} {request : Request} {l : Thread} {n : Nat}
    (running : (c.locals i).2 = some (request, l, n)) :
    n ≤ request.bound start.shared.2.gCapacity ∧
      (l.spins c.shared.2 = true → ∃ key newCap, request = .casInsert key newCap ∧
        ∃ j newCap' pc n', j ≠ i ∧ (c.locals j).2 =
            some (.casInsert key newCap', .casInsert key newCap' pc, n') ∧
          ∃ s, pc = .storeLen t₀ s ∨ pc = .storeAddr t₀ s) := by
  have attended : Attended t₀ start.shared.2 fun _ : ι => none := by
    intro k below held hidden
    rw [show (start.shared.2.tables t₀).size = start.shared.2.gCapacity from
      room.ready.shape.size_eq] at below
    exact absurd hidden (published k below held)
  have quiet : ∀ i, ((uncounted start).locals i).2 = none := by
    intro i
    simp [uncounted, uncount, idle]
  have within : ∀ d, ConcreteReachable client (table cheri arenaBase)
      (uncounted start) d → _ := fun d reached =>
    table_attended (c := d) room attended quiet proper reached
  constructor
  · have paid := counted_le (fun m calls => Served t₀ keys m calls ∧
        Attended t₀ m calls ∧ m.gCapacity = start.shared.2.gCapacity)
      (fun _ l => l.rank start.shared.2.gCapacity)
      (Request.bound start.shared.2.gCapacity) within ?_ ?_ idle reachable
      running
    · omega
    · intro request
      cases request with
      | lookup key => exact Nat.le_of_eq (rank_lookup _)
      | casInsert key newCap => exact Nat.le_refl _
    · rintro m calls i request l m' l' ⟨served, _, capacity⟩ here stepped
      have positive : 0 < start.shared.2.gCapacity := by
        obtain ⟨e, power⟩ := room.ready.shape.capacity_pow
        rw [show start.shared.2.gCapacity = 2 ^ e from power]
        exact Nat.two_pow_pos e
      exact (served.relies i _ _ here).rank positive capacity served.memory
        stepped
  · intro spins
    obtain ⟨served, attended, _⟩ := within _ (uncounted_reachable reachable)
    exact served.spins attended running spins

end Waiting

section Example

/-- One access after the other, counted. -/
def countedNext (cheri : Intrinsics) (arenaBase : Option Cap) :
    (Unit × Memory) × ((List Request × List (Option Cap)) ×
      Option (Request × Thread × Nat)) →
    (Unit × Memory) × ((List Request × List (Option Cap)) ×
      Option (Request × Thread × Nat)) :=
  follow (scripted Bool Request (Option Cap))
    ((table cheri arenaBase).counted Thread.waits) Prod.mk fun request m pc =>
      ((Thread.next (m, pc.1)).1, (Thread.next (m, pc.1)).2,
        if Thread.waits request m pc.1 then pc.2 else pc.2 + 1)

theorem countedNext_steps (cheri : Intrinsics) (arenaBase : Option Cap)
    (i : Bool) (x : (Unit × Memory) × ((List Request × List (Option Cap)) ×
      Option (Request × Thread × Nat))) :
    Relation.ReflTransGen (fun before after =>
        ConcreteStep (scripted Bool Request (Option Cap))
          ((table cheri arenaBase).counted Thread.waits) i
          before.1 before.2 after.1 after.2) x
      (countedNext cheri arenaBase x) := by
  apply follow_steps i fun _ _ => .inl rfl
  intro _ m pc _
  exact .inr ⟨Thread.next_step m pc.1, rfl⟩

/-- The calls of `forwardingTwice`, to be counted. -/
def countedTwice : Interleaving.Config Bool (Unit × Memory)
    ((List Request × List (Option Cap)) × Option (Request × Thread × Nat)) :=
  { shared := forwardingTwice.shared
    locals := fun i => ((forwardingTwice.locals i).1, none) }

/-- The first process has claimed the slot, and the second one waits for it. -/
theorem forwardTable_waits_twice : ∃ c,
    ConcreteReachable (scripted Bool Request (Option Cap))
      ((table Intrinsics.exact (some (racingCap 0))).counted Thread.waits)
      countedTwice c ∧
    ∃ request l n, (c.locals true).2 = some (request, l, n) ∧
      l.spins c.shared.2 = true ∧ n ≤ request.bound initialCap ∧
      ∃ key j newCap pc n', j ≠ true ∧ (c.locals j).2 =
        some (.casInsert key newCap, .casInsert key newCap pc, n') := by
  have first : ConcreteReachable (scripted Bool Request (Option Cap))
      ((table Intrinsics.exact (some (racingCap 0))).counted Thread.waits)
      countedTwice _ :=
    Interleaving.Reachable.repeated false 5 (countedNext_steps _ _ false)
  have second := first.trans
    (Interleaving.Reachable.repeated true 7 (countedNext_steps _ _ true))
  generalize reached : Interleaving.Config.advance _ true _ _ = c at second
  have waiting : (c.locals true).2.any
      (fun call => call.2.1.spins c.shared.2) = true := by
    rw [← reached]
    decide +kernel
  obtain ⟨⟨request, l, n⟩, running, spins⟩ := (Option.any_eq_true _ _).mp waiting
  obtain ⟨few, winner⟩ := forwardTable_waits forwardingTwice_room
    (fun i _ held => absurd rfl held) (fun i => rfl) forwardingTwice_proper
    second running
  obtain ⟨key, _, _, j, newCap, pc, n', other, claimed, _⟩ := winner spins
  exact ⟨c, second, request, l, n, running, spins, few, key, j, newCap, pc, n',
    other, claimed⟩

end Example

end ForwardTable

end StoplessGC
