import StoplessGC.AllocatorInterleaving
import StoplessGC.Foundation.AtomicObject

/-!
# The arena as an atomic bump pointer

Any number of threads call `stopless_alloc`, `stopless_arena_used` and
`stopless_arena_reset` on one arena, any number of times.  No assumption is
made on the sizes, and a reset may come between the load and the swap of an
allocation.  The calls look as if each happened at one instant: an allocation
where its swap succeeds, or where it loads the offset at which it gives up.
-/

namespace StoplessGC

namespace Allocator

open AtomicObject

variable {cheri : Intrinsics}

inductive Request where
  | alloc (sizeBytes : Nat)
  | used
  | reset

/-- What the three functions return. -/
inductive Answer where
  | object (obj : Option Cap)
  | bytes (n : Nat)
  | void
deriving DecidableEq

/-- Where a call stands. -/
inductive Point where
  | alloc (pc : Pc)
  | used (value : Option Nat)
  | reset (stored : Bool)

def Request.enter : Request → Point
  | .alloc _ => .alloc .start
  | .used => .used none
  | .reset => .reset false

def Point.answer : Point → Option Answer
  | .alloc (.returned _ obj) => some (.object (some obj))
  | .alloc .null => some (.object none)
  | .used (some value) => some (.bytes value)
  | .reset true => some .void
  | _ => none

section Arena

variable (arena : Arena cheri)

/-- One atomic access to `bump_offset`, or one step between two of them. -/
inductive PointStep : Request → Nat → Point → Nat → Point → Prop where
  | alloc {sizeBytes bump bump' : Nat} {pc pc' : Pc} :
      CallStep arena sizeBytes bump pc bump' pc' →
      PointStep (.alloc sizeBytes) bump (.alloc pc) bump' (.alloc pc')
  | used {bump : Nat} :
      PointStep .used bump (.used none) bump (.used (some bump))
  | reset {bump : Nat} :
      PointStep .reset bump (.reset false) 0 (.reset true)

def allocator : Implementation Nat Request Point Answer :=
  { enter := Request.enter
    step := PointStep arena
    result := fun _ => Point.answer }

/-- The three functions on the offset, at one instant. -/
inductive AtOffset : Request → Nat → Nat → Answer → Prop where
  | allocated {sizeBytes bump bump' : Nat} {obj : Cap} :
      stoplessAlloc arena bump sizeBytes = some (obj, bump') →
      AtOffset (.alloc sizeBytes) bump bump' (.object (some obj))
  | refused {sizeBytes bump : Nat} :
      stoplessAlloc arena bump sizeBytes = none →
      AtOffset (.alloc sizeBytes) bump bump (.object none)
  | used (bump : Nat) : AtOffset .used bump bump (.bytes bump)
  | reset (bump : Nat) : AtOffset .reset bump 0 .void

/-- The result of a call that has taken effect.  A loaded offset that leaves no
room already decides. -/
def Point.taken : Request → Point → Option Answer
  | .alloc sizeBytes, .alloc (.loop cur) =>
      if newOffset cheri cur (roundedLength cheri sizeBytes) > arena.size then
        some (.object none)
      else none
  | .alloc sizeBytes, .alloc (.claimed alignedOff) =>
      some (.object (some (deriveObject arena alignedOff sizeBytes)))
  | _, point => point.answer

/-- What a call has checked: its size, and before a swap also the room. -/
def Point.Checked : Request → Point → Prop
  | .alloc _, .alloc .start => True
  | .alloc sizeBytes, .alloc (.loop _) =>
      ¬ (sizeBytes = 0 ∨ roundedLength cheri sizeBytes < sizeBytes)
  | .alloc sizeBytes, .alloc (.cas cur) =>
      ¬ (sizeBytes = 0 ∨ roundedLength cheri sizeBytes < sizeBytes) ∧
        ¬ newOffset cheri cur (roundedLength cheri sizeBytes) > arena.size
  | .alloc _, .alloc (.claimed _) => True
  | .alloc _, .alloc (.returned _ _) => True
  | .alloc _, .alloc .null => True
  | .used, .used _ => True
  | .reset, .reset _ => True
  | _, _ => False

variable {arena}

/-- Loading the offset settles the call when no room is left there. -/
theorem taken_load {sizeBytes : Nat} (bump : Nat)
    (accepted : ¬ (sizeBytes = 0 ∨ roundedLength cheri sizeBytes < sizeBytes)) :
    Point.taken arena (.alloc sizeBytes) (.alloc (.loop bump)) = none ∧
        bump = bump ∨
      (none : Option Answer) = none ∧
        ∃ r, Point.taken arena (.alloc sizeBytes) (.alloc (.loop bump)) =
          some r ∧ AtOffset arena (.alloc sizeBytes) bump bump r := by
  by_cases full :
      newOffset cheri bump (roundedLength cheri sizeBytes) > arena.size
  · right
    refine ⟨rfl, .object none, if_pos full, .refused ?_⟩
    rw [stoplessAlloc, if_neg accepted, if_pos full]
  · exact .inl ⟨if_neg full, rfl⟩

/-- One step of a call: it keeps what it has checked, and it takes effect at
most once. -/
theorem PointStep.effect {request : Request} {bump bump' : Nat}
    {point point' : Point} (checked : point.Checked arena request)
    (stepped : PointStep arena request bump point bump' point') :
    point'.Checked arena request ∧
      (point'.taken arena request = point.taken arena request ∧ bump' = bump ∨
        point.taken arena request = none ∧
          ∃ r, point'.taken arena request = some r ∧
            AtOffset arena request bump bump' r) := by
  cases stepped with
  | used => exact ⟨trivial, .inr ⟨rfl, _, rfl, .used bump⟩⟩
  | reset => exact ⟨trivial, .inr ⟨rfl, _, rfl, .reset bump⟩⟩
  | @alloc sizeBytes bump _ pc pc' called =>
      cases called with
      | reject rejected =>
          refine ⟨trivial, .inr ⟨rfl, _, rfl, .refused ?_⟩⟩
          rw [stoplessAlloc, if_pos rejected]
      | load accepted => exact ⟨accepted, taken_load bump accepted⟩
      | outOfMemory full =>
          exact ⟨trivial, .inl ⟨(if_pos full).symm, rfl⟩⟩
      | candidate fits =>
          exact ⟨⟨checked, fits⟩, .inl ⟨(if_neg fits).symm, rfl⟩⟩
      | swapped =>
          obtain ⟨accepted, fits⟩ := checked
          refine ⟨trivial, .inr ⟨rfl, _, rfl, .allocated ?_⟩⟩
          rw [stoplessAlloc, if_neg accepted, if_neg fits]
      | failed => exact ⟨checked.1, taken_load bump checked.1⟩
      | derive => exact ⟨trivial, .inl ⟨rfl, rfl⟩⟩

theorem Point.taken_of_answer {request : Request} {point : Point}
    {answer : Answer} (back : point.answer = some answer) :
    point.taken arena request = some answer := by
  cases request <;> cases point with
  | alloc pc => cases pc <;> first | exact back | cases back
  | _ => exact back

variable (arena) in
theorem allocator_simulates (ι : Type*) [DecidableEq ι] :
    Simulation (ι := ι) (allocator arena) (AtOffset arena) (fun _ => True)
      (fun _ calls => ∀ i request point, calls i = some (request, point) →
        Point.Checked arena request point)
      id (Point.taken arena) := by
  apply Simulation.ofReliance
  · intro bump request _
    constructor <;> cases request <;> trivial
  · intro bump request point bump' point' checked stepped
    obtain ⟨next, effected⟩ := PointStep.effect checked stepped
    -- a call checks the arena and its own arguments, which no call changes
    exact ⟨fun _ _ kept => kept, next, effected⟩
  · exact Point.taken_of_answer

/-- Over `stopless_alloc`, `stopless_arena_used` and `stopless_arena_reset`,
run one atomic step at a time, every program does what it can do over an offset
on which each call happens at one instant. -/
theorem stoplessAlloc_atomic {ι γ ρ : Type*} [DecidableEq ι]
    {client : Client ι γ ρ Request Answer}
    {start c : Interleaving.Config ι (γ × Nat) (ρ × Option (Request × Point))}
    (idle : ∀ i, (start.locals i).2 = none)
    (reachable : ConcreteReachable client (allocator arena) start c) :
    ∃ a, AtomicReachable client (AtOffset arena) (atomicStart id start) a ∧
      Matches client id (Point.taken arena) c a := by
  obtain ⟨a, ran, matched, _⟩ := (allocator_simulates arena ι).refines idle
    (by rintro i request point ⟨⟩) (fun _ _ _ _ _ => trivial) reachable
  exact ⟨a, ran, matched⟩

end Arena

section Accounting

/-- Whether a call handed out an object. -/
def Answer.isObject : Answer → Bool
  | .object (some _) => true
  | _ => false

/-- The objects that a process has got, and the one that is on its way. -/
def objects (l : (List Request × List Answer) × Option Answer) : Nat :=
  l.1.2.countP Answer.isObject + l.2.toList.countP Answer.isObject

/-- The offset between calls: a multiple of the alignment that counts the
objects handed out, and close to the end once a call has failed. -/
structure Accounted {ι : Type*} [Fintype ι] (arena : Arena cheri)
    (n bump₀ : Nat) (a : Interleaving.Config ι (Unit × Nat)
      ((List Request × List Answer) × Option Answer)) : Prop where
  total : a.shared.2 = bump₀ +
    cheri.representableLength n * ∑ i, objects (a.locals i)
  aligned : cheri.alignment (cheri.representableLength n) ∣ a.shared.2
  below : a.shared.2 ≤ arena.size
  requests : ∀ i, ∀ request ∈ (a.locals i).1.1, request = .alloc n
  refused : ∀ i, .object none ∈ (a.locals i).1.2 ∨
      (a.locals i).2 = some (.object none) →
    arena.size < a.shared.2 + cheri.representableLength n

section Equal

variable {arena : Arena cheri} {n : Nat}

theorem newOffset_of_dvd (laws : cheri.Laws)
    (fits : cheri.representableLength n ≤ arena.size) {bump : Nat}
    (inside : bump ≤ arena.size)
    (aligned : cheri.alignment (cheri.representableLength n) ∣ bump) :
    newOffset cheri bump (roundedLength cheri n) =
      bump + cheri.representableLength n := by
  have noWrap := noWrap_of_le laws arena inside fits
  rw [noWrap.roundedLength_eq, newOffset_eq laws noWrap, alignedOffset,
    Alignment.up_of_dvd (alignment_pos laws _) aligned]

theorem AtOffset.cases_aligned (laws : cheri.Laws) (positive : 0 < n)
    (fits : cheri.representableLength n ≤ arena.size) {bump bump' : Nat}
    {answer : Answer} (inside : bump ≤ arena.size)
    (aligned : cheri.alignment (cheri.representableLength n) ∣ bump)
    (effected : AtOffset arena (.alloc n) bump bump' answer) :
    (∃ obj, answer = .object (some obj) ∧
      bump' = bump + cheri.representableLength n ∧ bump' ≤ arena.size) ∨
    answer = .object none ∧ bump' = bump ∧
      arena.size < bump + cheri.representableLength n := by
  have noWrap := noWrap_of_le laws arena inside fits
  have accepted : ¬ (n = 0 ∨ roundedLength cheri n < n) := by
    have longer := laws.le_length n
    rw [noWrap.roundedLength_eq]
    omega
  have next := newOffset_of_dvd laws fits inside aligned
  cases effected with
  | @allocated _ _ _ obj allocated =>
      left
      rw [stoplessAlloc, if_neg accepted, next] at allocated
      split at allocated
      · cases allocated
      · rename_i room
        cases allocated
        exact ⟨_, rfl, rfl, Nat.le_of_not_gt room⟩
  | refused refused =>
      right
      rw [stoplessAlloc, if_neg accepted, next] at refused
      split at refused
      · rename_i full
        exact ⟨rfl, rfl, full⟩
      · cases refused

variable {ι : Type*} [Fintype ι] [DecidableEq ι] {bump₀ : Nat}
  {a : Interleaving.Config ι (Unit × Nat)
    ((List Request × List Answer) × Option Answer)}

@[simp] theorem objects_object (l : List Request × List Answer) (obj : Cap) :
    objects (l, some (.object (some obj))) = objects (l, none) + 1 := by
  simp [objects, Answer.isObject]

@[simp] theorem objects_null (l : List Request × List Answer) :
    objects (l, some (.object none)) = objects (l, none) := by
  simp [objects, Answer.isObject]

/-- A process moves on, and the offset by as much as it has been given. -/
theorem Accounted.advance (accounted : Accounted arena n bump₀ a) {i : ι}
    {shared : Unit × Nat} {here : (List Request × List Answer) × Option Answer}
    (moved : shared.2 + cheri.representableLength n * objects (a.locals i) =
      a.shared.2 + cheri.representableLength n * objects here)
    (aligned : cheri.alignment (cheri.representableLength n) ∣ shared.2)
    (below : shared.2 ≤ arena.size) (grown : a.shared.2 ≤ shared.2)
    (requests : ∀ request ∈ here.1.1, request = .alloc n)
    (refused : .object none ∈ here.1.2 ∨ here.2 = some (.object none) →
      arena.size < shared.2 + cheri.representableLength n) :
    Accounted arena n bump₀ (a.advance i shared here) where
  total := by
    have before := accounted.total
    have sum := congrArg (cheri.representableLength n * ·)
      (a.sum_advance objects i shared here)
    simp only [Nat.mul_add] at sum
    change shared.2 = _
    omega
  aligned := aligned
  below := below
  requests := a.forall_advance
    (P := fun _ l => ∀ request ∈ l.1.1, request = .alloc n) requests
    fun j _ => accounted.requests j
  refused := by
    refine a.forall_advance (P := fun _ l => .object none ∈ l.1.2 ∨
      l.2 = some (.object none) →
        arena.size < shared.2 + cheri.representableLength n) refused ?_
    intro j _ null
    have before := accounted.refused j null
    omega

theorem Accounted.step (laws : cheri.Laws) (positive : 0 < n)
    (fits : cheri.representableLength n ≤ arena.size)
    (whole : cheri.alignment (cheri.representableLength n) ∣
      cheri.representableLength n)
    (accounted : Accounted arena n bump₀ a) {i : ι} {shared : Unit × Nat}
    {here : (List Request × List Answer) × Option Answer}
    (stepped : AtomicStep (scripted ι Request Answer) (AtOffset arena) i
      a.shared (a.locals i) shared here) :
    Accounted arena n bump₀ (a.advance i shared here) := by
  have mine := accounted.requests i
  have failed := accounted.refused i
  have aligned := accounted.aligned
  have below := accounted.below
  generalize before : a.locals i = l at stepped mine failed
  generalize current : a.shared = s at stepped aligned below failed
  cases stepped with
  | own _ impossible => exact impossible.elim
  | @effect g bump bump' l request answer asked effected =>
      have common := mine request (List.mem_of_head? asked)
      subst common
      rcases effected.cases_aligned laws positive fits below aligned with
        ⟨obj, rfl, rfl, room⟩ | ⟨rfl, rfl, full⟩
      · refine accounted.advance ?_ (Nat.dvd_add aligned whole) room ?_ mine ?_
        · rw [before, current, objects_object, Nat.mul_succ]
          change bump + _ + _ = bump + (_ + _)
          omega
        · rw [current]
          exact Nat.le_add_right _ _
        · rintro (old | ⟨⟨⟩⟩)
          exact Nat.lt_of_lt_of_le (failed (.inl old))
            (Nat.add_le_add_right (Nat.le_add_right _ _) _)
      · refine accounted.advance ?_ aligned below ?_ mine fun _ => full
        · rw [before, current, objects_null]
        · rw [current]
  | @leave g bump l answer =>
      refine accounted.advance ?_ aligned below ?_
        (fun request member => mine request (List.mem_of_mem_tail member)) ?_
      · have kept : objects ((scripted ι Request Answer).resume l answer,
            none) = objects (l, some answer) := by
          simp [objects, scripted, List.countP_append]
        rw [before, current, kept]
      · rw [current]
      · rintro (null | ⟨⟨⟩⟩)
        rcases List.mem_append.mp null with old | new
        · exact failed (.inl old)
        · rw [List.mem_singleton] at new
          exact failed (.inr (by rw [new]))

theorem Accounted.of_reachable (laws : cheri.Laws) (positive : 0 < n)
    (fits : cheri.representableLength n ≤ arena.size)
    (whole : cheri.alignment (cheri.representableLength n) ∣
      cheri.representableLength n)
    {start : Interleaving.Config ι (Unit × Nat)
      ((List Request × List Answer) × Option Answer)}
    (initially : Accounted arena n bump₀ start)
    (reachable : AtomicReachable (scripted ι Request Answer) (AtOffset arena)
      start a) : Accounted arena n bump₀ a := by
  apply reachable.invariant (Accounted arena n bump₀)
  · exact initially
  · intro c i shared here accounted stepped
    exact accounted.step laws positive fits whole stepped

/-- Processes ask for objects of one size, as often as they like.  Between
calls, in whatever way their atomic steps interleave, `bump_offset` has moved
by one extent for each object handed out, and `NULL` was only returned when an
extent no longer fitted. -/
theorem stoplessAlloc_accounts (laws : cheri.Laws) (positive : 0 < n)
    (fits : cheri.representableLength n ≤ arena.size)
    (whole : cheri.alignment (cheri.representableLength n) ∣
      cheri.representableLength n)
    {start c : Interleaving.Config ι (Unit × Nat)
      ((List Request × List Answer) × Option (Request × Point))}
    (inside : start.shared.2 ≤ arena.size)
    (aligned : cheri.alignment (cheri.representableLength n) ∣
      start.shared.2)
    (fresh : ∀ i, ∃ times, start.locals i =
      ((List.replicate times (.alloc n), []), none))
    (reachable : ConcreteReachable (scripted ι Request Answer)
      (allocator arena) start c)
    (between : ∀ i, (c.locals i).2 = none) :
    c.shared.2 = start.shared.2 + cheri.representableLength n *
        ∑ i, (c.locals i).1.2.countP Answer.isObject ∧
      ∀ i, .object none ∈ (c.locals i).1.2 →
        arena.size < c.shared.2 + cheri.representableLength n := by
  have idle : ∀ i, (start.locals i).2 = none := by
    intro i
    obtain ⟨times, here⟩ := fresh i
    rw [here]
  obtain ⟨a, ran, matched, _⟩ := (allocator_simulates arena ι).refines idle
    (by rintro i request point ⟨⟩) (fun _ _ _ _ _ => trivial) reachable
  have initially : Accounted arena n start.shared.2 (atomicStart id start) := by
    refine ⟨?_, aligned, inside, ?_, ?_⟩
    · have none : ∀ i, objects ((atomicStart id start).locals i) = 0 := by
        intro i
        obtain ⟨times, here⟩ := fresh i
        simp [atomicStart, here, objects]
      simp only [none, Finset.sum_const_zero, Nat.mul_zero, Nat.add_zero]
      rfl
    · intro i request member
      obtain ⟨times, here⟩ := fresh i
      simp only [atomicStart, here] at member
      exact List.eq_of_mem_replicate member
    · intro i null
      obtain ⟨times, here⟩ := fresh i
      simp [atomicStart, here] at null
  have accounted := initially.of_reachable laws positive fits whole ran
  have offset : a.shared.2 = c.shared.2 := congrArg Prod.snd matched.shared
  have kept : ∀ i, a.locals i = ((c.locals i).1, none) := by
    intro i
    have outcome := matched.outcome i
    rw [between i] at outcome
    exact Prod.ext (matched.own i) outcome
  constructor
  · rw [← offset, accounted.total]
    simp only [kept, objects, Option.toList_none, List.countP_nil,
      Nat.add_zero]
  · intro i null
    rw [← offset]
    apply accounted.refused i
    rw [kept i]
    exact .inl null

end Equal

theorem call_alone {arena : Arena cheri} {ι : Type*} (i : ι) {n bump : Nat}
    (rest : List Request) (got : List Answer)
    (accepted : ¬ (n = 0 ∨ roundedLength cheri n < n))
    (room : ¬ newOffset cheri bump (roundedLength cheri n) > arena.size) :
    Relation.ReflTransGen (fun before after =>
        ConcreteStep (scripted ι Request Answer) (allocator arena) i before.1
          before.2 after.1 after.2)
      (((), bump), ((.alloc n :: rest, got), none))
      (((), newOffset cheri bump (roundedLength cheri n)),
        ((rest, got ++ [.object (some (deriveObject arena
          (alignUpRepr cheri bump (roundedLength cheri n)) n))]), none)) := by
  have enters : ConcreteStep (scripted ι Request Answer) (allocator arena) i
      ((), bump) ((.alloc n :: rest, got), none)
      ((), bump) ((.alloc n :: rest, got), some (.alloc n, .alloc .start)) :=
    .enter rfl
  have step : ∀ {bump' pc pc' bump''}, CallStep arena n bump' pc bump'' pc' →
      ConcreteStep (scripted ι Request Answer) (allocator arena) i
        ((), bump') ((.alloc n :: rest, got), some (.alloc n, .alloc pc))
        ((), bump'') ((.alloc n :: rest, got), some (.alloc n, .alloc pc')) :=
    fun called => .access (PointStep.alloc called)
  have leaves : ∀ {bump' off obj},
      ConcreteStep (scripted ι Request Answer) (allocator arena) i
        ((), bump') ((.alloc n :: rest, got),
          some (.alloc n, .alloc (.returned off obj)))
        ((), bump') ((rest, got ++ [.object (some obj)]), none) :=
    .leave rfl
  refine .head (b := (((), bump), (_, some (.alloc n, .alloc .start)))) enters ?_
  refine .head (b := (((), bump), (_, some (.alloc n, .alloc (.loop bump)))))
    (step (.load accepted)) ?_
  refine .head (b := (((), bump), (_, some (.alloc n, .alloc (.cas bump)))))
    (step (.candidate room)) ?_
  refine .head (b := (((), _), (_, some (.alloc n, .alloc (.claimed _)))))
    (step .swapped) ?_
  refine .head (b := (((), _), (_, some (.alloc n, .alloc (.returned _ _)))))
    (step .derive) ?_
  exact .single leaves

/-- Two threads, each about to allocate 64 bytes. -/
def twoCallers : Interleaving.Config Bool (Unit × Nat)
    ((List Request × List Answer) × Option (Request × Point)) :=
  { shared := ((), 0)
    locals := fun _ => (([.alloc 64], []), none) }

theorem twoCallers_run : ∃ c,
    ConcreteReachable (scripted Bool Request Answer) (allocator Arena.small)
      twoCallers c ∧
    (∀ i, (c.locals i).2 = none) ∧
    ∀ i, (c.locals i).1.2.countP Answer.isObject = 1 := by
  have first : ConcreteReachable (scripted Bool Request Answer)
      (allocator Arena.small) twoCallers _ :=
    Interleaving.Reachable.alone false
      (call_alone false [] [] (by decide) (by decide +kernel))
  have second := first.trans (Interleaving.Reachable.alone true
    (call_alone true [] [] (by decide) (by decide +kernel)))
  exact ⟨_, second, by intro i; cases i <;> rfl, by intro i; cases i <;> rfl⟩

theorem stoplessAlloc_atomic_pair : ∃ c a,
    ConcreteReachable (scripted Bool Request Answer) (allocator Arena.small)
      twoCallers c ∧
    AtomicReachable (scripted Bool Request Answer) (AtOffset Arena.small)
      (atomicStart id twoCallers) a ∧
    Matches (scripted Bool Request Answer) id (Point.taken Arena.small) c a := by
  obtain ⟨c, ran, _⟩ := twoCallers_run
  obtain ⟨a, atomic, matched⟩ := stoplessAlloc_atomic (fun _ => rfl) ran
  exact ⟨c, a, ran, atomic, matched⟩

theorem stoplessAlloc_accounts_pair : ∃ c,
    ConcreteReachable (scripted Bool Request Answer) (allocator Arena.small)
      twoCallers c ∧ c.shared.2 = 128 := by
  obtain ⟨c, ran, between, counts⟩ := twoCallers_run
  obtain ⟨total, _⟩ := stoplessAlloc_accounts Intrinsics.exact_laws
    (n := 64) (by decide) (by decide) (by decide) (by decide) (by decide)
    (fun _ => ⟨1, rfl⟩) ran between
  refine ⟨c, ran, ?_⟩
  simp only [counts] at total
  rw [total]
  decide

end Accounting

end Allocator

end StoplessGC
