import StoplessGC.Cheri
import StoplessGC.Foundation.StepBounds

/-!
# Exchanging an object header

The mark of an object is one capability wide: neutral marks are bits, the mark
of a locked object is the capability of a lock record.  `cmpxchg_obj_header`
exchanges it by a pair of exclusive accesses, which compares the low 64 bits
and moves all of the capability.  To every program it is one compare-and-swap,
and it only fails to store when another thread has stored, or spuriously.
-/

namespace StoplessGC

namespace Header

open AtomicObject

/-- The word of the mark.  A reservation is lost by every store since. -/
structure Mark where
  value : Cap
  stores : Nat

def Mark.store (mark : Mark) (v : Cap) : Mark :=
  { value := v, stores := mark.stores + 1 }

/-- The registers of `cmpxchg_obj_header`, but for the one that holds the
address of the mark. -/
structure Regs where
  oldv : Cap
  newv : Cap
  tmp : Cap

/-- The accesses to a mark.  `init_mark` stores, and the lock code loads. -/
inductive Request where
  | cmpxchg (oldv newv : Cap)
  | load
  | store (v : Cap)

/-- The branch that `cmpxchg_obj_header` takes, with what it leaves in `oldv`,
or what another access returns. -/
inductive Answer where
  | succeed (oldv : Cap)
  | fail (oldv : Cap)
  | value (v : Cap)
  | void
deriving DecidableEq

/-- Where an access stands; `seen` tells what is reserved. -/
inductive Point where
  | start
  | retry (regs : Regs)
  | compare (regs : Regs) (seen : Nat)
  | stlxr (regs : Regs) (seen : Nat)
  | status (regs : Regs)
  | nope (regs : Regs)
  | returned (answer : Answer)

def Request.enter : Request → Point
  | .cmpxchg oldv newv => .retry { oldv := oldv, newv := newv, tmp := Cap.null }
  | _ => .start

def Point.answer : Point → Option Answer
  | .returned answer => some answer
  | _ => none

/-- `cbzw`: the low 32 bits. -/
def Regs.stored (regs : Regs) : Prop := regs.tmp.address % 2 ^ 32 = 0

instance (regs : Regs) : Decidable regs.stored :=
  inferInstanceAs (Decidable (_ = _))

/-- One instruction.  The registers are as HotSpot names them; `tmp` holds the
observed mark and then the status of the exclusive store. -/
inductive PointStep : Request → Mark → Point → Mark → Point → Prop where
  | ldaxr {oldv newv : Cap} {mark : Mark} {regs : Regs} :
      PointStep (.cmpxchg oldv newv) mark (.retry regs) mark
        (.compare { regs with tmp := mark.value } mark.stores)
  | equal {oldv newv : Cap} {mark : Mark} {regs : Regs} {seen : Nat} :
      regs.tmp.address = regs.oldv.address →
      PointStep (.cmpxchg oldv newv) mark (.compare regs seen) mark
        (.stlxr regs seen)
  | differ {oldv newv : Cap} {mark : Mark} {regs : Regs} {seen : Nat} :
      regs.tmp.address ≠ regs.oldv.address →
      PointStep (.cmpxchg oldv newv) mark (.compare regs seen) mark
        (.nope regs)
  | stored {oldv newv : Cap} {mark : Mark} {regs : Regs} :
      PointStep (.cmpxchg oldv newv) mark (.stlxr regs mark.stores)
        (mark.store regs.newv) (.status { regs with tmp := Cap.ofInt 0 })
  -- also where nobody has stored
  | lost {oldv newv : Cap} {mark : Mark} {regs : Regs} {seen : Nat} :
      PointStep (.cmpxchg oldv newv) mark (.stlxr regs seen) mark
        (.status { regs with tmp := Cap.ofInt 1 })
  | succeed {oldv newv : Cap} {mark : Mark} {regs : Regs} :
      regs.stored →
      PointStep (.cmpxchg oldv newv) mark (.status regs) mark
        (.returned (.succeed regs.oldv))
  | again {oldv newv : Cap} {mark : Mark} {regs : Regs} :
      ¬ regs.stored →
      PointStep (.cmpxchg oldv newv) mark (.status regs) mark (.retry regs)
  | nope {oldv newv : Cap} {mark : Mark} {regs : Regs} :
      PointStep (.cmpxchg oldv newv) mark (.nope regs) mark
        (.returned (.fail regs.tmp))
  | load {mark : Mark} :
      PointStep .load mark .start mark (.returned (.value mark.value))
  | store {mark : Mark} {v : Cap} :
      PointStep (.store v) mark .start (mark.store v) (.returned .void)

def header : Implementation Mark Request Point Answer :=
  { enter := Request.enter
    step := PointStep
    result := fun _ => Point.answer }

/-- The accesses on a mark, at one instant. -/
inductive AtMark : Request → Cap → Cap → Answer → Prop where
  | swapped {mark oldv newv : Cap} :
      mark.address = oldv.address →
      AtMark (.cmpxchg oldv newv) mark newv (.succeed oldv)
  | refused {mark oldv newv : Cap} :
      mark.address ≠ oldv.address →
      AtMark (.cmpxchg oldv newv) mark mark (.fail mark)
  | load (mark : Cap) : AtMark .load mark mark (.value mark)
  | store (mark v : Cap) : AtMark (.store v) mark v .void

/-- A loaded mark that differs already decides. -/
def Point.taken : Point → Option Answer
  | .compare regs _ =>
      if regs.tmp.address = regs.oldv.address then none
      else some (.fail regs.tmp)
  | .status regs => if regs.stored then some (.succeed regs.oldv) else none
  | .nope regs => some (.fail regs.tmp)
  | point => point.answer

/-- The registers of the call, before `mov(oldv, tmp)`. -/
def Regs.Of (request : Request) (regs : Regs) : Prop :=
  request = .cmpxchg regs.oldv regs.newv

/-- A reservation that still holds is one on the mark that was loaded. -/
def Regs.Reserves (mark : Mark) (regs : Regs) (seen : Nat) : Prop :=
  seen ≤ mark.stores ∧ (seen = mark.stores → regs.tmp = mark.value)

/-- What a call relies on. -/
def Point.Relies (mark : Mark) (request : Request) : Point → Prop
  | .start => True
  | .retry regs => regs.Of request
  | .compare regs seen => regs.Of request ∧ regs.Reserves mark seen
  | .stlxr regs seen => regs.Of request ∧ regs.Reserves mark seen ∧
      regs.tmp.address = regs.oldv.address
  | .status regs => regs.Of request
  | .nope regs => regs.Of request
  | .returned _ => True

theorem Point.Relies.stable {mark mark' : Mark} {request : Request}
    {point : Point} (relies : point.Relies mark request)
    (moved : mark' = mark ∨ ∃ v, mark' = mark.store v) :
    point.Relies mark' request := by
  have kept : ∀ {regs : Regs} {seen : Nat}, regs.Reserves mark seen →
      regs.Reserves mark' seen := by
    intro regs seen reserves
    rcases moved with rfl | ⟨v, rfl⟩
    · exact reserves
    · -- a store ends the reservation
      have before := reserves.1
      refine ⟨Nat.le_succ_of_le before, fun same => ?_⟩
      have after : seen = mark.stores + 1 := same
      omega
  cases point with
  | compare regs seen => exact ⟨relies.1, kept relies.2⟩
  | stlxr regs seen => exact ⟨relies.1, kept relies.2.1, relies.2.2⟩
  | _ => exact relies

theorem ofInt_stored (regs : Regs) :
    ({ regs with tmp := Cap.ofInt 0 } : Regs).stored ∧
      ¬ ({ regs with tmp := Cap.ofInt 1 } : Regs).stored := by
  constructor <;> simp [Regs.stored, Cap.ofInt]

/-- One instruction: the mark is left alone or stored to, and the call takes
effect at most once. -/
theorem PointStep.effect {request : Request} {mark mark' : Mark}
    {point point' : Point} (relies : point.Relies mark request)
    (stepped : PointStep request mark point mark' point') :
    (mark' = mark ∨ ∃ v, mark' = mark.store v) ∧
      point'.Relies mark' request ∧
      (point'.taken = point.taken ∧ mark'.value = mark.value ∨
        point.taken = none ∧ ∃ r, point'.taken = some r ∧
          AtMark request mark.value mark'.value r) := by
  cases stepped with
  | @ldaxr oldv newv _ regs =>
      have own : Request.cmpxchg oldv newv = .cmpxchg regs.oldv regs.newv :=
        relies
      refine ⟨.inl rfl, ⟨own, Nat.le_refl _, fun _ => rfl⟩, ?_⟩
      by_cases same : mark.value.address = regs.oldv.address
      · exact .inl ⟨if_pos same, rfl⟩
      · refine .inr ⟨rfl, .fail mark.value, if_neg same, ?_⟩
        rw [own]
        exact .refused same
  | equal same =>
      exact ⟨.inl rfl, ⟨relies.1, relies.2, same⟩,
        .inl ⟨(if_pos same).symm, rfl⟩⟩
  | differ other =>
      exact ⟨.inl rfl, relies.1, .inl ⟨(if_neg other).symm, rfl⟩⟩
  | @stored oldv newv _ regs =>
      obtain ⟨own, reserves, same⟩ := relies
      have loaded := reserves.2 rfl
      have settled : Point.taken (.status { regs with tmp := Cap.ofInt 0 }) =
          some (.succeed regs.oldv) := by
        rw [Point.taken, if_pos (ofInt_stored regs).1]
      refine ⟨.inr ⟨_, rfl⟩, own, .inr ⟨rfl, _, settled, ?_⟩⟩
      have own : Request.cmpxchg oldv newv = .cmpxchg regs.oldv regs.newv := own
      rw [own]
      exact .swapped (loaded ▸ same)
  | @lost _ _ _ regs _ =>
      have pending : Point.taken (.status { regs with tmp := Cap.ofInt 1 }) =
          none := by
        rw [Point.taken, if_neg (ofInt_stored regs).2]
      exact ⟨.inl rfl, relies.1, .inl ⟨pending, rfl⟩⟩
  | succeed stored =>
      exact ⟨.inl rfl, trivial, .inl ⟨(if_pos stored).symm, rfl⟩⟩
  | again lost =>
      exact ⟨.inl rfl, relies, .inl ⟨(if_neg lost).symm, rfl⟩⟩
  | nope => exact ⟨.inl rfl, trivial, .inl ⟨rfl, rfl⟩⟩
  | load => exact ⟨.inl rfl, trivial, .inr ⟨rfl, _, rfl, .load _⟩⟩
  | store => exact ⟨.inr ⟨_, rfl⟩, trivial, .inr ⟨rfl, _, rfl, .store _ _⟩⟩

theorem Point.taken_of_answer {point : Point} {r : Answer}
    (back : point.answer = some r) : point.taken = some r := by
  cases point with
  | returned answer => exact back
  | _ => cases back

theorem Request.enter_relies (mark : Mark) (request : Request) :
    request.enter.Relies mark request ∧ request.enter.taken = none := by
  cases request <;> exact ⟨by trivial, rfl⟩

theorem header_simulates (ι : Type*) [DecidableEq ι] :
    Simulation (ι := ι) header AtMark (fun _ => True)
      (fun mark calls => ∀ i request point, calls i = some (request, point) →
        point.Relies mark request) Mark.value (fun _ => Point.taken) := by
  apply Simulation.ofReliance
  · intro mark request _
    exact request.enter_relies mark
  · intro mark request point mark' point' relies stepped
    obtain ⟨moved, next, effected⟩ := PointStep.effect relies stepped
    exact ⟨fun _ _ relied => relied.stable moved, next, effected⟩
  · exact Point.taken_of_answer

/-- Over `cmpxchg_obj_header`, run one instruction at a time, every program
does what it can do over a mark on which each call is one compare-and-swap of
the address that moves the whole capability. -/
theorem cmpxchgObjHeader_atomic {ι γ ρ : Type*} [DecidableEq ι]
    {client : Client ι γ ρ Request Answer}
    {start c : Interleaving.Config ι (γ × Mark) (ρ × Option (Request × Point))}
    (idle : ∀ i, (start.locals i).2 = none)
    (reachable : ConcreteReachable client header start c) :
    ∃ a, AtomicReachable client AtMark (atomicStart Mark.value start) a ∧
      Matches client Mark.value (fun _ => Point.taken) c a := by
  obtain ⟨a, ran, matched, _⟩ := (header_simulates ι).refines idle
    (by rintro i request point ⟨⟩) (fun _ _ _ _ _ => trivial) reachable
  exact ⟨a, ran, matched⟩

/-! ## Progress -/

/-- An exclusive store that fails although the reservation holds. -/
def spurious (_ : Request) (mark : Mark) : Point → Point → Bool
  | .stlxr _ seen, .status regs => seen == mark.stores && !decide regs.stored
  | _, _ => false

/-- What a call still has to pay for: its own instructions, and another round
for every other call, since it ends their reservations. -/
def rank (others : Nat) (mark : Mark) : Point → Nat
  | .start => 4 * others + 1
  | .retry _ => 4 * others + 4
  | .compare _ seen => 4 * others + 3 + if seen = mark.stores then 0 else 4
  | .stlxr _ seen => 4 * others + 2 + if seen = mark.stores then 0 else 4
  | .status regs => if regs.stored then 1 else 4 * others + 5
  | .nope _ => 1
  | .returned _ => 0

/-- A store costs another call one round. -/
theorem rank_le_add (others : Nat) (mark mark' : Mark) (point : Point) :
    rank others mark' point ≤ rank others mark point + 4 := by
  cases point with
  | compare regs seen =>
      simp only [rank]
      split <;> omega
  | stlxr regs seen =>
      simp only [rank]
      split <;> omega
  | _ => exact Nat.le_add_right _ _

theorem rank_enter (others : Nat) (mark : Mark) (request : Request) :
    rank others mark request.enter ≤ 4 * others + 4 := by
  cases request <;> simp [rank, Request.enter]

/-- Only stores disturb the other calls. -/
theorem PointStep.pays (others : Nat) {request : Request} {mark mark' : Mark}
    {point point' : Point}
    (stepped : PointStep request mark point mark' point') :
    ∃ d, (∀ place, rank others mark' place ≤ rank others mark place + d) ∧
      rank others mark' point' + others * d + 1 ≤
        rank others mark point +
          if spurious request mark point point' then 3 + 1 else 0 := by
  have alone : ∀ place, rank others mark place ≤ rank others mark place + 0 :=
    fun _ => Nat.le_refl _
  cases stepped with
  | ldaxr =>
      refine ⟨0, alone, ?_⟩
      simp only [rank, spurious, if_pos]
      omega
  | equal _ =>
      refine ⟨0, alone, ?_⟩
      simp only [rank, spurious]
      omega
  | differ _ =>
      refine ⟨0, alone, ?_⟩
      simp only [rank, spurious]
      omega
  | @stored _ _ _ regs =>
      refine ⟨4, rank_le_add others mark _, ?_⟩
      simp only [rank, spurious, if_pos (ofInt_stored regs).1, if_pos]
      omega
  | @lost _ _ _ regs seen =>
      refine ⟨0, alone, ?_⟩
      simp only [rank, spurious, if_neg (ofInt_stored regs).2,
        decide_eq_false (ofInt_stored regs).2, Bool.not_false, Bool.and_true,
        beq_iff_eq]
      split <;> omega
  | succeed stored =>
      refine ⟨0, alone, ?_⟩
      simp only [rank, spurious, if_pos stored]
      omega
  | again lost =>
      refine ⟨0, alone, ?_⟩
      simp only [rank, spurious, if_neg lost]
      omega
  | nope =>
      refine ⟨0, alone, ?_⟩
      simp only [rank, spurious]
      omega
  | load =>
      refine ⟨0, alone, ?_⟩
      simp only [rank, spurious]
      omega
  | store =>
      refine ⟨4, rank_le_add others mark _, ?_⟩
      simp only [rank, spurious]
      omega

/-- In every run the steps of all calls are bounded by the number of
calls, but for exclusive stores that fail spuriously: while threads go round
the loop, some call returns. -/
theorem cmpxchgObjHeader_lockFree {ι γ ρ : Type*} [DecidableEq ι] [Fintype ι]
    {client : Client ι γ ρ Request Answer}
    {start c : Interleaving.Config ι (γ × Mark) (ρ × Option (Request × Point))}
    {t : Tally} (idle : ∀ i, (start.locals i).2 = none)
    (tallied : Tallied client header spurious start c t) :
    t.accesses ≤ (4 * (Fintype.card ι - 1) + 4) * t.calls + 3 * t.waits := by
  have paid := tallied.accesses_le
    (fun mark _ => rank (Fintype.card ι - 1) mark)
    (4 * (Fintype.card ι - 1) + 4) 3
    (fun mark request => rank_enter _ mark request)
    (fun stepped => by
      obtain ⟨d, raised, enough⟩ := stepped.pays (Fintype.card ι - 1)
      exact ⟨d, fun _ => raised, enough⟩) idle
  omega

section Example

/-- The next instruction of a call; exclusive stores do not fail spuriously. -/
def pointNext : Request → Mark → Point → Mark × Point
  | .cmpxchg _ _, mark, .retry regs =>
      (mark, .compare { regs with tmp := mark.value } mark.stores)
  | .cmpxchg _ _, mark, .compare regs seen =>
      if regs.tmp.address = regs.oldv.address then (mark, .stlxr regs seen)
      else (mark, .nope regs)
  | .cmpxchg _ _, mark, .stlxr regs seen =>
      if seen = mark.stores then
        (mark.store regs.newv, .status { regs with tmp := Cap.ofInt 0 })
      else (mark, .status { regs with tmp := Cap.ofInt 1 })
  | .cmpxchg _ _, mark, .status regs =>
      if regs.stored then (mark, .returned (.succeed regs.oldv))
      else (mark, .retry regs)
  | .cmpxchg _ _, mark, .nope regs => (mark, .returned (.fail regs.tmp))
  | .load, mark, .start => (mark, .returned (.value mark.value))
  | .store v, mark, .start => (mark.store v, .returned .void)
  | _, mark, point => (mark, point)

theorem pointNext_steps (request : Request) (mark : Mark) (point : Point) :
    pointNext request mark point = (mark, point) ∨
      PointStep request mark point (pointNext request mark point).1
        (pointNext request mark point).2 := by
  unfold pointNext
  split
  · exact .inr .ldaxr
  · split
    · rename_i same
      exact .inr (.equal same)
    · rename_i other
      exact .inr (.differ other)
  · split
    · rename_i reserved
      subst reserved
      exact .inr .stored
    · exact .inr .lost
  · split
    · rename_i stored
      exact .inr (.succeed stored)
    · rename_i lost
      exact .inr (.again lost)
  · exact .inr .nope
  · exact .inr .load
  · exact .inr .store
  · exact .inl rfl

/-- The capability of a lock record. -/
def lockRecord (a : Nat) : Cap :=
  { Cap.ofInt a with tag := true }

/-- Two threads that try to lock an object with the neutral mark 1. -/
def twoLockers : Interleaving.Config Bool (Unit × Mark)
    ((List Request × List Answer) × Option (Request × Point)) :=
  { shared := ((), { value := Cap.ofInt 1, stores := 0 })
    locals := fun i =>
      (([.cmpxchg (Cap.ofInt 1) (lockRecord (if i then 64 else 128))], []),
        none) }

/-- The first thread is overtaken between its load and its store. -/
theorem twoLockers_run : ∃ c,
    ConcreteReachable (scripted Bool Request Answer) header twoLockers c ∧
    (c.locals true).1.2 = [.succeed (Cap.ofInt 1)] ∧
    (c.locals false).1.2 = [.fail (lockRecord 64)] ∧
    c.shared.2.value = lockRecord 64 := by
  have steps : ∀ i x, Relation.ReflTransGen (fun before after =>
      ConcreteStep (scripted Bool Request Answer) header i before.1
        before.2 after.1 after.2) x (follow (scripted Bool Request Answer)
          header Prod.mk pointNext x) := fun i x =>
    follow_steps i (fun _ _ => .inl rfl)
      (fun request mark point _ => pointNext_steps request mark point) x
  have first : ConcreteReachable (scripted Bool Request Answer) header
      twoLockers _ := Interleaving.Reachable.repeated false 3 (steps false)
  have second := first.trans
    (Interleaving.Reachable.repeated true 6 (steps true))
  have third := second.trans
    (Interleaving.Reachable.repeated false 6 (steps false))
  exact ⟨_, third, by decide, by decide, by decide⟩

theorem cmpxchgObjHeader_atomic_overtaken : ∃ c a,
    ConcreteReachable (scripted Bool Request Answer) header twoLockers c ∧
    AtomicReachable (scripted Bool Request Answer) AtMark
      (atomicStart Mark.value twoLockers) a ∧
    a.shared.2 = lockRecord 64 ∧
    (a.locals false).1.2 = [.fail (lockRecord 64)] := by
  obtain ⟨c, ran, _, failed, value⟩ := twoLockers_run
  obtain ⟨a, atomic, matched⟩ := cmpxchgObjHeader_atomic (fun _ => rfl) ran
  refine ⟨c, a, ran, atomic, ?_, ?_⟩
  · rw [matched.shared, value]
  · rw [matched.own, failed]

theorem cmpxchgObjHeader_lockFree_overtaken : ∃ c t,
    ConcreteReachable (scripted Bool Request Answer) header twoLockers c ∧
    Tallied (scripted Bool Request Answer) header spurious twoLockers c t ∧
    t.accesses ≤ 8 * t.calls + 3 * t.waits := by
  obtain ⟨c, ran, _⟩ := twoLockers_run
  obtain ⟨t, tallied⟩ := exists_tallied spurious ran
  exact ⟨c, t, ran, tallied,
    cmpxchgObjHeader_lockFree (fun _ => rfl) tallied⟩

end Example

end Header

end StoplessGC
