import StoplessGC.EpochSteps
import StoplessGC.ForwardingGraph

/-!
# The concurrent revocation protocol is sound

While a close is pending no operation relocates anything, so no epoch is opened
between the check of the collector thread and the moment it clears the flag.
The invariant is of the form of Owicki and Gries: one assertion for each program
counter of the two threads, each of them kept by the steps of the other.
-/

namespace StoplessGC

open ForwardTable Collector Mutator

variable {cheri : Intrinsics} {arena : Arena cheri}

theorem doOop_closePending {env : Env} {replies : Replies} {limit : Nat}
    {s s' : Scan} {p : Nat}
    (ran : doOop arena env replies limit s p = .ok s') :
    s'.machine.closePending = s.machine.closePending := by
  have fixed : ∀ (m : Machine) (c : Cap),
      (fix env m p c).closePending = m.closePending := by
    intro m c
    unfold fix
    split <;> rfl
  cases doOop_cases ran with
  | quiet same _ => rw [same]
  | fixed word inArena looked same _ => rw [same, fixed]
  | @inserted o o2 klass size m table fwd reaches header moved entered same _ =>
      rw [same, fixed]
      change m.closePending = _
      unfold moveObject at moved
      cases reserved : memAllocate arena s.machine size with
      | none =>
          simp only [reserved] at moved
          cases moved
      | some result =>
          obtain ⟨copy, next⟩ := result
          obtain ⟨bump, rfl⟩ := memAllocate_bump reserved
          simp only [reserved] at moved
          cases moved
          rw [Machine.copyWords_eq]

theorem exec_closePending {evacuate : Option (Nat → Option Cap)}
    {pc fuel : Nat} {m m' : Machine} {op : Op} {granted : Bool}
    (ran : exec arena evacuate pc fuel m op = some (m', granted)) :
    m'.closePending = m.closePending := by
  cases op with
  | alloc dst klass size =>
      unfold exec at ran
      cases reserved : memAllocate arena m size with
      | none =>
          simp only [reserved] at ran
          cases ran
          rfl
      | some result =>
          obtain ⟨obj, next⟩ := result
          obtain ⟨bump, rfl⟩ := memAllocate_bump reserved
          simp only [reserved] at ran
          cases ran
          change (initialise _ _ _ _ _).closePending = _
          rw [initialise_eq]
  | imm dst n =>
      cases ran
      rfl
  | move dst src =>
      cases ran
      rfl
  | lea dst src delta =>
      cases ran
      rfl
  | fill dst p =>
      simp only [exec] at ran
      split at ran
      · cases ran
      split at ran
      · cases ran
      · cases ran
        rfl
  | spill p src =>
      simp only [exec] at ran
      split at ran
      · cases ran
      · cases ran
        rfl
  | load dst base delta =>
      simp only [exec] at ran
      split at ran
      · cases ran
      split at ran
      · cases ran
      · cases ran
        rfl
  | store base delta src =>
      simp only [exec] at ran
      split at ran
      · cases ran
      split at ran
      · cases ran
      · cases ran
        rfl

namespace EpochProtocol

/-- Without a pending close, every epoch is reported closed. -/
def Settled (s : Shared) : Prop :=
  s.machine.closePending = false → s.reported = s.opened

/-- The marks of the relocated objects are published or swept, apart from those
of the operation in progress. -/
def Covered (s : Shared) (moved : List Cap) : Prop :=
  ∀ o, o ∈ s.relocated → o ∈ s.published ∨ o ∈ s.swept ∨ o ∈ moved

/-- What holds at all times. -/
structure Everywhere (s : Shared) : Prop where
  reported : s.reported ≤ s.closed
  closed : s.closed ≤ s.opened
  published : ∀ o, o ∈ s.published → o ∈ s.marked
  swept : ∀ o, o ∈ s.swept → o ∈ s.marked

/-- An operation that may relocate, or has nothing to relocate. -/
structure InCycle (s : Shared) (cycle : Cycle) (moved : List Cap) : Prop where
  safepoint : s.safepoint = true
  coalesced : cycle.started = true → moved = []
  idle : cycle.started = false → s.machine.closePending = false
  covered : Covered s moved

/-- The assertions of the VM thread. -/
def VmOwn (s : Shared) : Pc → Prop
  | .idle => s.safepoint = false ∧ Settled s ∧ Covered s []
  | .scanning cycle _ scan =>
      InCycle s cycle scan.movedFrom ∧ Settled s ∧
        (cycle.started = true → cycle.limit = 0)
  | .marking cycle moved rest =>
      InCycle s cycle moved ∧ Settled s ∧
        ∀ o, o ∈ moved → o ∈ rest ∨ o ∈ s.marked
  | .opening cycle moved =>
      InCycle s cycle moved ∧ Settled s ∧ cycle.started = false ∧
        ∀ o, o ∈ moved → o ∈ s.marked
  | .opened cycle _ => InCycle s cycle [] ∧ cycle.started = false
  | .sweeping cycle moved =>
      InCycle s cycle moved ∧ Settled s ∧ cycle.started = false ∧
        ∀ o, o ∈ moved → o ∈ s.marked
  | .fatal => s.safepoint = true
  | _ => False

/-- The assertions of the collector thread. -/
def CollectorOwn (s : Shared) : Pc → Prop
  | .calling => s.machine.closePending = true
  | .closing target =>
      s.machine.closePending = true ∧ target = s.opened
  | .clearing => s.machine.closePending = true ∧ s.reported = s.opened
  | _ => True

def Own : Party → Shared → Pc → Prop
  | .vmThread => VmOwn
  | .collector => CollectorOwn
  | .others => fun _ _ => True

/-- What the collector thread and the other parties leave to the VM thread. -/
structure Kept (s s' : Shared) : Prop where
  safepoint : s'.safepoint = s.safepoint
  relocated : s'.relocated = s.relocated
  marked : s'.marked = s.marked
  published : s'.published = s.published
  swept : s'.swept = s.swept
  idle : s.machine.closePending = false → s'.machine.closePending = false
  settled : Settled s → Settled s'

theorem Covered.kept {s s' : Shared} {moved : List Cap}
    (covered : Covered s moved) (kept : Kept s s') : Covered s' moved := by
  intro o member
  rw [kept.relocated] at member
  rw [kept.published, kept.swept]
  exact covered o member

theorem InCycle.kept {s s' : Shared} {cycle : Cycle} {moved : List Cap}
    (within : InCycle s cycle moved) (kept : Kept s s') :
    InCycle s' cycle moved where
  safepoint := kept.safepoint.trans within.safepoint
  coalesced := within.coalesced
  idle := fun started => kept.idle (within.idle started)
  covered := within.covered.kept kept

theorem VmOwn.kept {s s' : Shared} {pc : Pc} (own : VmOwn s pc)
    (kept : Kept s s') : VmOwn s' pc := by
  cases pc with
  | idle =>
      obtain ⟨safepoint, settled, covered⟩ := own
      exact ⟨kept.safepoint.trans safepoint, kept.settled settled,
        covered.kept kept⟩
  | scanning cycle roots scan =>
      exact ⟨own.1.kept kept, kept.settled own.2.1, own.2.2⟩
  | marking cycle moved rest =>
      refine ⟨own.1.kept kept, kept.settled own.2.1, ?_⟩
      rw [kept.marked]
      exact own.2.2
  | opening cycle moved =>
      refine ⟨own.1.kept kept, kept.settled own.2.1, own.2.2.1, ?_⟩
      rw [kept.marked]
      exact own.2.2.2
  | opened cycle moved => exact ⟨own.1.kept kept, own.2⟩
  | sweeping cycle moved =>
      refine ⟨own.1.kept kept, kept.settled own.2.1, own.2.2.1, ?_⟩
      rw [kept.marked]
      exact own.2.2.2
  | fatal => exact kept.safepoint.trans own
  | _ => exact own.elim

/-- A step of the collector thread clears the flag only when every epoch is
reported closed. -/
theorem CollectorStep.kept {s s' : Shared} {pc pc' : Pc}
    (own : CollectorOwn s pc) (step : CollectorStep s pc s' pc') :
    Kept s s' := by
  cases step with
  | wake => exact ⟨rfl, rfl, rfl, rfl, rfl, id, id⟩
  | terminate => exact ⟨rfl, rfl, rfl, rfl, rfl, id, id⟩
  | executed requested => exact ⟨rfl, rfl, rfl, rfl, rfl, id, id⟩
  | checkPending pending => exact ⟨rfl, rfl, rfl, rfl, rfl, id, id⟩
  | checkIdle idle => exact ⟨rfl, rfl, rfl, rfl, rfl, id, id⟩
  | enter => exact ⟨rfl, rfl, rfl, rfl, rfl, id, id⟩
  | close attempt reported =>
      refine ⟨rfl, rfl, rfl, rfl, rfl, id, ?_⟩
      intro _ idle
      rw [show s.machine.closePending = true from own.1] at idle
      cases idle
  | closeFails attempt complete failed =>
      exact ⟨rfl, rfl, rfl, rfl, rfl, id, id⟩
  | clear => exact ⟨rfl, rfl, rfl, rfl, rfl, fun _ => rfl, fun _ _ => own.2⟩

theorem OtherStep.kept {s s' : Shared} {pc pc' : Pc}
    (step : OtherStep arena s pc s' pc') : Kept s s' := by
  cases step with
  | instruction resumed ran =>
      have flag := exec_closePending ran
      exact ⟨rfl, rfl, rfl, rfl, rfl, fun idle => flag.trans idle,
        fun settled idle => settled (flag.symm.trans idle)⟩
  | revoked words regs => exact ⟨rfl, rfl, rfl, rfl, rfl, id, id⟩

/-- While a close is pending, the VM thread opens no epoch. -/
theorem VmStep.pending {s s' : Shared} {pc pc' : Pc} (own : VmOwn s pc)
    (step : VmStep arena s pc s' pc')
    (pending : s.machine.closePending = true) :
    s'.machine.closePending = true ∧ s'.opened = s.opened ∧
      s'.reported = s.reported := by
  cases step with
  | start ofCollector roots mode requested grown => exact ⟨pending, rfl, rfl⟩
  | visit ran => exact ⟨(doOop_closePending ran).trans pending, rfl, rfl⟩
  | scanned => exact ⟨pending, rfl, rfl⟩
  | mark => exact ⟨pending, rfl, rfl⟩
  | nothing => exact ⟨pending, rfl, rfl⟩
  | marked relocates => exact ⟨pending, rfl, rfl⟩
  | openEpoch attempt opens closed =>
      have idle := own.1.idle own.2.2.1
      rw [pending] at idle
      cases idle
  | openAgain attempt opens unfinished => exact ⟨pending, rfl, rfl⟩
  | openFails attempt fails => exact ⟨pending, rfl, rfl⟩
  | setPending => exact ⟨rfl, rfl, rfl⟩
  | sweep kernel swept =>
      refine ⟨?_, rfl, rfl⟩
      change (revokeSweep kernel s.machine).2.closePending = true
      unfold revokeSweep
      simp only
      split <;> exact pending
  | fatal kernel fails => exact ⟨pending, rfl, rfl⟩

theorem CollectorOwn.kept {s s' : Shared} {pc : Pc} (own : CollectorOwn s pc)
    (kept : s.machine.closePending = true →
      s'.machine.closePending = true ∧ s'.opened = s.opened ∧
        s'.reported = s.reported) : CollectorOwn s' pc := by
  cases pc with
  | calling => exact (kept own).1
  | closing target =>
      obtain ⟨pending, opened, _⟩ := kept own.1
      exact ⟨pending, own.2.trans opened.symm⟩
  | clearing =>
      obtain ⟨pending, opened, reported⟩ := kept own.1
      refine ⟨pending, ?_⟩
      rw [reported, opened]
      exact own.2
  | _ => trivial

theorem Covered.more {s : Shared} {moved : List Cap}
    (covered : Covered s moved) {all : List Cap}
    (larger : ∀ o, o ∈ moved → o ∈ all) : Covered s all := by
  intro o member
  rcases covered o member with published | swept | current
  · exact .inl published
  · exact .inr (.inl swept)
  · exact .inr (.inr (larger o current))

/-- A visit of an operation that found a close pending relocates nothing. -/
theorem VmOwn.visit {s : Shared} {cycle : Cycle} {p : Nat} {rest : List Nat}
    {scan scan' : Scan} (own : VmOwn s (.scanning cycle (p :: rest) scan))
    (ran : doOop arena cycle.env cycle.replies cycle.limit
      { scan with machine := s.machine } p = .ok scan') :
    VmOwn (s.visited scan scan') (.scanning cycle rest scan') := by
  obtain ⟨within, settled, limit⟩ := own
  have flag := doOop_closePending ran
  refine ⟨⟨within.safepoint, ?_, ?_, ?_⟩, ?_, limit⟩
  · intro started
    rcases doOop_count ran with ⟨_, same⟩ | ⟨below, _⟩
    · exact same.trans (within.coalesced started)
    · rw [limit started] at below
      cases below
  · intro started
    exact flag.trans (within.idle started)
  · have longer : ∃ new, scan'.movedFrom = scan.movedFrom ++ new := by
      rcases doOop_count ran with ⟨_, same⟩ | ⟨_, _, o, more⟩
      · exact ⟨[], by rw [List.append_nil]; exact same⟩
      · exact ⟨[o], more⟩
    obtain ⟨new, more⟩ := longer
    intro o member
    change o ∈ s.relocated ++ scan'.movedFrom.drop scan.movedFrom.length
      at member
    rw [more, List.drop_left, List.mem_append] at member
    rw [more]
    rcases member with old | added
    · exact within.covered.more (fun o => List.mem_append_left new) o old
    · exact .inr (.inr (List.mem_append_right _ added))
  · intro idle
    exact settled (flag.symm.trans idle)

theorem Covered.publish {s : Shared} {moved : List Cap}
    (covered : Covered s moved) (everywhere : Everywhere s)
    (marked : ∀ o, o ∈ moved → o ∈ s.marked) :
    ∀ o, o ∈ s.relocated → o ∈ s.marked := by
  intro o member
  rcases covered o member with published | swept | current
  · exact everywhere.published o published
  · exact everywhere.swept o swept
  · exact marked o current

theorem VmStep.sequential {s s' : Shared} {pc pc' : Pc}
    (everywhere : Everywhere s) (own : VmOwn s pc)
    (step : VmStep arena s pc s' pc') : Everywhere s' ∧ VmOwn s' pc' := by
  cases step with
  | @start env replies table ofCollector roots mode requested grown =>
      obtain ⟨safepoint, settled, covered⟩ := own
      refine ⟨{ everywhere with }, ⟨rfl, fun _ => rfl, id, covered⟩, settled, ?_⟩
      intro started
      have pending : s.machine.closePending = true := started
      change cycleLimit env s.machine = 0
      rw [cycleLimit, mode.concurrent, pending]
      rfl
  | visit ran =>
      exact ⟨{ everywhere with }, own.visit ran⟩
  | scanned =>
      exact ⟨everywhere, own.1, own.2.1, fun o member => .inl member⟩
  | @mark cycle moved o rest =>
      obtain ⟨within, settled, marks⟩ := own
      have grown : ∀ {a}, a ∈ s.marked → a ∈ s.marked ++ [o] :=
        fun member => List.mem_append_left _ member
      refine ⟨⟨everywhere.reported, everywhere.closed,
        fun a member => grown (everywhere.published a member),
        fun a member => grown (everywhere.swept a member)⟩,
        ⟨within.safepoint, within.coalesced, within.idle, within.covered⟩,
        settled, ?_⟩
      intro a member
      rcases marks a member with first | done
      · rcases List.mem_cons.mp first with rfl | later
        · exact .inr (List.mem_append_right _ (List.mem_singleton_self a))
        · exact .inl later
      · exact .inr (grown done)
  | nothing =>
      obtain ⟨within, settled, _⟩ := own
      exact ⟨{ everywhere with }, rfl, settled, within.covered⟩
  | marked relocates =>
      obtain ⟨within, settled, marks⟩ := own
      refine ⟨everywhere, within, settled, ?_, ?_⟩
      · exact Bool.eq_false_iff.mpr fun started =>
          relocates (within.coalesced started)
      · intro o member
        rcases marks o member with rest | done
        · cases rest
        · exact done
  | @openEpoch cycle moved attempt opens closed =>
      obtain ⟨within, settled, started, marks⟩ := own
      have all := within.covered.publish everywhere marks
      refine ⟨⟨everywhere.reported, everywhere.closed.trans (Nat.le_succ _),
        fun _ member => member, everywhere.swept⟩,
        ⟨within.safepoint, fun _ => rfl, within.idle, ?_⟩, started⟩
      intro o member
      exact .inl (all o member)
  | openAgain attempt opens unfinished =>
      -- An epoch is open only while its close is pending.
      obtain ⟨within, settled, started, _⟩ := own
      have reported := settled (within.idle started)
      have lower := everywhere.reported
      have upper := everywhere.closed
      omega
  | openFails attempt fails => exact ⟨everywhere, own⟩
  | setPending =>
      obtain ⟨within, _⟩ := own
      refine ⟨{ everywhere with }, rfl, ?_, within.covered⟩
      intro idle
      cases idle
  | @sweep cycle moved kernel swept =>
      obtain ⟨within, settled, started, marks⟩ := own
      have all := within.covered.publish everywhere marks
      have reported := settled (within.idle started)
      refine ⟨⟨Nat.le_of_eq reported, Nat.le_refl _, everywhere.published,
        fun _ member => member⟩, rfl, fun _ => reported, ?_⟩
      intro o member
      exact .inr (.inl (all o member))
  | fatal kernel fails => exact ⟨everywhere, own.1.safepoint⟩

theorem CollectorStep.sequential {s s' : Shared} {pc pc' : Pc}
    (everywhere : Everywhere s) (own : CollectorOwn s pc)
    (step : CollectorStep s pc s' pc') :
    Everywhere s' ∧ CollectorOwn s' pc' := by
  cases step with
  | wake => exact ⟨{ everywhere with }, trivial⟩
  | terminate => exact ⟨everywhere, trivial⟩
  | executed requested => exact ⟨{ everywhere with }, trivial⟩
  | checkPending pending => exact ⟨everywhere, pending⟩
  | checkIdle idle => exact ⟨everywhere, trivial⟩
  | enter => exact ⟨everywhere, own, rfl⟩
  | @close target attempt reported =>
      obtain ⟨pending, rfl⟩ := own
      have lower := everywhere.reported
      have upper := everywhere.closed
      refine ⟨⟨?_, ?_, everywhere.published, everywhere.swept⟩, pending, ?_⟩
      · change max s.reported s.opened ≤ max s.closed s.opened
        omega
      · change max s.closed s.opened ≤ s.opened
        omega
      · change max s.reported s.opened = s.opened
        omega
  | @closeFails target attempt complete failed =>
      obtain ⟨_, rfl⟩ := own
      have lower := everywhere.reported
      have upper := everywhere.closed
      refine ⟨⟨?_, ?_, everywhere.published, everywhere.swept⟩, trivial⟩
      · change s.reported ≤ if complete then max s.closed s.opened else s.closed
        split <;> omega
      · change (if complete then max s.closed s.opened else s.closed) ≤ s.opened
        split <;> omega
  | clear => exact ⟨{ everywhere with }, trivial⟩

/-- The operation in progress and the objects it has relocated so far. -/
def Pc.progress : Pc → Option (Cycle × List Cap)
  | .scanning cycle _ scan => some (cycle, scan.movedFrom)
  | .marking cycle moved _ => some (cycle, moved)
  | .opening cycle moved => some (cycle, moved)
  | .opened cycle moved => some (cycle, moved)
  | .sweeping cycle moved => some (cycle, moved)
  | _ => none

/-- What the protocol guarantees: an operation that starts while a close is
pending relocates nothing; whenever mutators run, the marks of all relocated
objects are published by an open or covered by a sweep; and then the flag is
set as long as an epoch is not reported closed.  A VM that has died in
`fatal()` never leaves the safepoint. -/
structure EpochsSound (c : System) : Prop where
  coalesced : ∀ {cycle moved},
    (c.locals .vmThread).progress = some (cycle, moved) →
    cycle.started = true → moved = []
  covered : c.shared.safepoint = false → ∀ o, o ∈ c.shared.relocated →
    o ∈ c.shared.published ∨ o ∈ c.shared.swept
  pending : c.shared.safepoint = false →
    c.shared.reported < c.shared.opened → c.shared.machine.closePending = true

theorem VmOwn.coalesced {s : Shared} {pc : Pc} (own : VmOwn s pc)
    {cycle : Cycle} {moved : List Cap}
    (progress : pc.progress = some (cycle, moved))
    (started : cycle.started = true) : moved = [] := by
  cases pc with
  | scanning cycle roots scan =>
      cases progress
      exact own.1.coalesced started
  | marking cycle moved rest =>
      cases progress
      exact own.1.coalesced started
  | opening cycle moved =>
      cases progress
      exact own.1.coalesced started
  | opened cycle moved =>
      cases progress
      rw [own.2] at started
      cases started
  | sweeping cycle moved =>
      cases progress
      exact own.1.coalesced started
  | _ => cases progress

theorem VmOwn.resumed {s : Shared} {pc : Pc} (own : VmOwn s pc)
    (running : s.safepoint = false) : Settled s ∧ Covered s [] := by
  have stopped : s.safepoint ≠ true := by simp [running]
  cases pc with
  | idle => exact own.2
  | scanning cycle roots scan => exact absurd own.1.safepoint stopped
  | marking cycle moved rest => exact absurd own.1.safepoint stopped
  | opening cycle moved => exact absurd own.1.safepoint stopped
  | opened cycle moved => exact absurd own.1.safepoint stopped
  | sweeping cycle moved => exact absurd own.1.safepoint stopped
  | fatal => exact absurd own stopped
  | _ => exact own.elim

/-- The assertions hold in every interleaving. -/
theorem Reachable.own {c : System} (reachable : Reachable arena start c) :
    Everywhere c.shared ∧ ∀ i, Own i c.shared (c.locals i) := by
  apply Interleaving.Reachable.noninterference reachable
  · exact ⟨Nat.le_refl _, Nat.le_refl _, by simp [start], by simp [start]⟩
  · intro i
    cases i with
    | vmThread => exact ⟨rfl, fun _ => rfl, by simp [Covered, start]⟩
    | collector => trivial
    | others => trivial
  · intro i s pc s' pc' everywhere own step
    cases i with
    | vmThread => exact VmStep.sequential everywhere own step
    | collector => exact CollectorStep.sequential everywhere own step
    | others =>
        refine ⟨?_, trivial⟩
        cases step with
        | instruction resumed ran =>
            exact { everywhere with }
        | revoked words regs =>
            exact { everywhere with }
  · intro i j s pc s' pc' other different everywhere own step undisturbed
    cases j with
    | vmThread =>
        cases i with
        | vmThread => exact absurd rfl different
        | collector => exact undisturbed.kept (CollectorStep.kept own step)
        | others => exact undisturbed.kept (OtherStep.kept step)
    | collector =>
        cases i with
        | vmThread => exact undisturbed.kept (VmStep.pending own step)
        | collector => exact absurd rfl different
        | others =>
            refine undisturbed.kept fun pending => ?_
            cases step with
            | instruction resumed ran =>
                exact ⟨(exec_closePending ran).trans pending, rfl, rfl⟩
            | revoked words regs => exact ⟨pending, rfl, rfl⟩
    | others => trivial

/-- In every interleaving of the collector thread, collect operations and
mutators, with any failures of the kernel, the protocol is sound. -/
theorem epoch_protocol_sound {c : System}
    (reachable : Reachable arena start c) : EpochsSound c := by
  obtain ⟨everywhere, own⟩ := reachable.own
  have vm : VmOwn c.shared (c.locals .vmThread) := own .vmThread
  constructor
  · intro cycle moved progress started
    exact vm.coalesced progress started
  · intro running o member
    simpa using (vm.resumed running).2 o member
  · intro running unreported
    by_contra idle
    have settled := (vm.resumed running).1 (by simpa using idle)
    omega

theorem instruction_steps {ops : List Op} {s : Shared} {m : Machine}
    (running : s.safepoint = false)
    (ran : perform arena s.machine (ops.map .op) = some m) :
    Relation.ReflTransGen (fun before after : Shared × Pc =>
      PartyStep arena .others before.1 before.2 after.1 after.2)
      (s, .running) ({ s with machine := m }, .running) := by
  induction ops generalizing s with
  | nil =>
      cases ran
      exact .refl
  | cons op rest ih =>
      rw [List.map_cons, perform] at ran
      split at ran
      case isTrue admissible =>
        cases executed : exec arena none 0 4 s.machine op with
        | none =>
            rw [executed] at ran
            cases ran
        | some result =>
            rw [executed] at ran
            have first : PartyStep arena .others s .running
                { s with machine := result.1 } .running :=
              OtherStep.instruction running executed
            have steps : Relation.ReflTransGen _
                (({ s with machine := result.1 } : Shared), Pc.running) _ :=
              ih running ran
            exact .head first steps
      case isFalse => cases ran

/-- The environment of the protocol. -/
def concurrentEnv : Env := { Env.unset with revokeConcurrent := true }

/-- One operation has relocated an object; its epoch waits for the close. -/
theorem epoch_protocol_sound_opened :
    ∃ c, Reachable Arena.small start c ∧ c.shared.relocated ≠ [] ∧
      c.shared.machine.closePending = true ∧ EpochsSound c := by
  obtain ⟨m, ran, checked⟩ := (Option.any_eq_true _ _).mp (by decide +kernel :
    (perform Arena.small Machine.boot
      ([.alloc 0 none 1, .spill 16 0].map .op)).any (fun m =>
        (doit Arena.small concurrentEnv Replies.granted [16] m).toOption.any
          (fun r => decide (r.1.closePending = true ∧ r.2 ≠ []))) = true)
  obtain ⟨⟨m', moved⟩, returned, checked⟩ := Except.exists_of_any checked
  obtain ⟨pending, moves⟩ := of_decide_eq_true checked
  have mutators : Reachable Arena.small start
      (start.advance Party.others { start.shared with machine := m }
        .running) :=
    Interleaving.Reachable.alone Party.others (instruction_steps rfl ran)
  have mode : concurrentEnv.Concurrent := ⟨rfl, rfl⟩
  have alone : ∃ s', VmSteps Arena.small
      (({ start.shared with machine := m } : Shared), .idle) (s', .idle) ∧
        s'.machine = m' ∧ s'.safepoint = false ∧ s'.relocated = [] ++ moved :=
    doit_steps mode (fun _ _ => rfl) returned
  obtain ⟨s, steps, machine, _, relocated⟩ := alone
  have cycle : Reachable Arena.small start _ := mutators.trans
    (Interleaving.Reachable.alone Party.vmThread steps)
  refine ⟨_, cycle, ?_, ?_, epoch_protocol_sound cycle⟩
  · rw [Interleaving.Config.advance_shared, relocated]
    simpa using moves
  · rw [Interleaving.Config.advance_shared, machine]
    exact pending

end EpochProtocol

end StoplessGC
