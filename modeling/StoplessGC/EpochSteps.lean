import StoplessGC.Foundation.Interleaving
import StoplessGC.Execution

/-!
# The concurrent revocation protocol, step by step

With `STOPLESS_REVOKE_CONCURRENT` a collect operation opens a revocation epoch
inside its pause, and `StoplessCollectorThread::run_service` closes it while the
mutators run.  The VM thread executes the operations of all threads one after
the other; the collector thread does not stop at safepoints, so its steps come
anywhere between those of an operation.

Of the kernel the model keeps how many epochs were opened, how many are closed,
and for how many a close has reported success.
-/

namespace StoplessGC

open ForwardTable Collector Mutator

variable {cheri : Intrinsics}

/-- The mode of the protocol. -/
structure Env.Concurrent (env : Env) : Prop where
  revokes : env.noRevoke = false
  concurrent : env.revokeConcurrent = true

namespace EpochProtocol

/-- The two threads of the protocol, and the mutators together with the scan
that the kernel makes in the background. -/
inductive Party where
  | vmThread
  | collector
  | others
deriving DecidableEq

/-- The operation that the collector thread hands to `VMThread::execute`. -/
inductive Request where
  | none
  | queued
  | done
deriving DecidableEq

/-- What all parties share.  `g_stopless_close_pending` is a field of the
machine. -/
structure Shared where
  machine : Machine
  safepoint : Bool
  request : Request
  relocated : List Cap
  marked : List Cap
  published : List Cap
  swept : List Cap
  opened : Nat
  closed : Nat
  reported : Nat

/-- An operation: whose it is, whether a close was pending at its start, and
its move limit. -/
structure Cycle where
  env : Env
  replies : Replies
  ofCollector : Bool
  started : Bool
  limit : Nat

inductive Pc where
  /-- The VM thread has no operation. -/
  | idle
  | scanning (cycle : Cycle) (roots : List Nat) (scan : Scan)
  | marking (cycle : Cycle) (moved rest : List Cap)
  | opening (cycle : Cycle) (moved : List Cap)
  | opened (cycle : Cycle) (moved : List Cap)
  | sweeping (cycle : Cycle) (moved : List Cap)
  | fatal
  /-- The collector thread waits for the next period. -/
  | sleeping
  | waiting
  | checking
  | calling
  | closing (target : Nat)
  | clearing
  | stopped
  /-- Mutators and kernel. -/
  | running

namespace Shared

def setPending (s : Shared) (v : Bool) : Shared :=
  { s with machine := { s.machine with closePending := v } }

/-- The operation is over and the mutators resume. -/
def resume (s : Shared) (cycle : Cycle) : Shared :=
  { s with
    safepoint := false
    request := if cycle.ofCollector then .done else s.request }

/-- The objects that a visit has relocated. -/
def visited (s : Shared) (before after : Scan) : Shared :=
  { s with
    machine := after.machine
    relocated := s.relocated ++
      after.movedFrom.drop before.movedFrom.length }

/-- A mark that succeeds. -/
def mark (s : Shared) (o : Cap) : Shared :=
  { s with
    machine := { s.machine with
      shadow := (Revoke.stoplessMarkRevokeCap 0 s.machine.shadow o).2 }
    marked := s.marked ++ [o] }

end Shared

/-- The operation reads the flag first: what `doit` does before has no effect on
the protocol. -/
def Cycle.start (env : Env) (replies : Replies) (ofCollector : Bool)
    (m : Machine) : Cycle :=
  { env := env
    replies := replies
    ofCollector := ofCollector
    started := m.closePending
    limit := cycleLimit env m }

/-- The steps of `VM_StoplessCollect::doit`. -/
inductive VmStep (arena : Arena cheri) : Shared → Pc → Shared → Pc → Prop where
  | start {s : Shared} {env : Env} {replies : Replies} {table : State}
      (ofCollector : Bool) (roots : List Nat) :
      env.Concurrent → (ofCollector = true → s.request = .queued) →
      forwardTableMaybeGrow replies.callocGrow s.machine.table = .ok table →
      VmStep arena s .idle
        { s with
          safepoint := true
          machine := { s.machine with table := table } }
        (.scanning (.start env replies ofCollector s.machine) roots
          (.start { s.machine with table := table }))
  | visit {s : Shared} {cycle : Cycle} {p : Nat} {rest : List Nat}
      {scan scan' : Scan} :
      doOop arena cycle.env cycle.replies cycle.limit
        { scan with machine := s.machine } p = .ok scan' →
      VmStep arena s (.scanning cycle (p :: rest) scan)
        (s.visited scan scan') (.scanning cycle rest scan')
  | scanned {s : Shared} {cycle : Cycle} {scan : Scan} :
      VmStep arena s (.scanning cycle [] scan) s
        (.marking cycle scan.movedFrom scan.movedFrom)
  | mark {s : Shared} {cycle : Cycle} {moved : List Cap} {o : Cap}
      {rest : List Cap} :
      VmStep arena s (.marking cycle moved (o :: rest)) (s.mark o)
        (.marking cycle moved rest)
  | nothing {s : Shared} {cycle : Cycle} :
      VmStep arena s (.marking cycle [] []) (s.resume cycle) .idle
  | marked {s : Shared} {cycle : Cycle} {moved : List Cap} :
      moved ≠ [] →
      VmStep arena s (.marking cycle moved []) s (.opening cycle moved)
  | openEpoch {s : Shared} {cycle : Cycle} {moved : List Cap}
      (attempt : Revoke.Attempt) :
      Revoke.stoplessRevokeOpen attempt = 0 → s.closed = s.opened →
      VmStep arena s (.opening cycle moved)
        { s with opened := s.opened + 1, published := s.marked }
        (.opened cycle moved)
  | openAgain {s : Shared} {cycle : Cycle} {moved : List Cap}
      (attempt : Revoke.Attempt) :
      Revoke.stoplessRevokeOpen attempt = 0 → s.closed ≠ s.opened →
      VmStep arena s (.opening cycle moved) s (.opened cycle moved)
  | openFails {s : Shared} {cycle : Cycle} {moved : List Cap}
      (attempt : Revoke.Attempt) :
      Revoke.stoplessRevokeOpen attempt ≠ 0 →
      VmStep arena s (.opening cycle moved) s (.sweeping cycle moved)
  | setPending {s : Shared} {cycle : Cycle} {moved : List Cap} :
      VmStep arena s (.opened cycle moved)
        ((s.setPending true).resume cycle) .idle
  | sweep {s : Shared} {cycle : Cycle} {moved : List Cap}
      (kernel : Revoke.Kernel) :
      (revokeSweep kernel s.machine).1 = 0 →
      VmStep arena s (.sweeping cycle moved)
        (({ s with
            machine := (revokeSweep kernel s.machine).2
            swept := s.marked
            closed := s.opened } : Shared).resume cycle) .idle
  | fatal {s : Shared} {cycle : Cycle} {moved : List Cap}
      (kernel : Revoke.Kernel) :
      (revokeSweep kernel s.machine).1 ≠ 0 →
      VmStep arena s (.sweeping cycle moved) s .fatal

/-- The steps of `StoplessCollectorThread::run_service`.  A close that fails may
have closed the epoch nevertheless. -/
inductive CollectorStep : Shared → Pc → Shared → Pc → Prop where
  | wake {s : Shared} :
      CollectorStep s .sleeping { s with request := .queued } .waiting
  | terminate {s : Shared} : CollectorStep s .sleeping s .stopped
  | executed {s : Shared} :
      s.request = .done →
      CollectorStep s .waiting { s with request := .none } .checking
  | checkPending {s : Shared} :
      s.machine.closePending = true →
      CollectorStep s .checking s .calling
  | checkIdle {s : Shared} :
      s.machine.closePending = false → CollectorStep s .checking s .sleeping
  | enter {s : Shared} : CollectorStep s .calling s (.closing s.opened)
  | close {s : Shared} {target : Nat} (attempt : Revoke.Attempt) :
      Revoke.stoplessRevokeClose attempt = 0 →
      CollectorStep s (.closing target)
        { s with
          closed := max s.closed target
          reported := max s.reported target } .clearing
  | closeFails {s : Shared} {target : Nat} (attempt : Revoke.Attempt)
      (complete : Bool) :
      Revoke.stoplessRevokeClose attempt ≠ 0 →
      CollectorStep s (.closing target)
        { s with closed := if complete then max s.closed target else s.closed }
        .sleeping
  | clear {s : Shared} :
      CollectorStep s .clearing (s.setPending false) .sleeping

/-- Mutator instructions between operations, and tags that the kernel takes at
any time. -/
inductive OtherStep (arena : Arena cheri) :
    Shared → Pc → Shared → Pc → Prop where
  | instruction {s : Shared} {op : Op} {pc fuel : Nat} {m : Machine}
      {granted : Bool} :
      s.safepoint = false →
      exec arena none pc fuel s.machine op = some (m, granted) →
      OtherStep arena s .running { s with machine := m } .running
  | revoked {s : Shared} (words : Nat → Bool) (regs : Fin 30 → Bool) :
      OtherStep arena s .running
        { s with
          machine := { s.machine with
            mem := fun p =>
              if words p then sweepWord s.machine.shadow (s.machine.mem p)
              else s.machine.mem p
            regs := fun i =>
              if regs i then
                Revoke.sweepCap s.machine.shadow (s.machine.regs i)
              else s.machine.regs i } } .running

/-- The step of a party. -/
def PartyStep (arena : Arena cheri) :
    Party → Shared → Pc → Shared → Pc → Prop
  | .vmThread => VmStep arena
  | .collector => CollectorStep
  | .others => OtherStep arena

abbrev System := Interleaving.Config Party Shared Pc

/-- The VM has started; no epoch was ever opened. -/
def start : System :=
  { shared :=
      { machine := Machine.boot
        safepoint := false
        request := .none
        relocated := []
        marked := []
        published := []
        swept := []
        opened := 0
        closed := 0
        reported := 0 }
    locals := fun
      | .vmThread => .idle
      | .collector => .sleeping
      | .others => .running }

abbrev Reachable (arena : Arena cheri) : System → System → Prop :=
  Interleaving.Reachable (PartyStep arena)

/-- Steps of the VM thread alone. -/
abbrev VmSteps (arena : Arena cheri) : Shared × Pc → Shared × Pc → Prop :=
  Relation.ReflTransGen
    (fun before after => VmStep arena before.1 before.2 after.1 after.2)

variable {arena : Arena cheri}

theorem VmSteps.snoc {a : Shared × Pc} {s s' : Shared} {pc pc' : Pc}
    (steps : VmSteps arena a (s, pc)) (last : VmStep arena s pc s' pc') :
    VmSteps arena a (s', pc') :=
  steps.tail last

theorem VmSteps.cons {a : Shared × Pc} {s s' : Shared} {pc pc' : Pc}
    (first : VmStep arena s pc s' pc') (steps : VmSteps arena (s', pc') a) :
    VmSteps arena (s, pc) a :=
  .head first steps

theorem scan_steps (cycle : Cycle) {roots : List Nat} {scan scan' : Scan}
    (s : Shared) (here : s.machine = scan.machine)
    (ran : scanRoots arena cycle.env cycle.replies cycle.limit roots scan =
      .ok scan') :
    ∃ new, scan'.movedFrom = scan.movedFrom ++ new ∧
      VmSteps arena (s, .scanning cycle roots scan)
        ({ s with
            machine := scan'.machine
            relocated := s.relocated ++ new }, .scanning cycle [] scan') := by
  induction roots generalizing scan s with
  | nil =>
      cases ran
      refine ⟨[], by rw [List.append_nil], ?_⟩
      rw [List.append_nil, ← here]
  | cons p rest ih =>
      obtain ⟨scan₁, visited, later⟩ := scanRoots_cons ran
      have same : ({ scan with machine := s.machine } : Scan) = scan := by
        rw [here]
      obtain ⟨first, grown⟩ : ∃ first,
          scan₁.movedFrom = scan.movedFrom ++ first := by
        cases doOop_cases visited with
        | quiet _ same => exact ⟨[], by rw [same, List.append_nil]⟩
        | fixed _ _ _ _ same => exact ⟨[], by rw [same, List.append_nil]⟩
        | inserted _ _ _ _ _ more => exact ⟨_, more⟩
      have taken : VmStep arena s (.scanning cycle (p :: rest) scan)
          (s.visited scan scan₁) (.scanning cycle rest scan₁) := by
        apply VmStep.visit
        rw [same]
        exact visited
      obtain ⟨new, all, steps⟩ := ih (s.visited scan scan₁) rfl later
      refine ⟨first ++ new, by rw [all, grown, List.append_assoc], ?_⟩
      rw [Shared.visited, grown, List.drop_left, List.append_assoc] at steps
      rw [Shared.visited, grown, List.drop_left] at taken
      exact .head taken steps

theorem mark_steps (cycle : Cycle) (markRc : Nat → Int)
    (moved : List Cap) {rest : List Cap} (n : Nat) (s : Shared)
    (succeed : ∀ i, i < rest.length → markRc (n + i) = 0) :
    VmSteps arena (s, .marking cycle moved rest)
      ({ s with
          machine := { s.machine with
            shadow := markAll markRc n rest s.machine.shadow }
          marked := s.marked ++ rest }, .marking cycle moved []) := by
  induction rest generalizing n s with
  | nil =>
      rw [List.append_nil]
      exact .refl
  | cons o rest ih =>
      obtain ⟨zero, later⟩ := marks_succeed succeed
      have steps := ih (n + 1) (s.mark o) later
      rw [Shared.mark, List.append_assoc] at steps
      rw [markAll, zero]
      exact .head VmStep.mark steps

/-- The end of an operation: nothing to revoke, an open, or a sweep. -/
theorem revoke_steps (cycle : Cycle) {replies : Replies} {moved : List Cap}
    {m : Machine} (s : Shared)
    (succeed : ∀ n, n < moved.length → replies.markRc n = 0)
    (returned : revokeConcurrent replies moved s.machine = .ok m) :
    ∃ s', VmSteps arena (s, .marking cycle moved moved) (s', .idle) ∧
      s'.machine = m ∧ s'.safepoint = false ∧ s'.relocated = s.relocated := by
  have marks : VmSteps arena (s, .marking cycle moved moved) _ :=
    mark_steps cycle replies.markRc moved 0 s (by simpa using succeed)
  unfold revokeConcurrent at returned
  simp only at returned
  split at returned
  · rename_i none
    cases List.length_eq_zero_iff.mp none
    cases returned
    exact ⟨_, marks.snoc .nothing, rfl, rfl, rfl⟩
  · rename_i some
    have moves : moved ≠ [] := fun none => some (by rw [none]; rfl)
    have opening := marks.snoc (.marked moves)
    split at returned
    · rename_i opens
      cases returned
      by_cases closed : s.closed = s.opened
      · exact ⟨_, (opening.snoc (.openEpoch _ opens closed)).snoc .setPending,
          rfl, rfl, rfl⟩
      · exact ⟨_, (opening.snoc (.openAgain _ opens closed)).snoc .setPending,
          rfl, rfl, rfl⟩
    · rename_i fails
      split at returned
      · cases returned
      · rename_i reported
        cases returned
        have swept := not_not.mp reported
        exact ⟨_, (opening.snoc (.openFails _ fails)).snoc (.sweep _ swept),
          rfl, rfl, rfl⟩

/-- An operation without interruption is `doit`: the machine the mutators
resume on, and the objects moved. -/
theorem doit_steps {env : Env} {replies : Replies} {roots : List Nat}
    {s : Shared} {m : Machine} {moved : List Cap} (mode : env.Concurrent)
    (succeed : ∀ n, n < moved.length → replies.markRc n = 0)
    (returned : doit arena env replies roots s.machine = .ok (m, moved)) :
    ∃ s', VmSteps arena (s, .idle) (s', .idle) ∧ s'.machine = m ∧
      s'.safepoint = false ∧ s'.relocated = s.relocated ++ moved := by
  unfold doit at returned
  cases grown : forwardTableMaybeGrow replies.callocGrow s.machine.table with
  | error reason =>
      simp only [grown] at returned
      cases returned
  | ok table =>
      simp only [grown] at returned
      cases scanned : scanRoots arena env replies (cycleLimit env s.machine)
          roots (Scan.start { s.machine with table := table }) with
      | error reason =>
          rw [scanned] at returned
          cases returned
      | ok scan =>
          rw [scanned] at returned
          simp only [bind, Except.bind, mode.revokes, mode.concurrent,
            Bool.false_eq_true, if_false, if_true] at returned
          cases revoked : revokeConcurrent replies scan.movedFrom
              scan.machine with
          | error reason =>
              simp only [revoked] at returned
              cases returned
          | ok m' =>
              simp only [revoked] at returned
              cases returned
              have started : VmStep arena s .idle _ _ :=
                .start false roots mode (fun other => by cases other) grown
              obtain ⟨new, movedFrom, scans⟩ := scan_steps
                (.start env replies false s.machine)
                { s with
                  safepoint := true
                  machine := { s.machine with table := table } } rfl scanned
              cases (movedFrom : scan.movedFrom = new)
              obtain ⟨s', ends, machine, resumed, relocated⟩ := revoke_steps
                (.start env replies false s.machine)
                { s with
                  safepoint := true
                  machine := scan.machine
                  relocated := s.relocated ++ scan.movedFrom } succeed revoked
              exact ⟨s', VmSteps.cons started
                ((scans.snoc .scanned).trans ends), machine, resumed,
                relocated⟩

end EpochProtocol

end StoplessGC
