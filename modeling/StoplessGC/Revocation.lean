import StoplessGC.TagInvariant
import StoplessGC.ForwardingGraph

/-!
# Soundness of the synchronous revocation

`doit` without `STOPLESS_NO_REVOKE` and `STOPLESS_REVOKE_CONCURRENT` drops the
return codes of the marks and of the sweep, where the concurrent branch stops
the VM.  Its cycles are sound as long as no kernel call fails.
-/

namespace StoplessGC

open ForwardTable Allocator Forwarding Collector Mutator

variable {cheri : Intrinsics} {arena : Arena cheri}

/-- The default mode with a sweep after every cycle. -/
structure Env.Synchronous (env : Env) : Prop where
  revokes : env.noRevoke = false
  stops : env.revokeConcurrent = false
  batch : env.revokeBatch = 1

/-- Whether the cycle issues a sweep, and the sweep reports completion. -/
def sweepReported (replies : Replies) (m : Machine) (moved : List Cap) : Bool :=
  decide (0 < m.sMarkedPending + moved.length) &&
    decide (Revoke.stoplessRevokeNow replies.sweep = 0)

/-- Runs of mutator instructions and synchronous cycles that meet a condition,
with the marks that the last completed sweep has worked on. -/
inductive SyncRun (arena : Arena cheri)
    (condition : Replies → List Cap → Prop) :
    Machine → Revoke.Shadow → Prop where
  | boot : SyncRun arena condition Machine.boot (fun _ => false)
  | op {m m' : Machine} {swept : Revoke.Shadow} (op : Op) (pc fuel : Nat)
      {granted : Bool} :
      SyncRun arena condition m swept → op.Admissible cheri m →
      exec arena none pc fuel m op = some (m', granted) →
      SyncRun arena condition m' swept
  | cycle {m m' : Machine} {swept : Revoke.Shadow} {env : Env}
      {replies : Replies} {roots : List Nat} {moved : List Cap} :
      SyncRun arena condition m swept → env.Synchronous →
      (∀ p, p ∈ roots → RootSlot arena m p) →
      doit arena env replies roots m = .ok (m', moved) →
      condition replies moved →
      SyncRun arena condition m'
        (if sweepReported replies m moved then m'.shadow else swept)

/-- The ranges of all moved objects are marked, a sweep that was issued
afterwards has reported completion, and no tagged capability is left to any of
them. -/
structure RevocationSound (m : Machine) (swept : Revoke.Shadow) : Prop where
  covered : ∀ {k b l}, ftFind m.table k = some (b, l) →
    ∀ a, k ≤ a → a < k + l → m.shadow a = true ∧ swept a = true
  unreachable : m.Every (fun c => c.tag = true → ftFind m.table c.base = none)

/-- No kernel call that the cycle makes fails. -/
def KernelSucceeds (replies : Replies) (moved : List Cap) : Prop :=
  (∀ n, n < moved.length → replies.markRc n = 0) ∧
    (moved ≠ [] → Revoke.stoplessRevokeNow replies.sweep = 0)

theorem Visit.keys {env : Env} {granted : Bool} {lossy : Prop} {p : Nat}
    {ext ext' : Extents} {m m' : Machine} {news : List Cap}
    (visit : Visit arena env granted lossy p ext m ext' m' news) {k b l : Nat}
    (link : ftFind m'.table k = some (b, l)) :
    ftFind m.table k = some (b, l) ∨ ∃ o, o ∈ news ∧ o.base = k := by
  cases visit with
  | quiet => exact .inl link
  | fixed word based atStart present ends there =>
      rw [fix_table] at link
      exact .inl link
  | @moved o size start bump table moves absent room live added =>
      rw [fix_table, added] at link
      by_cases here : k = o.base
      · exact .inr ⟨o, List.mem_singleton_self o, here.symm⟩
      · rw [Function.update_of_ne here] at link
        exact .inl link
  | lost loses moves missing live same =>
      rw [fix_table, same] at link
      exact .inl link

theorem Visits.keys {env : Env} {granted : Bool} {lossy : Prop}
    {roots : List Nat} {ext ext' : Extents} {m m' : Machine} {all : List Cap}
    (visits : Visits arena env granted lossy roots ext m ext' m' all)
    {k b l : Nat} (link : ftFind m'.table k = some (b, l)) :
    ftFind m.table k = some (b, l) ∨ ∃ o, o ∈ all ∧ o.base = k := by
  induction visits with
  | nil => exact .inl link
  | cons visit _ ih =>
      rcases ih link with before | ⟨o, member, same⟩
      · rcases visit.keys before with first | ⟨o, member, same⟩
        · exact .inl first
        · exact .inr ⟨o, List.mem_append_left _ member, same⟩
      · exact .inr ⟨o, List.mem_append_right _ member, same⟩

theorem doit_synchronous (laws : cheri.Laws) {lossy : Prop} {env : Env}
    {replies : Replies} {roots : List Nat} {ext : Extents} {m m' : Machine}
    {moved : List Cap} (heap : Heap arena ext m) (mode : env.Synchronous)
    (slots : ∀ p, p ∈ roots → RootSlot arena m p)
    (room : AtInsertion arena env replies (cycleLimit env m) roots
      (Scan.start (grown replies m)) (fun table key =>
        lossy ∨ HasRoom replies.callocInsert table ∧ ftFind table key = none))
    (returned : doit arena env replies roots m = .ok (m', moved)) :
    ∃ table ext' s, Live table ∧ ftFind table = ftFind m.table ∧
      Visits arena env replies.callocInsert lossy roots ext
        { m with table := table } ext' s moved ∧
      Resumed s (markAll replies.markRc 0 moved s.shadow)
        (0 < s.sMarkedPending + moved.length ∧
          Revoke.stoplessRevokeNow replies.sweep = 0) m' := by
  obtain ⟨table, s, grew, live, same, scanned, rfl, branch⟩ :=
    doit_cases heap.live returned
  have start_eq : grown replies m = { m with table := table } := by
    simp only [grown, grew]
  rw [start_eq] at room
  obtain ⟨ext', all, visits, movedFrom⟩ := scanRoots_visits laws
    (heap.start live same) (fun p member => (slots p member).start table)
    room scanned
  have all_eq : s.movedFrom = all := movedFrom
  subst all_eq
  refine ⟨table, ext', s.machine, live, same, visits, ?_⟩
  rcases branch with ⟨skips, _⟩ | ⟨_, concurrent, _⟩ | ⟨_, _, rfl⟩
  · rw [mode.revokes] at skips
    cases skips
  · rw [mode.stops] at concurrent
    cases concurrent
  · have resumed :=
      revokeSynchronous_resumed env replies s.movedFrom s.machine
    rw [mode.batch] at resumed
    simpa [Nat.mod_one] using resumed

/-- The invariant behind it. -/
structure SyncInvariant (arena : Arena cheri) (ext : Extents) (m : Machine)
    (swept : Revoke.Shadow) : Prop where
  heap : Heap arena ext m
  revocable : Revocable arena ext m []
  covered : ∀ {k b l}, ftFind m.table k = some (b, l) →
    ∀ a, k ≤ a → a < k + l → swept a = true

theorem Revocable.marked_of_idle {ext : Extents} {m : Machine}
    (revocable : Revocable arena ext m []) {k b l : Nat}
    (link : ftFind m.table k = some (b, l)) (a : Nat) (lower : k ≤ a)
    (upper : a < k + l) : m.shadow a = true := by
  rcases revocable.marked link with marked | ⟨o, member, _⟩
  · exact marked a lower upper
  · cases member

theorem Revocable.synchronous {ext : Extents} {m m' : Machine}
    {replies : Replies} {moved : List Cap} (heap : Heap arena ext m)
    (pending : Revocable arena ext m moved)
    (succeeds : KernelSucceeds replies moved)
    (resumed : Resumed m (markAll replies.markRc 0 moved m.shadow)
      (0 < m.sMarkedPending + moved.length ∧
        Revoke.stoplessRevokeNow replies.sweep = 0) m') :
    Revocable arena ext m' [] := by
  obtain ⟨marks, sweeps⟩ := succeeds
  cases moved with
  | nil =>
      by_cases done : 0 < m.sMarkedPending + ([] : List Cap).length ∧
          Revoke.stoplessRevokeNow replies.sweep = 0
      · exact pending.swept heap marks done resumed
      · exact pending.idle done resumed
  | cons o rest =>
      refine pending.swept heap marks ⟨?_, sweeps (List.cons_ne_nil o rest)⟩
        resumed
      rw [List.length_cons]
      omega

namespace SyncInvariant

variable {ext : Extents} {m m' : Machine} {swept : Revoke.Shadow}

theorem cycle (laws : cheri.Laws) (inv : SyncInvariant arena ext m swept)
    {env : Env} {replies : Replies} {roots : List Nat} {moved : List Cap}
    (mode : env.Synchronous) (slots : ∀ p, p ∈ roots → RootSlot arena m p)
    (returned : doit arena env replies roots m = .ok (m', moved))
    (succeeds : KernelSucceeds replies moved) :
    ∃ ext', SyncInvariant arena ext' m'
      (if sweepReported replies m moved then m'.shadow else swept) := by
  obtain ⟨table, ext', s, live, same, visits, resumed⟩ :=
    doit_synchronous laws inv.heap mode slots (AtInsertion.trivial ..) returned
  have startHeap := inv.heap.start live same
  have startSlots : ∀ p, p ∈ roots →
      RootSlot arena (Scan.start { m with table := table }).machine p :=
    fun p member => (slots p member).start table
  obtain ⟨heap, pending⟩ := visits.invariant laws
    (fun ext m done => Revocable arena ext m done)
    (fun heap _ visit before => before.visit heap visit) startHeap startSlots
    [] (inv.revocable.retable same)
  rw [List.nil_append] at pending
  have revocable := pending.synchronous heap succeeds resumed
  refine ⟨ext', resumed.heap heap, revocable, ?_⟩
  intro k b l link a lower upper
  split
  · exact revocable.marked_of_idle link a lower upper
  · rename_i unreported
    cases moved with
    | nil =>
        rw [resumed.table] at link
        rcases visits.keys link with before | ⟨o, member, _⟩
        · rw [show ftFind _ k = _ from congrFun same k] at before
          exact inv.covered before a lower upper
        · cases member
    | cons o rest =>
        exfalso
        apply unreported
        have issued : 0 < m.sMarkedPending + (o :: rest).length := by
          rw [List.length_cons]
          omega
        rw [sweepReported, Bool.and_eq_true, decide_eq_true_eq,
          decide_eq_true_eq]
        exact ⟨issued, succeeds.2 (List.cons_ne_nil o rest)⟩

end SyncInvariant

theorem SyncRun.invariant (laws : cheri.Laws) {m : Machine}
    {swept : Revoke.Shadow} (run : SyncRun arena KernelSucceeds m swept) :
    ∃ ext, SyncInvariant arena ext m swept := by
  induction run with
  | boot =>
      refine ⟨_, heap_boot, ⟨⟨?_, ?_⟩, ?_, ?_⟩, ?_⟩
      · intro p c loaded tag
        cases loaded
        cases tag
      · intro i tag
        cases tag
      · intro k b l link
        cases link
      · simp
      · intro k b l link
        cases link
  | op op pc fuel _ admissible ran ih =>
      obtain ⟨ext, inv⟩ := ih
      obtain ⟨ext', effect, _⟩ := exec_effect laws inv.heap admissible ran
      refine ⟨ext', effect.heap laws inv.heap,
        inv.revocable.effect laws inv.heap effect, ?_⟩
      rw [effect.table_eq]
      exact inv.covered
  | cycle _ mode slots returned succeeds ih =>
      obtain ⟨ext, inv⟩ := ih
      exact inv.cycle laws mode slots returned succeeds

/-- In every run of synchronous cycles whose kernel calls succeed, revocation
is sound in every state. -/
theorem revocation_sound (laws : cheri.Laws) {m : Machine}
    {swept : Revoke.Shadow} (run : SyncRun arena KernelSucceeds m swept) :
    RevocationSound m swept := by
  obtain ⟨ext, inv⟩ := run.invariant laws
  constructor
  · intro k b l link a lower upper
    exact ⟨inv.revocable.marked_of_idle link a lower upper,
      inv.covered link a lower upper⟩
  · refine inv.revocable.tagged.imp ?_
    intro c current tag
    simpa using current tag

instance (env : Env) : Decidable env.Synchronous :=
  decidable_of_iff (env.noRevoke = false ∧ env.revokeConcurrent = false ∧
      env.revokeBatch = 1)
    ⟨fun mode => ⟨mode.1, mode.2.1, mode.2.2⟩,
      fun mode => ⟨mode.revokes, mode.stops, mode.batch⟩⟩

instance (replies : Replies) (moved : List Cap) :
    Decidable (KernelSucceeds replies moved) :=
  inferInstanceAs (Decidable (_ ∧ _))

theorem syncRun_perform {condition : Replies → List Cap → Prop}
    [∀ replies moved, Decidable (condition replies moved)] {acts : List Act}
    {objs : List Nat} {m : Machine}
    (ran : performWhen arena (fun _ env replies _ _ moved =>
      decide (env.Synchronous ∧ condition replies moved)) [] Machine.boot acts =
        some (objs, m)) : ∃ swept, SyncRun arena condition m swept := by
  refine performWhen_induction (P := fun _ m =>
    ∃ swept, SyncRun arena condition m swept) ?_ ?_ ⟨_, .boot⟩ ran
  · intro objs m m' op granted run admissible executed
    obtain ⟨swept, run⟩ := run
    exact ⟨swept, .op op 0 4 run admissible executed⟩
  · intro objs m env replies roots m' moved run slots returned accepted
    obtain ⟨swept, run⟩ := run
    obtain ⟨mode, met⟩ := of_decide_eq_true accepted
    exact ⟨_, .cycle run mode slots returned met⟩

/-- An object in `x0` and in a frame slot, and one cycle. -/
def cycled (replies : Replies) : List Act :=
  [.op (.alloc 0 none 1), .op (.spill 16 0), .cycle Env.unset replies [16]]

theorem revocation_sound_cycled :
    ∃ m swept, SyncRun Arena.small KernelSucceeds m swept ∧
      ftFind m.table (2 ^ 30) = some (2 ^ 30 + 16, 16) ∧
      RevocationSound m swept := by
  obtain ⟨⟨objs, m⟩, ran, checked⟩ := (Option.any_eq_true _ _).mp
    (by decide +kernel : (performWhen Arena.small (fun _ env replies _ _ moved =>
        decide (env.Synchronous ∧ KernelSucceeds replies moved)) []
        Machine.boot (cycled Replies.granted)).any (fun r =>
      decide (ftFind r.2.table (2 ^ 30) = some (2 ^ 30 + 16, 16))) = true)
  obtain ⟨swept, run⟩ := syncRun_perform ran
  exact ⟨m, swept, run, of_decide_eq_true checked,
    revocation_sound Intrinsics.exact_laws run⟩

/-- A kernel whose sweep fails at its first call. -/
def Replies.unswept : Replies :=
  { Replies.granted with
    sweep :=
      { Revoke.Kernel.willing with replies := fun _ => ⟨-1, ⟨0, 0⟩⟩ } }

/-- The sweep fails, the cycle returns, and `x0` still reaches the old copy. -/
theorem revocation_unsound :
    ∃ m swept, SyncRun Arena.small (fun _ _ => True) m swept ∧
      (m.regs 0).tag = true ∧ ftFind m.table (m.regs 0).base ≠ none ∧
      ¬ RevocationSound m swept := by
  obtain ⟨⟨objs, m⟩, ran, checked⟩ := (Option.any_eq_true _ _).mp
    (by decide +kernel : (performWhen Arena.small (fun _ env _ _ _ _ =>
        decide (env.Synchronous ∧ True)) [] Machine.boot
        (cycled Replies.unswept)).any (fun r =>
      decide ((r.2.regs 0).tag = true ∧
        ftFind r.2.table (r.2.regs 0).base ≠ none)) = true)
  obtain ⟨tagged, key⟩ := of_decide_eq_true checked
  have reached : ∃ swept, SyncRun Arena.small (fun _ _ => True) m swept :=
    syncRun_perform ran
  obtain ⟨swept, run⟩ := reached
  refine ⟨m, swept, run, tagged, key, ?_⟩
  intro sound
  exact key (sound.unreachable.regs 0 tagged)

end StoplessGC
