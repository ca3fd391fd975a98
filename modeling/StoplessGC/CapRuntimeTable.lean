import StoplessGC.Cheri
import StoplessGC.Foundation.Interleaving

/-!
# The forwarding table of the C++ runtime

`cap_runtime/forwarding_table.cc`: relocation workers `install`, load barriers
`lookup`, and `clear_region` empties the table while nobody else uses it.  The
atomic steps are the compare-and-swap on `from_addr`, the plain store of
`to_cap`, and the loads of both.  A worker claims the key before it stores the
destination, and a clear leaves destinations behind.
-/

namespace StoplessGC

namespace CapRuntime

open Interleaving

/-- `Slot`; key zero is empty. -/
structure Slot where
  fromAddr : Nat
  toCap : Cap

/-- `slots_count_` and `slots_`. -/
structure ForwardingTable where
  slotsCount : Nat
  slots : Nat → Slot

def hashAddr (a modulus : Nat) : Nat :=
  let a := a ^^^ (a >>> 33)
  let a := a * 0xff51afd7ed558ccd % addressSpace
  let a := a ^^^ (a >>> 33)
  a &&& (modulus - 1)

/-- The loop `while (pow2 < target) pow2 <<= 1`; 64 rounds are enough for a
64-bit target. -/
def nextPow2 (target : Nat) : Nat → Nat → Nat
  | 0, pow2 => pow2
  | fuel + 1, pow2 =>
      if pow2 < target then nextPow2 target fuel (pow2 * 2) else pow2

/-- The constructor. -/
def create (heapBytes : Nat) : ForwardingTable :=
  { slotsCount := nextPow2 (max 64 (heapBytes / 64)) 64 1
    slots := fun _ => { fromAddr := 0, toCap := Cap.null } }

/-- `clear_region` -/
def clearRegion (t : ForwardingTable) : ForwardingTable :=
  { t with slots := fun i => { t.slots i with fromAddr := 0 } }

/-- The slot of a probe. -/
def slotOf (t : ForwardingTable) (key probe : Nat) : Nat :=
  (hashAddr key t.slotsCount + probe) &&& (t.slotsCount - 1)

/-- One call of one thread. -/
inductive Call where
  | install (src dst : Cap)
  | lookup (src : Cap)

/-- Where a call stands.  `claim` and `recheck` are the two accesses of one
iteration of `install`, `probe` the load of one iteration of `lookup`. -/
inductive Pc where
  | start
  | claim (probe : Nat)
  | recheck (probe : Nat)
  | storeCap (slot : Nat)
  | probe (probe : Nat)
  | loadCap (slot : Nat)
  | installed
  | returned (c : Cap)

/-- The table with one field of one slot written. -/
def setFrom (t : ForwardingTable) (i key : Nat) : ForwardingTable :=
  { t with
    slots := Function.update t.slots i { t.slots i with fromAddr := key } }

def setCap (t : ForwardingTable) (i : Nat) (c : Cap) : ForwardingTable :=
  { t with slots := Function.update t.slots i { t.slots i with toCap := c } }

/-- The next iteration of a probe loop, or what follows the loop. -/
def advanceProbe (t : ForwardingTable) (probe : Nat) (again : Nat → Pc)
    (exhausted : Pc) : Pc :=
  if probe + 1 < t.slotsCount then again (probe + 1) else exhausted

/-- One atomic step of `install`. -/
def installStep (src dst : Cap) (t : ForwardingTable) :
    Pc → Option (ForwardingTable × Pc)
  | .start => some (t, if src.address = 0 then .installed else .claim 0)
  | .claim p =>
      let i := slotOf t src.address p
      if (t.slots i).fromAddr = 0 then
        some (setFrom t i src.address, .storeCap i)
      else some (t, .recheck p)
  | .recheck p =>
      if (t.slots (slotOf t src.address p)).fromAddr = src.address then
        some (t, .installed)
      else some (t, advanceProbe t p .claim .installed)
  | .storeCap i => some (setCap t i dst, .installed)
  | _ => none

/-- One atomic step of `lookup`, which writes nothing. -/
def lookupStep (src : Cap) (t : ForwardingTable) : Pc → Option Pc
  | .start => some (if src.address = 0 then .returned src else .probe 0)
  | .probe p =>
      let i := slotOf t src.address p
      if (t.slots i).fromAddr = 0 then some (.returned src)
      else if (t.slots i).fromAddr = src.address then some (.loadCap i)
      else some (advanceProbe t p .probe (.returned src))
  | .loadCap i => some (.returned (t.slots i).toCap)
  | _ => none

def callStep (call : Call) (t : ForwardingTable) (pc : Pc) :
    Option (ForwardingTable × Pc) :=
  match call with
  | .install src dst => installStep src dst t pc
  | .lookup src => (lookupStep src t pc).map (fun pc => (t, pc))

/-- The table and all calls made since the last clear, before any of them has
begun. -/
def cleared (t : ForwardingTable) : Config Nat ForwardingTable Pc :=
  { shared := clearRegion t, locals := fun _ => .start }

/-- A step of one of the calls. -/
abbrev RunStep (calls : Nat → Call) (i : Nat) (t : ForwardingTable) (pc : Pc)
    (t' : ForwardingTable) (pc' : Pc) : Prop :=
  callStep (calls i) t pc = some (t', pc')

/-- All interleavings of the calls. -/
abbrev Run (calls : Nat → Call) :
    Config Nat ForwardingTable Pc → Config Nat ForwardingTable Pc → Prop :=
  Reachable (RunStep calls)

/-- A step in which no lookup loads the destination of a slot that a worker has
claimed and not yet filled. -/
inductive CalmStep (calls : Nat → Call) :
    Config Nat ForwardingTable Pc → Config Nat ForwardingTable Pc → Prop where
  | run {c : Config Nat ForwardingTable Pc} (i : Nat) {t : ForwardingTable}
      {pc : Pc} :
      RunStep calls i c.shared (c.locals i) t pc →
      (∀ slot, c.locals i = .loadCap slot →
        ∀ j, c.locals j ≠ .storeCap slot) →
      CalmStep calls c (c.advance i t pc)

abbrev CalmRun (calls : Nat → Call) :
    Config Nat ForwardingTable Pc → Config Nat ForwardingTable Pc → Prop :=
  Relation.ReflTransGen (CalmStep calls)

/-- What a lookup of `src` may return: its argument, or the destination that a
worker has installed for it. -/
def Genuine (calls : Nat → Call) (locals : Nat → Pc) (src r : Cap) : Prop :=
  r = src ∨ ∃ j src', calls j = .install src' r ∧
    src'.address = src.address ∧ locals j = .installed

/-- What a call knows of the table at its program counter. -/
def Knows (calls : Nat → Call) (t : ForwardingTable) (locals : Nat → Pc) :
    Call → Pc → Prop
  | .install src _, .storeCap i =>
      src.address ≠ 0 ∧ (t.slots i).fromAddr = src.address
  | .install src _, .claim _ | .install src _, .recheck _ => src.address ≠ 0
  | .install _ _, .start | .install _ _, .installed => True
  | .lookup src, .loadCap i =>
      src.address ≠ 0 ∧ (t.slots i).fromAddr = src.address
  | .lookup src, .returned r => Genuine calls locals src r
  | .lookup _, .start | .lookup _, .probe _ => True
  | _, _ => False

/-- A claimed slot is about to be filled or holds the destination. -/
def Filled (calls : Nat → Call) (locals : Nat → Pc) (i : Nat) (slot : Slot) :
    Prop :=
  slot.fromAddr ≠ 0 → ∃ j src dst, calls j = .install src dst ∧
    src.address = slot.fromAddr ∧
    (locals j = .storeCap i ∨ locals j = .installed ∧ slot.toCap = dst)

structure Invariant (calls : Nat → Call)
    (c : Config Nat ForwardingTable Pc) : Prop where
  knows : ∀ j, Knows calls c.shared c.locals (calls j) (c.locals j)
  filled : ∀ i, Filled calls c.locals i (c.shared.slots i)

/-- The effects of one step. -/
inductive Effect (t : ForwardingTable) :
    Call → Pc → ForwardingTable → Pc → Prop where
  | passed {src dst : Cap} {pc pc' : Pc} :
      (∀ i, pc ≠ .storeCap i) → pc ≠ .installed →
      (pc' = .installed ∨
        src.address ≠ 0 ∧ ∃ p, pc' = .claim p ∨ pc' = .recheck p) →
      Effect t (.install src dst) pc t pc'
  | claimed {src dst : Cap} {p i : Nat} :
      (t.slots i).fromAddr = 0 → src.address ≠ 0 →
      Effect t (.install src dst) (.claim p) (setFrom t i src.address)
        (.storeCap i)
  | stored {src dst : Cap} {i : Nat} :
      Effect t (.install src dst) (.storeCap i) (setCap t i dst) .installed
  | looked {src : Cap} {pc pc' : Pc} :
      pc ≠ .installed → (pc' = .returned src ∨ ∃ p, pc' = .probe p) →
      Effect t (.lookup src) pc t pc'
  | hit {src : Cap} {p i : Nat} :
      src.address ≠ 0 → (t.slots i).fromAddr = src.address →
      Effect t (.lookup src) (.probe p) t (.loadCap i)
  | loaded {src : Cap} {i : Nat} :
      Effect t (.lookup src) (.loadCap i) t (.returned (t.slots i).toCap)

theorem advanceProbe_cases (t : ForwardingTable) (probe : Nat)
    (again : Nat → Pc) (exhausted : Pc) :
    advanceProbe t probe again exhausted = exhausted ∨
      probe + 1 < t.slotsCount ∧
        advanceProbe t probe again exhausted = again (probe + 1) := by
  unfold advanceProbe
  split
  · exact .inr ⟨by assumption, rfl⟩
  · exact .inl rfl

section Steps

variable {calls : Nat → Call} {c c' : Config Nat ForwardingTable Pc}
  {t t' : ForwardingTable} {pc pc' : Pc} {src dst : Cap}

theorem installStep_effect {locals : Nat → Pc}
    (knows : Knows calls t locals (.install src dst) pc)
    (ran : installStep src dst t pc = some (t', pc')) :
    Effect t (.install src dst) pc t' pc' := by
  cases pc with
  | start =>
      cases ran
      refine .passed (by simp) (by simp) ?_
      split
      · exact .inl rfl
      · exact .inr ⟨by assumption, 0, .inl rfl⟩
  | claim p =>
      simp only [installStep] at ran
      split at ran
      · cases ran
        exact .claimed (by assumption) knows
      · cases ran
        exact .passed (by simp) (by simp) (.inr ⟨knows, p, .inr rfl⟩)
  | recheck p =>
      simp only [installStep] at ran
      split at ran
      · cases ran
        exact .passed (by simp) (by simp) (.inl rfl)
      · cases ran
        refine .passed (by simp) (by simp) ?_
        rcases advanceProbe_cases t p .claim .installed with ended | ⟨_, next⟩
        · exact .inl ended
        · exact .inr ⟨knows, p + 1, .inl next⟩
  | storeCap i =>
      cases ran
      exact .stored
  | probe p => cases ran
  | loadCap i => cases ran
  | installed => cases ran
  | returned r => cases ran

theorem lookupStep_effect (ran : lookupStep src t pc = some pc') :
    Effect t (.lookup src) pc t pc' := by
  cases pc with
  | start =>
      cases ran
      refine .looked (by simp) ?_
      split
      · exact .inl rfl
      · exact .inr ⟨0, rfl⟩
  | probe p =>
      simp only [lookupStep] at ran
      split at ran
      · cases ran
        exact .looked (by simp) (.inl rfl)
      · rename_i occupied
        split at ran
        · rename_i same
          cases ran
          rw [same] at occupied
          exact .hit occupied same
        · cases ran
          refine .looked (by simp) ?_
          rcases advanceProbe_cases t p .probe (.returned src) with
            ended | ⟨_, next⟩
          · exact .inl ended
          · exact .inr ⟨p + 1, next⟩
  | loadCap i =>
      cases ran
      exact .loaded
  | claim p => cases ran
  | recheck p => cases ran
  | storeCap i => cases ran
  | installed => cases ran
  | returned r => cases ran

theorem callStep_effect {call : Call} {locals : Nat → Pc}
    (knows : Knows calls t locals call pc)
    (ran : callStep call t pc = some (t', pc')) : Effect t call pc t' pc' := by
  cases call with
  | install src dst => exact installStep_effect knows ran
  | lookup src =>
      obtain ⟨next, looked, same⟩ := Option.map_eq_some_iff.mp ran
      cases same
      exact lookupStep_effect looked

/-- Keys stay until the next clear, and finished workers stay finished. -/
structure Grows (t : ForwardingTable) (locals : Nat → Pc)
    (t' : ForwardingTable) (locals' : Nat → Pc) : Prop where
  key : ∀ i, (t.slots i).fromAddr ≠ 0 →
    (t'.slots i).fromAddr = (t.slots i).fromAddr
  installed : ∀ j, locals j = .installed → locals' j = .installed

theorem Genuine.mono {locals locals' : Nat → Pc} {r : Cap}
    (grows : Grows t locals t' locals')
    (genuine : Genuine calls locals src r) :
    Genuine calls locals' src r := by
  rcases genuine with own | ⟨j, src', call, same, done⟩
  · exact .inl own
  · exact .inr ⟨j, src', call, same, grows.installed j done⟩

theorem Knows.mono {locals locals' : Nat → Pc} {call : Call}
    (grows : Grows t locals t' locals')
    (knows : Knows calls t locals call pc) :
    Knows calls t' locals' call pc := by
  cases call with
  | install src dst =>
      cases pc with
      | storeCap i =>
          obtain ⟨nonzero, same⟩ := knows
          refine ⟨nonzero, ?_⟩
          rw [grows.key i (by rw [same]; exact nonzero), same]
      | start => exact knows
      | claim p => exact knows
      | recheck p => exact knows
      | probe p => exact knows
      | loadCap i => exact knows
      | installed => exact knows
      | returned r => exact knows
  | lookup src =>
      cases pc with
      | loadCap i =>
          obtain ⟨nonzero, same⟩ := knows
          refine ⟨nonzero, ?_⟩
          rw [grows.key i (by rw [same]; exact nonzero), same]
      | returned r => exact Genuine.mono grows knows
      | start => exact knows
      | claim p => exact knows
      | recheck p => exact knows
      | storeCap i => exact knows
      | probe p => exact knows
      | installed => exact knows

theorem setFrom_fromAddr {i k key : Nat} :
    ((setFrom t i key).slots k).fromAddr =
      if k = i then key else (t.slots k).fromAddr := by
  by_cases same : k = i
  · subst same
    simp [setFrom]
  · simp [setFrom, same]

theorem setCap_fromAddr {i k : Nat} {r : Cap} :
    ((setCap t i r).slots k).fromAddr = (t.slots k).fromAddr := by
  by_cases same : k = i
  · subst same
    simp [setCap]
  · simp [setCap, Function.update_of_ne same]

theorem Effect.grows {call : Call} {locals : Nat → Pc} {i : Nat}
    (effect : Effect t call (locals i) t' pc') :
    Grows t locals t' (Function.update locals i pc') := by
  have running : locals i ≠ .installed := by
    intro done
    rw [done] at effect
    cases effect <;> contradiction
  constructor
  · intro k occupied
    generalize locals i = pc at effect
    cases effect with
    | claimed free nonzero =>
        rw [setFrom_fromAddr, if_neg]
        intro same
        subst same
        exact occupied free
    | stored => exact setCap_fromAddr
    | passed => rfl
    | looked => rfl
    | hit => rfl
    | loaded => rfl
  · intro j done
    have other : j ≠ i := by
      intro same
      subst same
      exact running done
    rw [Function.update_of_ne other, done]

theorem Effect.knows {locals : Nat → Pc} {i : Nat}
    (inv : Invariant calls { shared := t, locals := locals })
    (calm : ∀ slot, locals i = .loadCap slot → ∀ j, locals j ≠ .storeCap slot)
    (effect : Effect t (calls i) (locals i) t' pc') :
    Knows calls t' (Function.update locals i pc') (calls i) pc' := by
  have grows := effect.grows
  have known : Knows calls t locals (calls i) (locals i) := inv.knows i
  generalize at_eq : locals i = pc at effect known
  generalize call_eq : calls i = call at effect known
  cases effect with
  | passed _ _ next =>
      rcases next with rfl | ⟨nonzero, p, rfl | rfl⟩
      · trivial
      · exact nonzero
      · exact nonzero
  | claimed free nonzero =>
      refine ⟨nonzero, ?_⟩
      rw [setFrom_fromAddr, if_pos rfl]
  | stored => trivial
  | looked _ next =>
      rcases next with rfl | ⟨p, rfl⟩
      · exact .inl rfl
      · trivial
  | hit nonzero same => exact ⟨nonzero, same⟩
  | @loaded src slot =>
      obtain ⟨nonzero, same⟩ := known
      obtain ⟨j, src', dst, call, key, storing | ⟨done, there⟩⟩ :=
        inv.filled slot (by rw [same]; exact nonzero)
      · exact absurd storing (calm slot at_eq j)
      · right
        refine ⟨j, src', ?_, key.trans same, grows.installed j done⟩
        rw [call, there]

theorem Filled.keep {locals : Nat → Pc} {i k : Nat} {slot : Slot}
    (filled : Filled calls locals k slot)
    (notMine : ∀ src dst, calls i = .install src dst →
      locals i ≠ .storeCap k ∧ locals i ≠ .installed) :
    Filled calls (Function.update locals i pc') k slot := by
  intro occupied
  obtain ⟨j, src, dst, call, key, place⟩ := filled occupied
  have other : j ≠ i := by
    intro same
    subst same
    obtain ⟨notStoring, notDone⟩ := notMine src dst call
    rcases place with storing | ⟨done, _⟩
    · exact notStoring storing
    · exact notDone done
  refine ⟨j, src, dst, call, key, ?_⟩
  rw [Function.update_of_ne other]
  exact place

theorem Effect.filled {locals : Nat → Pc} {i : Nat}
    (inv : Invariant calls { shared := t, locals := locals })
    (effect : Effect t (calls i) (locals i) t' pc') (k : Nat) :
    Filled calls (Function.update locals i pc') k (t'.slots k) := by
  have before : Filled calls locals k (t.slots k) := inv.filled k
  have known : Knows calls t locals (calls i) (locals i) := inv.knows i
  generalize at_eq : locals i = pc at effect known
  generalize call_eq : calls i = call at effect known
  cases effect with
  | passed notStoring running _ =>
      apply before.keep
      intro _ _ _
      rw [at_eq]
      exact ⟨notStoring k, running⟩
  | @claimed src dst p slot free nonzero =>
      by_cases here : k = slot
      · subst here
        intro _
        refine ⟨i, src, dst, call_eq, ?_, .inl (Function.update_self ..)⟩
        rw [setFrom_fromAddr, if_pos rfl]
      · rw [show (setFrom t slot src.address).slots k = t.slots k from
          Function.update_of_ne here ..]
        apply before.keep
        intro _ _ _
        rw [at_eq]
        simp
  | @stored src dst slot =>
      by_cases here : k = slot
      · subst here
        intro _
        refine ⟨i, src, dst, call_eq, ?_, .inr ⟨Function.update_self .., ?_⟩⟩
        · rw [setCap_fromAddr]
          exact known.2.symm
        · simp [setCap]
      · rw [show (setCap t slot dst).slots k = t.slots k from
          Function.update_of_ne here ..]
        apply before.keep
        intro _ _ _
        rw [at_eq]
        refine ⟨?_, by simp⟩
        intro same
        cases same
        exact here rfl
  | looked _ _ =>
      apply before.keep
      intro _ _ install
      rw [call_eq] at install
      cases install
  | hit _ _ =>
      apply before.keep
      intro _ _ install
      rw [call_eq] at install
      cases install
  | loaded =>
      apply before.keep
      intro _ _ install
      rw [call_eq] at install
      cases install

theorem CalmStep.invariant (before : Invariant calls c)
    (step : CalmStep calls c c') : Invariant calls c' := by
  cases step with
  | @run i t pc taken calm =>
      have effect := callStep_effect (before.knows i) taken
      constructor
      · intro j
        by_cases same : j = i
        · subst same
          rw [Config.advance_locals_self]
          exact effect.knows before calm
        · rw [Config.advance_locals_of_ne _ _ _ same]
          exact (before.knows j).mono effect.grows
      · exact effect.filled before

theorem CalmRun.invariant (before : Invariant calls c)
    (run : CalmRun calls c c') : Invariant calls c' := by
  induction run with
  | refl => exact before
  | tail _ last ih => exact last.invariant ih

end Steps

theorem invariant_cleared (calls : Nat → Call) (t : ForwardingTable) :
    Invariant calls (cleared t) := by
  constructor
  · intro j
    cases call : calls j <;> trivial
  · intro i occupied
    exact absurd rfl occupied

/-- The steps a lookup has still to take. -/
def Pc.remaining (t : ForwardingTable) : Pc → Nat
  | .start => t.slotsCount + 3
  | .probe p => t.slotsCount - p + 2
  | .loadCap _ => 1
  | _ => 0

/-- Lookups do not wait: every step of their own brings them closer to their
return, whatever the other threads do. -/
theorem lookupStep_remaining {calls : Nat → Call} {t : ForwardingTable}
    {locals : Nat → Pc} {src : Cap} {pc : Pc}
    (knows : Knows calls t locals (.lookup src) pc) :
    (∃ r, pc = .returned r) ∨
      ∃ pc', lookupStep src t pc = some pc' ∧
        pc'.remaining t < pc.remaining t := by
  cases pc with
  | start =>
      refine .inr ⟨_, rfl, ?_⟩
      split <;> simp only [Pc.remaining] <;> omega
  | probe p =>
      right
      simp only [lookupStep]
      split
      · exact ⟨_, rfl, by simp only [Pc.remaining]; omega⟩
      · split
        · exact ⟨_, rfl, by simp only [Pc.remaining]; omega⟩
        · refine ⟨_, rfl, ?_⟩
          rcases advanceProbe_cases t p .probe (.returned src) with
            ended | ⟨below, next⟩
          · rw [ended]
            simp only [Pc.remaining]
            omega
          · rw [next]
            simp only [Pc.remaining]
            omega
  | loadCap i => exact .inr ⟨_, rfl, by simp only [Pc.remaining]; omega⟩
  | returned r => exact .inl ⟨r, rfl⟩
  | claim p => exact knows.elim
  | recheck p => exact knows.elim
  | storeCap i => exact knows.elim
  | installed => exact knows.elim

/-- In every interleaving since the last clear in which no lookup loads a
destination between the claim of its slot and the store, every lookup gets on
without waiting, and what it returns is its argument or the destination that
some worker has installed for it. -/
theorem lookup_genuine {calls : Nat → Call} {t : ForwardingTable}
    {c : Config Nat ForwardingTable Pc} (run : CalmRun calls (cleared t) c)
    {i : Nat} {src : Cap} (lookup : calls i = .lookup src) :
    (∀ r, c.locals i = .returned r → Genuine calls c.locals src r) ∧
      ((∃ r, c.locals i = .returned r) ∨
        ∃ pc, lookupStep src c.shared (c.locals i) = some pc ∧
          pc.remaining c.shared < (c.locals i).remaining c.shared) := by
  have knows := (run.invariant (invariant_cleared calls t)).knows i
  rw [lookup] at knows
  refine ⟨fun r returned => ?_, lookupStep_remaining knows⟩
  rw [returned] at knows
  exact knows

section Window

/-- A worker that moves the object at 16 to `dst`, and a barrier that looks it
up. -/
def moveAndLook (dst : Cap) (i : Nat) : Call :=
  if i = 0 then .install (Cap.ofInt 16) dst else .lookup (Cap.ofInt 16)

variable (t : ForwardingTable) (dst : Cap)

/-- The worker has claimed its slot. -/
def claimedFirst : Config Nat ForwardingTable Pc :=
  ((cleared t).advance 0 (clearRegion t) (.claim 0)).advance 0
    (setFrom (clearRegion t) (slotOf t 16 0) 16) (.storeCap (slotOf t 16 0))

/-- The worker has also stored the destination. -/
def storedFirst : Config Nat ForwardingTable Pc :=
  (claimedFirst t).advance 0
    (setCap (setFrom (clearRegion t) (slotOf t 16 0) 16) (slotOf t 16 0) dst)
    .installed

/-- The barrier runs to its end on the table it finds. -/
def looks (c : Config Nat ForwardingTable Pc) (slot : Nat) :
    Config Nat ForwardingTable Pc :=
  ((c.advance 1 c.shared (.probe 0)).advance 1 c.shared
    (.loadCap slot)).advance 1 c.shared (.returned (c.shared.slots slot).toCap)

theorem run_claimedFirst : Run (moveAndLook dst) (cleared t) (claimedFirst t) := by
  refine (Relation.ReflTransGen.refl.tail (.run 0 ?_)).tail (.run 0 ?_)
  · rfl
  · rfl

theorem lookupStep_hit {t : ForwardingTable} {src : Cap} {p : Nat}
    (nonzero : src.address ≠ 0)
    (key : (t.slots (slotOf t src.address p)).fromAddr = src.address) :
    lookupStep src t (.probe p) =
      some (.loadCap (slotOf t src.address p)) := by
  simp [lookupStep, key, nonzero]

theorem claimedFirst_key :
    ((claimedFirst t).shared.slots (slotOf t 16 0)).fromAddr = 16 := by
  change ((setFrom (clearRegion t) (slotOf t 16 0) 16).slots _).fromAddr = 16
  rw [setFrom_fromAddr, if_pos rfl]

theorem storedFirst_key :
    ((storedFirst t dst).shared.slots (slotOf t 16 0)).fromAddr = 16 := by
  change ((setCap (claimedFirst t).shared (slotOf t 16 0) dst).slots _).fromAddr =
    16
  rw [setCap_fromAddr]
  exact claimedFirst_key t

theorem run_looks_claimed :
    Run (moveAndLook dst) (cleared t)
      (looks (claimedFirst t) (slotOf t 16 0)) := by
  have hit : lookupStep (Cap.ofInt 16) (claimedFirst t).shared (.probe 0) =
      some (.loadCap (slotOf t 16 0)) :=
    lookupStep_hit (by decide) (claimedFirst_key t)
  refine (((run_claimedFirst t dst).tail (.run 1 ?_)).tail (.run 1 ?_)).tail
    (.run 1 ?_)
  · rfl
  · exact congrArg (Option.map fun pc => ((claimedFirst t).shared, pc)) hit
  · rfl

theorem calmRun_storedFirst :
    CalmRun (moveAndLook dst) (cleared t) (storedFirst t dst) := by
  have begun : CalmStep (moveAndLook dst) (cleared t)
      ((cleared t).advance 0 (clearRegion t) (.claim 0)) := by
    refine .run 0 rfl ?_
    intro slot loading
    cases loading
  have claims : CalmStep (moveAndLook dst)
      ((cleared t).advance 0 (clearRegion t) (.claim 0)) (claimedFirst t) := by
    refine .run 0 rfl ?_
    intro slot loading
    cases loading
  have stores : CalmStep (moveAndLook dst) (claimedFirst t)
      (storedFirst t dst) := by
    refine .run 0 rfl ?_
    intro slot loading
    cases loading
  exact ((Relation.ReflTransGen.single begun).tail claims).tail stores

theorem calmRun_looks_stored :
    CalmRun (moveAndLook dst) (cleared t)
      (looks (storedFirst t dst) (slotOf t 16 0)) := by
  have hit : lookupStep (Cap.ofInt 16) (storedFirst t dst).shared (.probe 0) =
      some (.loadCap (slotOf t 16 0)) :=
    lookupStep_hit (by decide) (storedFirst_key t dst)
  have others : ∀ {pc : Pc} {j slot : Nat}, pc ≠ .storeCap slot →
      ((storedFirst t dst).advance 1 (storedFirst t dst).shared pc).locals j ≠
        .storeCap slot := by
    intro pc j slot idle
    by_cases same : j = 1
    · rw [same, Config.advance_locals_self]
      exact idle
    · rw [Config.advance_locals_of_ne _ _ _ same]
      by_cases worker : j = 0
      · rw [worker, storedFirst, Config.advance_locals_self]
        simp
      · simp only [storedFirst, claimedFirst]
        rw [Config.advance_locals_of_ne _ _ _ worker,
          Config.advance_locals_of_ne _ _ _ worker,
          Config.advance_locals_of_ne _ _ _ worker]
        simp [cleared]
  have starts : CalmStep (moveAndLook dst) (storedFirst t dst)
      ((storedFirst t dst).advance 1 (storedFirst t dst).shared (.probe 0)) := by
    refine .run 1 rfl ?_
    intro slot loading
    cases loading
  have finds : CalmStep (moveAndLook dst)
      ((storedFirst t dst).advance 1 (storedFirst t dst).shared (.probe 0))
      (((storedFirst t dst).advance 1 (storedFirst t dst).shared
        (.probe 0)).advance 1 (storedFirst t dst).shared
        (.loadCap (slotOf t 16 0))) := by
    refine .run 1 ?_ ?_
    · exact congrArg (Option.map fun pc => ((storedFirst t dst).shared, pc)) hit
    · intro slot loading
      cases loading
  have loads : CalmStep (moveAndLook dst)
      (((storedFirst t dst).advance 1 (storedFirst t dst).shared
        (.probe 0)).advance 1 (storedFirst t dst).shared
        (.loadCap (slotOf t 16 0)))
      (looks (storedFirst t dst) (slotOf t 16 0)) := by
    refine .run 1 rfl ?_
    intro slot _ j
    rw [Config.advance_advance]
    exact others (by simp)
  exact (((calmRun_storedFirst t dst).tail starts).tail finds).tail loads

theorem looks_claimed_returns :
    (looks (claimedFirst t) (slotOf t 16 0)).locals 1 =
      .returned (t.slots (slotOf t 16 0)).toCap := by
  rw [looks, Config.advance_locals_self]
  simp [claimedFirst, setFrom, clearRegion]

variable {dst}

theorem not_genuine {locals : Nat → Pc} {r : Cap} (other : r ≠ Cap.ofInt 16)
    (stale : r ≠ dst) :
    ¬ Genuine (moveAndLook dst) locals (Cap.ofInt 16) r := by
  rintro (own | ⟨j, src, install, _, _⟩)
  · exact other own
  · unfold moveAndLook at install
    split at install
    · cases install
      exact stale rfl
    · cases install

end Window

theorem CalmRun.run {calls : Nat → Call} {c c' : Config Nat ForwardingTable Pc}
    (calm : CalmRun calls c c') : Run calls c c' := by
  induction calm with
  | refl => exact .refl
  | tail _ last ih =>
      cases last with
      | run i taken _ => exact ih.tail (.run i taken)

/-- What the barrier returns when it is early: the null capability of the
constructor, or what the time before the clear has left. -/
theorem lookup_not_genuine :
    (∃ c, Run (moveAndLook (Cap.ofInt 64)) (cleared (create 4096)) c ∧
      c.locals 1 = .returned Cap.null ∧
      ¬ Genuine (moveAndLook (Cap.ofInt 64)) c.locals (Cap.ofInt 16)
        Cap.null) ∧
    ∃ before c, Run (moveAndLook (Cap.ofInt 80)) (cleared (create 4096)) before ∧
      Run (moveAndLook (Cap.ofInt 64)) (cleared before.shared) c ∧
      c.locals 1 = .returned (Cap.ofInt 80) ∧
      ¬ Genuine (moveAndLook (Cap.ofInt 64)) c.locals (Cap.ofInt 16)
        (Cap.ofInt 80) := by
  constructor
  · exact ⟨_, run_looks_claimed _ _, looks_claimed_returns _,
      not_genuine (by decide) (by decide)⟩
  · refine ⟨storedFirst (create 4096) (Cap.ofInt 80), _,
      (calmRun_storedFirst _ _).run, run_looks_claimed _ _, ?_,
      not_genuine (by decide) (by decide)⟩
    rw [looks_claimed_returns]
    have left : ((storedFirst (create 4096) (Cap.ofInt 80)).shared.slots
        (slotOf (create 4096) 16 0)).toCap = Cap.ofInt 80 := by
      simp [storedFirst, setCap]
    exact congrArg Pc.returned left

/-- A barrier that comes after the store gets the destination. -/
theorem lookup_genuine_stored :
    ∃ c, CalmRun (moveAndLook (Cap.ofInt 64)) (cleared (create 4096)) c ∧
      c.locals 1 = .returned (Cap.ofInt 64) ∧
      Genuine (moveAndLook (Cap.ofInt 64)) c.locals (Cap.ofInt 16)
        (Cap.ofInt 64) := by
  have run := calmRun_looks_stored (create 4096) (Cap.ofInt 64)
  have returned : (looks (storedFirst (create 4096) (Cap.ofInt 64))
      (slotOf (create 4096) 16 0)).locals 1 = .returned (Cap.ofInt 64) := by
    rw [looks, Config.advance_locals_self]
    simp [storedFirst, setCap]
  exact ⟨_, run, returned, (lookup_genuine run rfl).1 _ returned⟩

end CapRuntime

end StoplessGC
