import StoplessGC.Execution
import StoplessGC.ForwardTableLookup

/-!
# The signal handler

`sigprot_handler` with everything it can write: the PC and the registers of the
interrupted thread, and the slot that a test leaves in
`stopless_v1_pending_slot`.  `Handler.stoplessTryHeal` is what
`stopless_try_heal` does to the register file.
-/

namespace StoplessGC

namespace Handler

open ForwardTable Allocator Forwarding

variable {cheri : Intrinsics} (arena : Arena cheri)

/-- What the handler may change: `cap_elr`, `cap_x[0..29]`, memory, and the
pending slot. -/
structure Context where
  elr : Cap
  regs : Fin 30 → Cap
  mem : Nat → Word
  pendingSlot : Option Nat

/-- The addresses of the `SafeFetch` labels; a weak symbol that is not there
has address zero. -/
structure SafeFetch where
  fault32 : Nat
  continuation32 : Nat
  faultN : Nat
  continuationN : Nat

/-- The base register field of a load or store. -/
def baseRegister (insn : Nat) : Nat := (insn >>> 5) &&& 0x1f

/-- `siginfo_t`, and the instruction word that the PC points to. -/
structure Signal where
  siCode : Nat
  siAddr : Nat
  insn : Nat

def Signal.fault (signal : Signal) : Fault :=
  { siCode := signal.siCode
    siAddr := signal.siAddr
    rn := baseRegister signal.insn }

/-- `PROT_CHERI_TAG` or `PROT_CHERI_PERM`. -/
def Fault.revocation (fault : Fault) : Prop :=
  fault.siCode = 2 ∨ fault.siCode = 5

instance (fault : Fault) : Decidable fault.revocation :=
  inferInstanceAs (Decidable (_ ∨ _))

def stoplessSafefetchRedirect (cheri : Intrinsics) (labels : SafeFetch)
    (ctx : Context) : Option Context :=
  if labels.fault32 ≠ 0 ∧ ctx.elr.address = labels.fault32 then
    some { ctx with elr := cheri.addressSet ctx.elr labels.continuation32 }
  else if labels.faultN ≠ 0 ∧ ctx.elr.address = labels.faultN then
    some { ctx with elr := cheri.addressSet ctx.elr labels.continuationN }
  else none

/-- The search of `stopless_try_heal`: `new_cap` and `faulting_reg`.  A hit on
`si_addr` leaves `faulting_reg` at -1. -/
def searchForwarded (evacuate : Option (Nat → Option Cap)) (table : State)
    (fault : Fault) (regs : Fin 30 → Cap) : Option (Cap × Option (Fin 30)) :=
  match tryReg arena evacuate table regs fault.rn with
  | some (fwd, i) => some (fwd, some i)
  | none =>
      match scanRegs arena evacuate table regs 30 0 with
      | some (fwd, i) => some (fwd, some i)
      | none =>
          match forwardTableLookup cheri (some arena.base) table
              fault.siAddr with
          | some fwd => some (fwd, none)
          | none => none

/-- `cregs->cap_x[faulting_reg] = new_cap`, unless there is no register. -/
def Context.install (ctx : Context) (newCap : Cap) :
    Option (Fin 30) → Context
  | some i => { ctx with regs := Function.update ctx.regs i newCap }
  | none => ctx

/-- The write to `stopless_v1_pending_slot`. -/
def Context.selfHeal (ctx : Context) (newCap : Cap) : Context :=
  match ctx.pendingSlot with
  | none => ctx
  | some slot =>
      { ctx with
        mem := Function.update ctx.mem slot (.value newCap)
        pendingSlot := none }

/-- `stopless_try_heal` on the whole context, with the register it has
written. -/
def healContext (evacuate : Option (Nat → Option Cap)) (table : State)
    (fault : Fault) (ctx : Context) : Option (Context × Option (Fin 30)) :=
  if fault.siCode ≠ 2 ∧ fault.siCode ≠ 5 then none
  else
    match searchForwarded arena evacuate table fault ctx.regs with
    | none => none
    | some (newCap, reg) =>
        some ((ctx.install newCap reg).selfHeal newCap, reg)

/-- `prev_sa`: a null handler, the value 1, or a function. -/
inductive Disposition where
  | sigDfl
  | sigIgn
  | function (act : Signal → Context → Context)

/-- A handler that has returned: the context it returns to, the register it
has written, whether it has called the previous handler, and whether the signal
has been raised again with the default action. -/
structure Return where
  ctx : Context
  patched : Option (Fin 30)
  chained : Bool
  reraised : Bool

def Return.plain (ctx : Context) : Return :=
  { ctx := ctx, patched := none, chained := false, reraised := false }

/-- `sigprot_handler`.  `none` is a handler that does not return: a call
through `SIG_IGN` jumps to address 1. -/
def sigprotHandler (labels : SafeFetch)
    (evacuate : Option (Nat → Option Cap)) (prev : Disposition)
    (table : State) (signal : Signal) (ctx : Context) : Option Return :=
  match stoplessSafefetchRedirect cheri labels ctx with
  | some redirected => some (Return.plain redirected)
  | none =>
      if signal.siCode ≠ 2 ∧ signal.siCode ≠ 5 then
        match prev with
        | .sigDfl => some (Return.plain ctx)
        | .sigIgn => none
        | .function act =>
            some { Return.plain (act signal ctx) with chained := true }
      else
        match healContext arena evacuate table signal.fault ctx with
        | some (healed, reg) =>
            some { Return.plain healed with patched := reg }
        | none => some { Return.plain ctx with reraised := true }

section Search

variable {arena} {evacuate : Option (Nat → Option Cap)} {table : State}
  {regs : Fin 30 → Cap}

/-- The register that the search meets first: the decoded base register if it
can be healed, else the one with the lowest number that can. -/
structure First (arena : Arena cheri) (evacuate : Option (Nat → Option Cap))
    (table : State) (regs : Fin 30 → Cap) (rn : Nat) (i : Fin 30) : Prop where
  candidate : tryCap arena evacuate table (regs i) ≠ none
  order : i.val = rn ∨
    (∀ j : Fin 30, j.val = rn → tryCap arena evacuate table (regs j) = none) ∧
      ∀ j, j < i → tryCap arena evacuate table (regs j) = none

theorem First.unique {rn : Nat} {i j : Fin 30}
    (first : First arena evacuate table regs rn i)
    (second : First arena evacuate table regs rn j) : i = j := by
  rcases first.order with here | ⟨notHere, lowest⟩
  · rcases second.order with here' | ⟨notHere', _⟩
    · exact Fin.ext (here.trans here'.symm)
    · exact absurd (notHere' i here) first.candidate
  · rcases second.order with here' | ⟨_, lowest'⟩
    · exact absurd (notHere j here') second.candidate
    · rcases Nat.lt_trichotomy i.val j.val with below | same | above
      · exact absurd (lowest' i below) first.candidate
      · exact Fin.ext same
      · exact absurd (lowest j above) second.candidate

theorem tryReg_eq_none {i : Nat}
    (missed : tryReg arena evacuate table regs i = none) (j : Fin 30)
    (same : j.val = i) : tryCap arena evacuate table (regs j) = none := by
  subst same
  unfold tryReg at missed
  rw [dif_pos j.isLt] at missed
  cases tried : tryCap arena evacuate table (regs j) with
  | none => rfl
  | some fwd =>
      simp only [Fin.eta, tried] at missed
      cases missed

theorem tryReg_eq_some {i : Nat} {fwd : Cap} {j : Fin 30}
    (found : tryReg arena evacuate table regs i = some (fwd, j)) :
    j.val = i ∧ tryCap arena evacuate table (regs j) = some fwd := by
  unfold tryReg at found
  split at found
  · split at found
    · cases found
    · cases found
      exact ⟨rfl, by assumption⟩
  · cases found

theorem scanRegs_eq_some {fuel i : Nat} {fwd : Cap} {j : Fin 30}
    (found : scanRegs arena evacuate table regs fuel i = some (fwd, j)) :
    tryCap arena evacuate table (regs j) = some fwd ∧
      ∀ k : Fin 30, i ≤ k.val → k < j →
        tryCap arena evacuate table (regs k) = none := by
  induction fuel generalizing i with
  | zero => cases found
  | succ fuel ih =>
      unfold scanRegs at found
      cases here : tryReg arena evacuate table regs i with
      | some result =>
          simp only [here] at found
          cases found
          obtain ⟨same, tried⟩ := tryReg_eq_some here
          refine ⟨tried, fun k lower upper => ?_⟩
          have upper' : k.val < j.val := upper
          omega
      | none =>
          simp only [here] at found
          obtain ⟨tried, passed⟩ := ih found
          refine ⟨tried, fun k lower upper => ?_⟩
          by_cases same : k.val = i
          · exact tryReg_eq_none here k same
          · exact passed k (by omega) upper

theorem scanRegs_eq_none {fuel i : Nat}
    (missed : scanRegs arena evacuate table regs fuel i = none) (k : Fin 30)
    (lower : i ≤ k.val) (upper : k.val < i + fuel) :
    tryCap arena evacuate table (regs k) = none := by
  induction fuel generalizing i with
  | zero => omega
  | succ fuel ih =>
      unfold scanRegs at missed
      cases here : tryReg arena evacuate table regs i with
      | some result =>
          simp only [here] at missed
          cases missed
      | none =>
          simp only [here] at missed
          by_cases same : k.val = i
          · exact tryReg_eq_none here k same
          · exact ih missed (by omega) (by omega)

/-- The search ends at the first register that can be healed, and asks for
`si_addr` only if there is none. -/
theorem searchForwarded_cases (arena : Arena cheri)
    (evacuate : Option (Nat → Option Cap)) (table : State)
    (regs : Fin 30 → Cap) (fault : Fault) :
    (∃ i fwd, First arena evacuate table regs fault.rn i ∧
      tryCap arena evacuate table (regs i) = some fwd ∧
      searchForwarded arena evacuate table fault regs = some (fwd, some i)) ∨
    (∀ i, tryCap arena evacuate table (regs i) = none) ∧
      searchForwarded arena evacuate table fault regs =
        (forwardTableLookup cheri (some arena.base) table fault.siAddr).map
          (fun fwd => (fwd, none)) := by
  unfold searchForwarded
  cases decoded : tryReg arena evacuate table regs fault.rn with
  | some result =>
      obtain ⟨fwd, i⟩ := result
      obtain ⟨same, tried⟩ := tryReg_eq_some decoded
      left
      refine ⟨i, fwd, ⟨?_, .inl same⟩, tried, rfl⟩
      rw [tried]
      simp
  | none =>
      cases scanned : scanRegs arena evacuate table regs 30 0 with
      | some result =>
          obtain ⟨fwd, i⟩ := result
          obtain ⟨tried, passed⟩ := scanRegs_eq_some scanned
          left
          refine ⟨i, fwd, ⟨?_, .inr ⟨tryReg_eq_none decoded, ?_⟩⟩, tried, rfl⟩
          · rw [tried]
            simp
          · exact fun j below => passed j (Nat.zero_le _) below
      | none =>
          right
          constructor
          · intro i
            exact scanRegs_eq_none scanned i (Nat.zero_le _) (by omega)
          · cases forwardTableLookup cheri (some arena.base) table
              fault.siAddr <;> rfl

theorem searchForwarded_register {fault : Fault} {i : Fin 30} {fwd : Cap}
    (found : searchForwarded arena evacuate table fault regs =
      some (fwd, some i)) :
    First arena evacuate table regs fault.rn i ∧
      tryCap arena evacuate table (regs i) = some fwd := by
  rcases searchForwarded_cases arena evacuate table regs fault with
    ⟨j, other, first, tried, same⟩ | ⟨_, same⟩
  · rw [found] at same
    cases same
    exact ⟨first, tried⟩
  · rw [found] at same
    cases looked : forwardTableLookup cheri (some arena.base) table
        fault.siAddr with
    | none =>
        rw [looked] at same
        cases same
    | some fwd =>
        rw [looked] at same
        cases same

theorem searchForwarded_of_first {fault : Fault} {i : Fin 30}
    (first : First arena evacuate table regs fault.rn i) :
    ∃ fwd, searchForwarded arena evacuate table fault regs =
        some (fwd, some i) ∧
      tryCap arena evacuate table (regs i) = some fwd := by
  rcases searchForwarded_cases arena evacuate table regs fault with
    ⟨j, fwd, first', tried, found⟩ | ⟨nowhere, _⟩
  · have same := first.unique first'
    subst same
    exact ⟨fwd, found, tried⟩
  · exact absurd (nowhere i) first.candidate

end Search

theorem Context.selfHeal_regs (ctx : Context) (newCap : Cap) :
    (ctx.selfHeal newCap).regs = ctx.regs := by
  unfold Context.selfHeal
  split <;> rfl

theorem Context.selfHeal_elr (ctx : Context) (newCap : Cap) :
    (ctx.selfHeal newCap).elr = ctx.elr := by
  unfold Context.selfHeal
  split <;> rfl

theorem Context.selfHeal_mem {ctx : Context} {newCap : Cap}
    {reg : Option (Fin 30)} (idle : ctx.pendingSlot = none) :
    ((ctx.install newCap reg).selfHeal newCap).mem = ctx.mem := by
  cases reg <;> simp only [Context.install, Context.selfHeal, idle]

theorem stoplessTryHeal_eq (evacuate : Option (Nat → Option Cap))
    (table : State) (fault : Fault) (ctx : Context) :
    stoplessTryHeal arena evacuate table fault ctx.regs =
      if fault.siCode ≠ 2 ∧ fault.siCode ≠ 5 then none
      else (searchForwarded arena evacuate table fault ctx.regs).map
        (fun found => (ctx.install found.1 found.2).regs) := by
  unfold stoplessTryHeal searchForwarded
  split
  · rfl
  cases tryReg arena evacuate table ctx.regs fault.rn with
  | some result => rfl
  | none =>
      cases scanRegs arena evacuate table ctx.regs 30 0 with
      | some result => rfl
      | none =>
          cases forwardTableLookup cheri (some arena.base) table
              fault.siAddr <;> rfl

section Progress

variable (labels : SafeFetch) (evacuate : Option (Nat → Option Cap))
  (prev : Disposition) (table : State) (signal : Signal) (ctx : Context)

/-- The PC is at one of the two probe loads. -/
def AtProbe (labels : SafeFetch) (ctx : Context) : Prop :=
  labels.fault32 ≠ 0 ∧ ctx.elr.address = labels.fault32 ∨
    labels.faultN ≠ 0 ∧ ctx.elr.address = labels.faultN

/-- What makes a return more than a retry of the same fault: a redirected PC,
a patched register, a call of the previous handler, or a raised signal. -/
inductive Progress (result : Return) : Prop where
  | redirected {continuation : Nat} :
      continuation = labels.continuation32 ∨
        continuation = labels.continuationN →
      result.ctx.elr = cheri.addressSet ctx.elr continuation →
      AtProbe labels ctx → Progress result
  | patched {i : Fin 30} {fwd : Cap} :
      result.patched = some i →
      tryCap arena evacuate table (ctx.regs i) = some fwd →
      result.ctx.regs = Function.update ctx.regs i fwd → Progress result
  | chained : result.chained = true → Progress result
  | reraised : result.reraised = true → Progress result

/-- The signals after which the handler returns and has done nothing: another
fault without a previous handler, and a revocation fault for which only
`si_addr` is in the table. -/
structure Stalls : Prop where
  noProbe : ¬ AtProbe labels ctx
  unhandled : ¬ signal.fault.revocation ∧ prev = .sigDfl ∨
    signal.fault.revocation ∧
      (∀ i, tryCap arena evacuate table (ctx.regs i) = none) ∧
      forwardTableLookup cheri (some arena.base) table signal.siAddr ≠ none

variable {labels evacuate prev table signal ctx}

theorem stoplessSafefetchRedirect_eq_some {redirected : Context}
    (found : stoplessSafefetchRedirect cheri labels ctx = some redirected) :
    AtProbe labels ctx ∧ ∃ continuation,
      (continuation = labels.continuation32 ∨
        continuation = labels.continuationN) ∧
      redirected.elr = cheri.addressSet ctx.elr continuation := by
  unfold stoplessSafefetchRedirect at found
  split at found
  · rename_i probe
    cases found
    exact ⟨.inl probe, _, .inl rfl, rfl⟩
  · split at found
    · rename_i probe
      cases found
      exact ⟨.inr probe, _, .inr rfl, rfl⟩
    · cases found

theorem stoplessSafefetchRedirect_eq_none :
    stoplessSafefetchRedirect cheri labels ctx = none ↔
      ¬ AtProbe labels ctx := by
  unfold stoplessSafefetchRedirect AtProbe
  split
  · rename_i probe
    simp [probe]
  · split
    · rename_i probe
      simp [probe]
    · rename_i notFirst notSecond
      simp only [true_iff, not_or]
      exact ⟨notFirst, notSecond⟩

/-- A heal patches one register, or none after a hit on `si_addr`. -/
theorem healContext_cases {fault : Fault} (revocation : fault.revocation) :
    (∃ i fwd, tryCap arena evacuate table (ctx.regs i) = some fwd ∧
      healContext arena evacuate table fault ctx =
        some ((ctx.install fwd (some i)).selfHeal fwd, some i)) ∨
    (∀ i, tryCap arena evacuate table (ctx.regs i) = none) ∧
      healContext arena evacuate table fault ctx =
        (forwardTableLookup cheri (some arena.base) table fault.siAddr).map
          (fun fwd => (ctx.selfHeal fwd, none)) := by
  have accepted : ¬ (fault.siCode ≠ 2 ∧ fault.siCode ≠ 5) := by
    rintro ⟨notTag, notPerm⟩
    exact revocation.elim notTag notPerm
  unfold healContext
  rw [if_neg accepted]
  rcases searchForwarded_cases arena evacuate table ctx.regs fault with
    ⟨i, fwd, _, tried, found⟩ | ⟨nowhere, found⟩
  · left
    refine ⟨i, fwd, tried, ?_⟩
    rw [found]
  · right
    refine ⟨nowhere, ?_⟩
    rw [found]
    cases forwardTableLookup cheri (some arena.base) table fault.siAddr <;> rfl

/-- The two ways in which the handler returns. -/
inductive Outcome (labels : SafeFetch) (evacuate : Option (Nat → Option Cap))
    (prev : Disposition) (table : State) (signal : Signal) (ctx : Context)
    (result : Return) : Prop where
  | progress :
      Progress arena labels evacuate table ctx result →
      ¬ Stalls arena labels evacuate prev table signal ctx →
      Outcome labels evacuate prev table signal ctx result
  | stalled :
      Stalls arena labels evacuate prev table signal ctx →
      result.patched = none → result.chained = false →
      result.reraised = false → result.ctx.elr = ctx.elr →
      result.ctx.regs = ctx.regs →
      Outcome labels evacuate prev table signal ctx result

theorem sigprotHandler_outcome {result : Return}
    (returned : sigprotHandler arena labels evacuate prev table signal ctx =
      some result) :
    Outcome arena labels evacuate prev table signal ctx result := by
  unfold sigprotHandler at returned
  cases probe : stoplessSafefetchRedirect cheri labels ctx with
  | some redirected =>
      simp only [probe] at returned
      cases returned
      obtain ⟨atProbe, _, label, elr⟩ :=
        stoplessSafefetchRedirect_eq_some probe
      exact .progress (.redirected label elr atProbe)
        (fun stalls => stalls.noProbe atProbe)
  | none =>
      simp only [probe] at returned
      have noProbe := stoplessSafefetchRedirect_eq_none.mp probe
      by_cases revocation : signal.fault.revocation
      · have accepted : ¬ (signal.siCode ≠ 2 ∧ signal.siCode ≠ 5) := by
          rintro ⟨notTag, notPerm⟩
          exact revocation.elim notTag notPerm
        rw [if_neg accepted] at returned
        rcases healContext_cases arena revocation with
          ⟨i, fwd, tried, healed⟩ | ⟨nowhere, healed⟩
        · rw [healed] at returned
          cases returned
          refine .progress (.patched rfl tried (Context.selfHeal_regs ..)) ?_
          intro stalls
          rcases stalls.unhandled with ⟨other, _⟩ | ⟨_, missed, _⟩
          · exact other revocation
          · rw [missed i] at tried
            cases tried
        · cases looked : forwardTableLookup cheri (some arena.base) table
              signal.fault.siAddr with
          | some fwd =>
              rw [healed, looked] at returned
              cases returned
              refine .stalled ⟨noProbe, .inr ⟨revocation, nowhere, ?_⟩⟩ rfl rfl
                rfl (Context.selfHeal_elr ..) (Context.selfHeal_regs ..)
              exact Option.ne_none_iff_exists'.mpr ⟨fwd, looked⟩
          | none =>
              rw [healed, looked] at returned
              cases returned
              refine .progress (.reraised rfl) ?_
              intro stalls
              rcases stalls.unhandled with ⟨other, _⟩ | ⟨_, _, known⟩
              · exact other revocation
              · exact known looked
      · have rejected : signal.siCode ≠ 2 ∧ signal.siCode ≠ 5 :=
          not_or.mp revocation
        rw [if_pos rejected] at returned
        cases prev with
        | sigDfl =>
            cases returned
            exact .stalled ⟨noProbe, .inl ⟨revocation, rfl⟩⟩ rfl rfl rfl rfl rfl
        | sigIgn => cases returned
        | function act =>
            cases returned
            refine .progress (.chained rfl) ?_
            intro stalls
            rcases stalls.unhandled with ⟨_, unset⟩ | ⟨accepted, _⟩
            · cases unset
            · exact revocation accepted

/-- The handler makes progress exactly when the signal is not of the two kinds
that stall; after those it returns with the PC and all registers as they
were. -/
theorem sigprotHandler_progress_iff {result : Return}
    (returned : sigprotHandler arena labels evacuate prev table signal ctx =
      some result) :
    (Progress arena labels evacuate table ctx result ↔
      ¬ Stalls arena labels evacuate prev table signal ctx) ∧
    (Stalls arena labels evacuate prev table signal ctx →
      result.ctx.elr = ctx.elr ∧ result.ctx.regs = ctx.regs) := by
  cases sigprotHandler_outcome arena returned with
  | progress made free =>
      exact ⟨⟨fun _ => free, fun _ => made⟩, fun stalls => absurd stalls free⟩
  | stalled stalls unpatched unchained unraised elr regs =>
      refine ⟨⟨fun made => ?_, fun free => absurd stalls free⟩,
        fun _ => ⟨elr, regs⟩⟩
      cases made with
      | redirected _ _ probe => exact absurd probe stalls.noProbe
      | patched written _ _ =>
          rw [unpatched] at written
          cases written
      | chained called =>
          rw [unchained] at called
          cases called
      | reraised raised =>
          rw [unraised] at raised
          cases raised

end Progress

/-- A thread that does not run a probe, with a zero in every register. -/
def Context.idle : Context :=
  { elr := Cap.ofInt 64
    regs := fun _ => Cap.ofInt 0
    mem := fun _ => .value (Cap.ofInt 0)
    pendingSlot := none }

/-- The labels of a VM without `SafeFetch` stubs. -/
def SafeFetch.absent : SafeFetch := ⟨0, 0, 0, 0⟩

/-- A bounds fault when `SIGPROT` had its default disposition: the handler
returns to the same instruction with the same registers. -/
theorem sigprotHandler_stalls :
    ∃ result, sigprotHandler Arena.small .absent none .sigDfl initial
        ⟨1, 64, 0⟩ .idle = some result ∧
      ¬ Progress Arena.small .absent none initial .idle result ∧
      result.ctx.elr = Context.idle.elr ∧
      result.ctx.regs = Context.idle.regs := by
  refine ⟨_, rfl, ?_, rfl, rfl⟩
  intro made
  cases made with
  | redirected _ _ probe =>
      rcases probe with ⟨there, _⟩ | ⟨there, _⟩ <;> exact there rfl
  | patched written _ _ => cases written
  | chained called => cases called
  | reraised raised => cases raised

/-- The context of a thread that faults with one capability in `x0`. -/
def Context.holding (c : Cap) : Context :=
  { Context.idle with regs := Function.update Context.idle.regs 0 c }

/-- A stale reference to the object at `2^30`. -/
def staleObject : Cap := { objectCap Arena.small (2 ^ 30) 16 with tag := false }

/-- A stale reference to a moved object is healed. -/
theorem sigprotHandler_progress_iff_healed :
    ∃ table result,
      (forwardTableInsert true initial (2 ^ 30)
        (objectCap Arena.small (2 ^ 30 + 16) 16)).toOption = some table ∧
      sigprotHandler Arena.small .absent none .sigDfl table ⟨2, 64, 0⟩
        (.holding staleObject) = some result ∧
      result.patched = some 0 ∧
      Progress Arena.small .absent none table (.holding staleObject) result := by
  obtain ⟨table, linked, checked⟩ := (Option.any_eq_true _ _).mp
    (by decide +kernel : (forwardTableInsert true initial (2 ^ 30)
      (objectCap Arena.small (2 ^ 30 + 16) 16)).toOption.any (fun table =>
        (sigprotHandler Arena.small .absent none .sigDfl table ⟨2, 64, 0⟩
          (.holding staleObject)).any (fun result =>
            decide (result.patched = some 0 ∧
              tryCap Arena.small none table staleObject ≠ none))) = true)
  simp only [Option.any_eq_true, decide_eq_true_eq] at checked
  obtain ⟨result, returned, patched, candidate⟩ := checked
  refine ⟨table, result, linked, returned, patched,
    (sigprotHandler_progress_iff Arena.small returned).1.mpr ?_⟩
  intro stalls
  rcases stalls.unhandled with ⟨other, _⟩ | ⟨_, missed, _⟩
  · exact other (.inl rfl)
  · exact candidate (missed 0)

end Handler

end StoplessGC
