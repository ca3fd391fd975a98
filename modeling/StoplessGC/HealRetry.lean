import StoplessGC.Healing
import Mathlib.Data.Fintype.Card

/-!
# An instruction is retried finitely often

A heal returns to the instruction that has faulted, and that may fault again:
the decoded base register need not be the one to blame, and the scan then heals
registers that the instruction does not use.  Every heal takes one register out
of the set that the search can still find, and puts none into it.
-/

namespace StoplessGC

namespace Handler

open ForwardTable

variable {cheri : Intrinsics} {arena : Arena cheri} {table : State}

/-- The registers that hold a revoked value that the table forwards. -/
def healable (arena : Arena cheri) (table : State) (regs : Fin 30 → Cap) :
    Finset (Fin 30) :=
  Finset.univ.filter fun i => tryCap arena none table (regs i) ≠ none

theorem mem_healable {regs : Fin 30 → Cap} {i : Fin 30} :
    i ∈ healable arena table regs ↔ tryCap arena none table (regs i) ≠ none := by
  simp [healable]

theorem tryCap_live {evacuate : Option (Nat → Option Cap)} {c : Cap}
    (live : revoked c = false) : tryCap arena evacuate table c = none := by
  by_contra candidate
  rw [revoked_of_tryCap candidate] at live
  cases live

theorem healContext_patches {fault : Fault} {ctx ctx' : Context}
    {reg : Option (Fin 30)} (unknown : ftFind table fault.siAddr = none)
    (healed : healContext arena none table fault ctx = some (ctx', reg)) :
    ∃ i fwd, tryCap arena none table (ctx.regs i) = some fwd ∧
      ctx'.regs = Function.update ctx.regs i fwd := by
  by_cases revocation : fault.revocation
  · rcases healContext_cases arena revocation with
      ⟨i, fwd, tried, same⟩ | ⟨_, same⟩
    · rw [healed] at same
      cases same
      exact ⟨i, fwd, tried, Context.selfHeal_regs ..⟩
    · have missed : forwardTableLookup cheri (some arena.base) table
          fault.siAddr = none := by
        simp only [forwardTableLookup, resolve_eq_none unknown]
      rw [healed, missed] at same
      cases same
  · unfold healContext at healed
    rw [if_pos (not_or.mp revocation)] at healed
    cases healed

theorem healable_update {regs : Fin 30 → Cap} (i : Fin 30) {fwd : Cap}
    (live : revoked fwd = false) :
    healable arena table (Function.update regs i fwd) =
      (healable arena table regs).erase i := by
  ext j
  rw [Finset.mem_erase, mem_healable, mem_healable]
  by_cases here : j = i
  · subst here
    rw [Function.update_self, tryCap_live live]
    simp
  · rw [Function.update_of_ne here]
    simp [here]

/-- An instruction that is executed until it passes: its word, its PC, and the
`si_code` with which it faults in a context. -/
structure Retried where
  insn : Nat
  pc : Nat
  faults : Context → Option Nat

def Retried.fault (instr : Retried) (siCode : Nat) : Fault :=
  { siCode := siCode, siAddr := instr.pc, rn := baseRegister instr.insn }

/-- The instruction faults and `stopless_try_heal` returns 1. -/
def Heals (arena : Arena cheri) (table : State) (instr : Retried)
    (ctx ctx' : Context) : Prop :=
  ∃ siCode reg, instr.faults ctx = some siCode ∧
    healContext arena none table (instr.fault siCode) ctx = some (ctx', reg)

/-- The context after a number of heals. -/
inductive Retries (arena : Arena cheri) (table : State) (instr : Retried)
    (start : Context) : Nat → Context → Prop where
  | start : Retries arena table instr start 0 start
  | heal {n : Nat} {ctx ctx' : Context} :
      Retries arena table instr start n ctx →
      Heals arena table instr ctx ctx' →
      Retries arena table instr start (n + 1) ctx'

/-- The instruction passes, or its fault is one that `stopless_try_heal` returns
0 for. -/
def Retried.Ends (arena : Arena cheri) (table : State) (instr : Retried)
    (ctx : Context) : Prop :=
  ∀ siCode, instr.faults ctx = some siCode →
    healContext arena none table (instr.fault siCode) ctx = none

/-- Every capability that the heal of a register rebuilds has its tag and some
permission. -/
def Rebuilds (arena : Arena cheri) (table : State) (regs : Fin 30 → Cap) :
    Prop :=
  ∀ i fwd, tryCap arena none table (regs i) = some fwd → revoked fwd = false

section Run

variable {instr : Retried}

/-- A heal shrinks the set of candidates, and leaves the others to be healed as
before. -/
theorem Heals.shrinks {ctx ctx' : Context}
    (unknown : ftFind table instr.pc = none)
    (rebuilds : Rebuilds arena table ctx.regs)
    (heals : Heals arena table instr ctx ctx') :
    (healable arena table ctx'.regs).card <
        (healable arena table ctx.regs).card ∧
      Rebuilds arena table ctx'.regs := by
  obtain ⟨siCode, reg, _, healed⟩ := heals
  obtain ⟨i, fwd, tried, regs⟩ :=
    @healContext_patches _ _ _ (instr.fault siCode) _ _ _ unknown healed
  have live := rebuilds i fwd tried
  rw [regs]
  constructor
  · rw [healable_update i live]
    apply Finset.card_erase_lt_of_mem
    rw [mem_healable, tried]
    simp
  · intro j fwd' tried'
    by_cases here : j = i
    · subst here
      rw [Function.update_self, tryCap_live live] at tried'
      cases tried'
    · rw [Function.update_of_ne here] at tried'
      exact rebuilds j fwd' tried'

/-- Heals and remaining candidates add up to no more than the candidates at the
start. -/
theorem Retries.bound {start ctx : Context} {n : Nat}
    (unknown : ftFind table instr.pc = none)
    (rebuilds : Rebuilds arena table start.regs)
    (retries : Retries arena table instr start n ctx) :
    n + (healable arena table ctx.regs).card ≤
        (healable arena table start.regs).card ∧
      Rebuilds arena table ctx.regs := by
  induction retries with
  | start => exact ⟨Nat.le_of_eq (Nat.zero_add _), rebuilds⟩
  | heal _ heals ih =>
      obtain ⟨bounded, rebuilds⟩ := ih
      obtain ⟨fewer, rebuilds'⟩ := heals.shrinks unknown rebuilds
      exact ⟨by omega, rebuilds'⟩

theorem Retries.exists_end {start : Context}
    (unknown : ftFind table instr.pc = none)
    (rebuilds : Rebuilds arena table start.regs) {fuel n : Nat}
    {ctx : Context} (retries : Retries arena table instr start n ctx)
    (few : (healable arena table ctx.regs).card ≤ fuel) :
    ∃ n' ctx', Retries arena table instr start n' ctx' ∧
      instr.Ends arena table ctx' := by
  induction fuel generalizing n ctx with
  | zero =>
      refine ⟨n, ctx, retries, ?_⟩
      intro siCode faults
      by_contra heals
      obtain ⟨⟨ctx', reg⟩, healed⟩ := Option.ne_none_iff_exists'.mp heals
      have fewer := (Heals.shrinks unknown (retries.bound unknown rebuilds).2
        ⟨siCode, reg, faults, healed⟩).1
      omega
  | succ fuel ih =>
      by_cases ends : instr.Ends arena table ctx
      · exact ⟨n, ctx, retries, ends⟩
      · simp only [Retried.Ends, not_forall] at ends
        obtain ⟨siCode, faults, heals⟩ := ends
        obtain ⟨⟨ctx', reg⟩, healed⟩ := Option.ne_none_iff_exists'.mp heals
        have heals : Heals arena table instr ctx ctx' :=
          ⟨siCode, reg, faults, healed⟩
        have fewer := (heals.shrinks unknown
          (retries.bound unknown rebuilds).2).1
        exact ih (retries.heal heals) (by omega)

/-- At most 30 heals, each of them with fewer candidates left, and then the
instruction passes or its fault is not healed. -/
theorem retries_end (instr : Retried) {start : Context}
    (unknown : ftFind table instr.pc = none)
    (rebuilds : Rebuilds arena table start.regs) :
    (∀ {n ctx}, Retries arena table instr start n ctx →
      n ≤ 30 ∧ ∀ {ctx'}, Heals arena table instr ctx ctx' →
        (healable arena table ctx'.regs).card <
          (healable arena table ctx.regs).card) ∧
    ∃ n ctx, Retries arena table instr start n ctx ∧ n ≤ 30 ∧
      instr.Ends arena table ctx := by
  have bound : ∀ {n ctx}, Retries arena table instr start n ctx → n ≤ 30 := by
    intro n ctx retries
    have bounded := (retries.bound unknown rebuilds).1
    have all := Finset.card_le_univ (healable arena table start.regs)
    rw [Fintype.card_fin] at all
    omega
  constructor
  · intro n ctx retries
    refine ⟨bound retries, fun heals => ?_⟩
    exact (heals.shrinks unknown (retries.bound unknown rebuilds).2).1
  · obtain ⟨n, ctx, retries, ends⟩ :=
      Retries.exists_end unknown rebuilds .start (Nat.le_refl _)
    exact ⟨n, ctx, retries, bound retries, ends⟩

end Run

/-- A load through `x0` whose bits [9:5] name `x1`. -/
def misread : Retried where
  insn := 1 <<< 5
  pc := 64
  faults := fun ctx => if (ctx.regs 0).tag then none else some 2

/-- The load of a moved object passes after at most 30 heals. -/
theorem retries_end_misread :
    ∃ m, Runs Arena.small Machine.boot m ∧
      ∃ n ctx, Retries Arena.small m.table misread (.holding staleObject) n
        ctx ∧ n ≤ 30 ∧ misread.Ends Arena.small m.table ctx := by
  obtain ⟨m, ran, checked⟩ := (Option.any_eq_true _ _).mp (by decide +kernel :
    (perform Arena.small Machine.boot moveOne).any (fun m =>
      decide (ftFind m.table 64 = none ∧
        ∀ i : Fin 30, (tryCap Arena.small none m.table
          ((Context.holding staleObject).regs i)).all
            (fun fwd => !revoked fwd))) = true)
  simp only [decide_eq_true_eq] at checked
  obtain ⟨unknown, usable⟩ := checked
  refine ⟨m, runs_perform ran, (retries_end misread unknown ?_).2⟩
  intro i fwd tried
  have live := usable i
  rw [tried] at live
  simpa using live

end Handler

end StoplessGC
