import StoplessGC.Foundation.AtomicObject
import Mathlib.Algebra.Group.Action.Defs
import Mathlib.Algebra.Order.BigOperators.Group.Finset
import Mathlib.Data.Fintype.Card

/-!
# How many steps calls take

A rank that falls with every access bounds the accesses.  When it only depends
on the call itself, every call returns within its bound, whatever the others
do.  When an access may raise the ranks of the other calls and pays for that in
advance, the bound is one on the run: some call always gets on.  Accesses that
only wait may be set apart, and are not bounded.
-/

namespace AtomicObject

open Interleaving

variable {ι γ ρ σ Call Pc Result : Type*}

section Counted

/-- The same object, where each call counts its accesses but for the waits. -/
def Implementation.counted (impl : Implementation σ Call Pc Result)
    (waits : Call → σ → Pc → Bool) :
    Implementation σ Call (Pc × Nat) Result :=
  { enter := fun call => (impl.enter call, 0)
    step := fun call s pc s' pc' => impl.step call s pc.1 s' pc'.1 ∧
      pc'.2 = if waits call s pc.1 then pc.2 else pc.2 + 1
    result := fun call pc => impl.result call pc.1 }

/-- The place of a call, without the count. -/
def uncount (l : ρ × Option (Call × Pc × Nat)) : ρ × Option (Call × Pc) :=
  (l.1, l.2.map fun running => (running.1, running.2.1))

def uncounted (c : Config ι (γ × σ) (ρ × Option (Call × Pc × Nat))) :
    Config ι (γ × σ) (ρ × Option (Call × Pc)) :=
  { shared := c.shared, locals := fun i => uncount (c.locals i) }

variable {client : Client ι γ ρ Call Result}
  {impl : Implementation σ Call Pc Result} {waits : Call → σ → Pc → Bool}

theorem uncount_step {i : ι} {s s' : γ × σ}
    {l l' : ρ × Option (Call × Pc × Nat)}
    (stepped : ConcreteStep client (impl.counted waits) i s l s' l') :
    ConcreteStep client impl i s (uncount l) s' (uncount l') := by
  cases stepped with
  | own quiet taken => exact .own quiet taken
  | enter asked => exact .enter asked
  | access taken => exact .access taken.1
  | leave back => exact .leave back

variable {start c : Config ι (γ × σ) (ρ × Option (Call × Pc × Nat))}

theorem inProgress_uncounted {i : ι} {call : Call} {pc : Pc} {n : Nat}
    (running : (c.locals i).2 = some (call, pc, n)) :
    inProgress (uncounted c) i = some (call, pc) := by
  simp [inProgress, uncounted, uncount, running]

theorem exists_count {i : ι} {call : Call} {pc : Pc}
    (running : inProgress (uncounted c) i = some (call, pc)) :
    ∃ n, (c.locals i).2 = some (call, pc, n) := by
  obtain ⟨⟨call', pc', n⟩, here, same⟩ := Option.map_eq_some_iff.mp running
  cases same
  exact ⟨n, here⟩

variable [DecidableEq ι]

theorem uncounted_advance (c : Config ι (γ × σ) (ρ × Option (Call × Pc × Nat)))
    (i : ι) (shared : γ × σ) (here : ρ × Option (Call × Pc × Nat)) :
    uncounted (c.advance i shared here) =
      (uncounted c).advance i shared (uncount here) := by
  have locals : (fun j => uncount ((c.advance i shared here).locals j)) =
      Function.update (fun j => uncount (c.locals j)) i (uncount here) := by
    funext j
    by_cases same : j = i
    · subst same
      simp
    · rw [Config.advance_locals_of_ne _ _ _ same, Function.update_of_ne same]
  exact congrArg (Config.mk shared) locals

theorem uncounted_reachable
    (reachable : ConcreteReachable client (impl.counted waits) start c) :
    ConcreteReachable client impl (uncounted start) (uncounted c) := by
  induction reachable with
  | refl => exact .refl
  | tail _ last ih =>
      cases last with
      | run i stepped =>
          rw [uncounted_advance]
          exact ih.tail (.run i (uncount_step stepped))

theorem counted_le (holds : σ → (ι → Option (Call × Pc)) → Prop)
    (rank : Call → Pc → Nat) (fee : Call → Nat)
    (within : ∀ c, ConcreteReachable client impl (uncounted start) c →
      holds c.shared.2 (inProgress c))
    (enter : ∀ call, rank call (impl.enter call) ≤ fee call)
    (access : ∀ {s calls} {i : ι} {call pc s' pc'}, holds s calls →
      calls i = some (call, pc) → impl.step call s pc s' pc' →
      rank call pc' + (if waits call s pc then 0 else 1) ≤ rank call pc)
    (idle : ∀ i, (start.locals i).2 = none)
    (reachable : ConcreteReachable client (impl.counted waits) start c)
    {i : ι} {call : Call} {pc : Pc} {n : Nat}
    (running : (c.locals i).2 = some (call, pc, n)) :
    n + rank call pc ≤ fee call := by
  induction reachable generalizing i call pc n with
  | refl =>
      rw [idle] at running
      cases running
  | @tail before _ ran last ih =>
      cases last with
      | @run j shared here stepped =>
          by_cases same : i = j
          · subst same
            rw [Config.advance_locals_self] at running
            have held := within _ (uncounted_reachable ran)
            have own : ∀ call pc n, (before.locals i).2 = some (call, pc, n) →
                n + rank call pc ≤ fee call := fun _ _ _ => ih
            have mine : ∀ call pc n, (before.locals i).2 = some (call, pc, n) →
                inProgress (uncounted before) i = some (call, pc) :=
              fun _ _ _ => inProgress_uncounted
            change holds before.shared.2 _ at held
            generalize before.locals i = l at stepped own mine
            generalize before.shared = s at stepped held
            cases stepped with
            | own _ _ => cases running
            | enter _ =>
                cases running
                simpa using enter call
            | @access _ s s' _ _ place _ taken =>
                cases running
                obtain ⟨taken, count⟩ := taken
                have paid := access held (mine _ _ _ rfl) taken
                have earlier := own _ _ _ rfl
                simp only at count paid earlier
                by_cases waiting : waits call s place.1
                · rw [if_pos waiting] at count paid
                  omega
                · rw [if_neg waiting] at count paid
                  omega
            | leave _ => cases running
          · rw [Config.advance_locals_of_ne _ _ _ same] at running
            exact ih running

end Counted

section Tallied

/-- The calls of a run, their accesses, and the accesses that only waited. -/
structure Tally where
  calls : Nat
  accesses : Nat
  waits : Nat

/-- What a step of one process, from one place to another, adds. -/
def Tally.record (waits : Call → σ → Pc → Pc → Bool) (s : σ) :
    Option (Call × Pc) → Option (Call × Pc) → Tally → Tally
  | none, some _, t => { t with calls := t.calls + 1 }
  | some (call, pc), some (_, pc'), t =>
      if waits call s pc pc' then { t with waits := t.waits + 1 }
      else { t with accesses := t.accesses + 1 }
  | _, none, t => t

/-- A run and its tally. -/
inductive Tallied [DecidableEq ι] (client : Client ι γ ρ Call Result)
    (impl : Implementation σ Call Pc Result)
    (waits : Call → σ → Pc → Pc → Bool)
    (start : Config ι (γ × σ) (ρ × Option (Call × Pc))) :
    Config ι (γ × σ) (ρ × Option (Call × Pc)) → Tally → Prop where
  | start : Tallied client impl waits start start ⟨0, 0, 0⟩
  | step {c : Config ι (γ × σ) (ρ × Option (Call × Pc))} {t : Tally} {i : ι}
      {shared : γ × σ} {here : ρ × Option (Call × Pc)} :
      Tallied client impl waits start c t →
      ConcreteStep client impl i c.shared (c.locals i) shared here →
      Tallied client impl waits start (c.advance i shared here)
        (t.record waits c.shared.2 (c.locals i).2 here.2)

/-- The rank of what a process runs. -/
def running (rank : Call → Pc → Nat) (l : ρ × Option (Call × Pc)) : Nat :=
  l.2.elim 0 fun call => rank call.1 call.2

@[simp] theorem running_none (rank : Call → Pc → Nat) (l : ρ) :
    running rank (l, none) = 0 := rfl

@[simp] theorem running_some (rank : Call → Pc → Nat) (l : ρ) (call : Call)
    (pc : Pc) : running rank (l, some (call, pc)) = rank call pc := rfl

variable [DecidableEq ι] {client : Client ι γ ρ Call Result}
  {impl : Implementation σ Call Pc Result} {waits : Call → σ → Pc → Pc → Bool}
  {start c : Config ι (γ × σ) (ρ × Option (Call × Pc))} {t : Tally}

theorem exists_tallied (waits : Call → σ → Pc → Pc → Bool)
    (reachable : ConcreteReachable client impl start c) :
    ∃ t, Tallied client impl waits start c t := by
  induction reachable with
  | refl => exact ⟨_, .start⟩
  | tail _ last ih =>
      cases last with
      | run i stepped =>
          obtain ⟨t, tallied⟩ := ih
          exact ⟨_, tallied.step stepped⟩

variable [Fintype ι]

/-- What one process changes of the sum of the ranks, when it raises no rank of
the others by more than `d`. -/
theorem sum_running_advance (rank rank' : Call → Pc → Nat) {d : Nat}
    (raised : ∀ call pc, rank' call pc ≤ rank call pc + d)
    (c : Config ι (γ × σ) (ρ × Option (Call × Pc))) (i : ι) (shared : γ × σ)
    (here : ρ × Option (Call × Pc)) :
    (∑ j, running rank' ((c.advance i shared here).locals j)) +
        running rank (c.locals i) ≤
      (∑ j, running rank (c.locals j)) + running rank' here +
        (Fintype.card ι - 1) * d := by
  have own := c.sum_advance (running rank') i shared here
  have each : ∀ j, running rank' (c.locals j) ≤
      running rank (c.locals j) + d := by
    intro j
    cases h : (c.locals j).2 with
    | none => simp [running, h]
    | some call => simpa [running, h] using raised call.1 call.2
  have others := Finset.sum_le_sum fun j (_ : j ∈ Finset.univ.erase i) => each j
  rw [Finset.sum_add_distrib, Finset.sum_const, Finset.card_erase_of_mem
    (Finset.mem_univ i), Finset.card_univ, smul_eq_mul] at others
  have before := Finset.add_sum_erase Finset.univ
    (fun j => running rank (c.locals j)) (Finset.mem_univ i)
  have after := Finset.add_sum_erase Finset.univ
    (fun j => running rank' (c.locals j)) (Finset.mem_univ i)
  omega

/-- Every access is paid for by the fee of a call, or by a wait. -/
theorem Tallied.accesses_le (rank : σ → Call → Pc → Nat) (fee slack : Nat)
    (enter : ∀ s call, rank s call (impl.enter call) ≤ fee)
    (access : ∀ {call s pc s' pc'}, impl.step call s pc s' pc' → ∃ d,
      (∀ other place, rank s' other place ≤ rank s other place + d) ∧
      rank s' call pc' + (Fintype.card ι - 1) * d + 1 ≤ rank s call pc +
        if waits call s pc pc' then slack + 1 else 0)
    (idle : ∀ i, (start.locals i).2 = none)
    (tallied : Tallied client impl waits start c t) :
    t.accesses + ∑ j, running (rank c.shared.2) (c.locals j) ≤
      fee * t.calls + slack * t.waits := by
  induction tallied with
  | start => simp [running, idle]
  | @step c t i shared here _ stepped ih =>
      -- what the step changes of the sum, for each amount that was paid for
      have moved : ∀ d, (∀ other place, rank shared.2 other place ≤
          rank c.shared.2 other place + d) → _ := fun d raised =>
        sum_running_advance (rank c.shared.2) _ raised c i shared here
      rw [Config.advance_shared]
      generalize ∑ j, running (rank shared.2)
        ((c.advance i shared here).locals j) = total' at moved ⊢
      generalize ∑ j, running (rank c.shared.2) (c.locals j) = total at moved ih
      generalize c.locals i = l at stepped moved
      generalize c.shared = s at stepped moved
      cases stepped with
      | own _ _ =>
          have sum := moved 0 fun _ _ => Nat.le_refl _
          simp only [running_none] at sum
          change t.accesses + total' ≤ fee * t.calls + slack * t.waits
          omega
      | @enter g s l call _ =>
          have paid := enter s call
          have sum := moved 0 fun _ _ => Nat.le_refl _
          simp only [running_none, running_some] at sum
          change t.accesses + total' ≤ fee * (t.calls + 1) + slack * t.waits
          rw [Nat.mul_succ]
          omega
      | @access g s s' l call pc pc' taken =>
          obtain ⟨d, raised, paid⟩ := access taken
          have sum := moved d raised
          simp only [running_some] at sum
          simp only [Tally.record]
          by_cases waited : waits call s pc pc'
          · rw [if_pos waited] at paid ⊢
            change t.accesses + total' ≤
              fee * t.calls + slack * (t.waits + 1)
            rw [Nat.mul_succ]
            omega
          · rw [if_neg waited] at paid ⊢
            change t.accesses + 1 + total' ≤ fee * t.calls + slack * t.waits
            omega
      | leave _ =>
          have sum := moved 0 fun _ _ => Nat.le_refl _
          simp only [running_none] at sum
          change t.accesses + total' ≤ fee * t.calls + slack * t.waits
          omega

end Tallied

end AtomicObject
