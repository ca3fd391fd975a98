import Mathlib.Algebra.BigOperators.Group.Finset.Basic
import Mathlib.Logic.Function.Basic
import Mathlib.Logic.Function.Iterate
import Mathlib.Logic.Relation

/-!
# Interleaved processes over shared memory

A configuration holds one shared state and a local state for every process.
A run interleaves atomic steps of single processes in any order.  Two rules
establish invariants of all reachable configurations: one for properties of
the whole configuration, and one in the style of Owicki and Gries, for a
property of the shared state together with one property for each process
that the other processes do not disturb.
-/

namespace Interleaving

variable {ι σ ρ : Type*}

structure Config (ι σ ρ : Type*) where
  shared : σ
  locals : ι → ρ

variable [DecidableEq ι]

namespace Config

/-- The configuration after process `i` leaves the given states behind. -/
def advance (c : Config ι σ ρ) (i : ι) (shared : σ) (here : ρ) :
    Config ι σ ρ :=
  { shared := shared, locals := Function.update c.locals i here }

@[simp] theorem advance_shared (c : Config ι σ ρ) (i : ι) (shared : σ)
    (here : ρ) : (c.advance i shared here).shared = shared := rfl

@[simp] theorem advance_locals_self (c : Config ι σ ρ) (i : ι) (shared : σ)
    (here : ρ) : (c.advance i shared here).locals i = here := by
  simp [advance]

theorem advance_locals_of_ne (c : Config ι σ ρ) {i j : ι} (shared : σ)
    (here : ρ) (other : j ≠ i) :
    (c.advance i shared here).locals j = c.locals j := by
  simp [advance, Function.update_of_ne other]

/-- What holds of every process, when one of them has run. -/
theorem forall_advance (c : Config ι σ ρ) {i : ι} {shared : σ} {here : ρ}
    {P : ι → ρ → Prop} (own : P i here)
    (others : ∀ j, j ≠ i → P j (c.locals j)) (j : ι) :
    P j ((c.advance i shared here).locals j) := by
  by_cases same : j = i
  · subst same
    rwa [advance_locals_self]
  · rw [c.advance_locals_of_ne _ _ same]
    exact others j same

@[simp] theorem advance_self (c : Config ι σ ρ) (i : ι) :
    c.advance i c.shared (c.locals i) = c := by
  rw [advance, Function.update_eq_self]

@[simp] theorem advance_advance (c : Config ι σ ρ) (i : ι) (s shared : σ)
    (l here : ρ) :
    (c.advance i s l).advance i shared here = c.advance i shared here := by
  rw [advance, advance, advance, Function.update_idem]

theorem sum_advance [Fintype ι] (c : Config ι σ ρ) (f : ρ → Nat) (i : ι)
    (shared : σ) (here : ρ) :
    (∑ j, f ((c.advance i shared here).locals j)) + f (c.locals i) =
      (∑ j, f (c.locals j)) + f here := by
  have others : ∑ j ∈ Finset.univ.erase i,
        f ((c.advance i shared here).locals j) =
      ∑ j ∈ Finset.univ.erase i, f (c.locals j) := by
    apply Finset.sum_congr rfl
    intro j member
    rw [c.advance_locals_of_ne _ _ (Finset.ne_of_mem_erase member)]
  have after := Finset.add_sum_erase Finset.univ
    (fun j => f ((c.advance i shared here).locals j)) (Finset.mem_univ i)
  have before := Finset.add_sum_erase Finset.univ
    (fun j => f (c.locals j)) (Finset.mem_univ i)
  simp only [advance_locals_self] at after
  omega

end Config

/-- One atomic step of one process. -/
inductive Step (step : ι → σ → ρ → σ → ρ → Prop) :
    Config ι σ ρ → Config ι σ ρ → Prop where
  | run {c : Config ι σ ρ} (i : ι) {shared : σ} {here : ρ} :
      step i c.shared (c.locals i) shared here →
      Step step c (c.advance i shared here)

/-- Any number of interleaved steps. -/
abbrev Reachable (step : ι → σ → ρ → σ → ρ → Prop) :
    Config ι σ ρ → Config ι σ ρ → Prop :=
  Relation.ReflTransGen (Step step)

variable {step : ι → σ → ρ → σ → ρ → Prop} {start c : Config ι σ ρ}

theorem Reachable.invariant (reachable : Reachable step start c)
    (holds : Config ι σ ρ → Prop) (initially : holds start)
    (preserved : ∀ {c : Config ι σ ρ} (i : ι) {shared : σ} {here : ρ},
      holds c → step i c.shared (c.locals i) shared here →
      holds (c.advance i shared here)) : holds c := by
  induction reachable with
  | refl => exact initially
  | tail _ last ih =>
      cases last with
      | run i taken => exact preserved i ih taken

theorem Reachable.alone (i : ι) {shared : σ} {here : ρ}
    (steps : Relation.ReflTransGen
      (fun before after : σ × ρ => step i before.1 before.2 after.1 after.2)
      (c.shared, c.locals i) (shared, here)) :
    Reachable step c (c.advance i shared here) := by
  generalize reached : (shared, here) = last at steps
  induction steps generalizing shared here with
  | refl =>
      cases reached
      rw [Config.advance_self]
  | @tail middle last _ taken ih =>
      cases reached
      refine (ih rfl).tail ?_
      have next : Step step (c.advance i middle.1 middle.2)
          ((c.advance i middle.1 middle.2).advance i shared here) :=
        .run i (by simpa using taken)
      rwa [Config.advance_advance] at next

/-- The run in which process `i` alone takes `n` steps. -/
theorem Reachable.solo {next : σ × ρ → σ × ρ} (i : ι) (n : Nat)
    (allowed : ∀ s l, step i s l (next (s, l)).1 (next (s, l)).2) :
    Reachable step c (c.advance i (next^[n] (c.shared, c.locals i)).1
      (next^[n] (c.shared, c.locals i)).2) := by
  induction n with
  | zero =>
      rw [Function.iterate_zero, id, Config.advance_self]
  | succ n ih =>
      refine ih.tail ?_
      rw [Function.iterate_succ_apply']
      generalize next^[n] (c.shared, c.locals i) = reached
      have last : Step step (c.advance i reached.1 reached.2)
          ((c.advance i reached.1 reached.2).advance i (next reached).1
            (next reached).2) :=
        .run i (by simpa using allowed reached.1 reached.2)
      rwa [Config.advance_advance] at last

/-- The run in which process `i` alone acts `n` times, with any number of steps
each time. -/
theorem Reachable.repeated {next : σ × ρ → σ × ρ} (i : ι) (n : Nat)
    (allowed : ∀ x, Relation.ReflTransGen
      (fun before after : σ × ρ => step i before.1 before.2 after.1 after.2)
      x (next x)) :
    Reachable step c (c.advance i (next^[n] (c.shared, c.locals i)).1
      (next^[n] (c.shared, c.locals i)).2) := by
  apply Reachable.alone i
  induction n with
  | zero => exact .refl
  | succ n ih =>
      rw [Function.iterate_succ_apply']
      exact ih.trans (allowed _)

/-- The rule of Owicki and Gries. -/
theorem Reachable.noninterference {everywhere : σ → Prop}
    {own : ι → σ → ρ → Prop} (reachable : Reachable step start c)
    (everywhereInitially : everywhere start.shared)
    (ownInitially : ∀ i, own i start.shared (start.locals i))
    (sequential : ∀ {i s l s' l'}, everywhere s → own i s l →
      step i s l s' l' → everywhere s' ∧ own i s' l')
    (undisturbed : ∀ {i j s l s' l' m}, j ≠ i → everywhere s → own i s l →
      step i s l s' l' → own j s m → own j s' m) :
    everywhere c.shared ∧ ∀ i, own i c.shared (c.locals i) := by
  apply reachable.invariant (fun c =>
    everywhere c.shared ∧ ∀ i, own i c.shared (c.locals i))
  · exact ⟨everywhereInitially, ownInitially⟩
  · rintro c i shared here ⟨global, owned⟩ taken
    obtain ⟨globalNext, ownNext⟩ := sequential global (owned i) taken
    refine ⟨globalNext,
      c.forall_advance (P := fun j l => own j shared l) ownNext ?_⟩
    intro j other
    exact undisturbed other global (owned i) taken (owned j)

end Interleaving
