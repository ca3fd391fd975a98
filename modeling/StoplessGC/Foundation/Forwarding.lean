import Mathlib.Logic.Function.Basic
import Mathlib.Order.Basic

/-!
# Chains of forwarding links

A partial map sends a key to its successor, together with a payload.  `Hops`
counts the links followed from one key to another.  A chain ends at a key
without a successor; the map is deterministic, so a key has at most one end,
and it has one as soon as the lengths of all chains are bounded.
-/

namespace Forwarding

variable {K V : Type*} {find find' : K → Option (K × V)}

inductive Hops (find : K → Option (K × V)) : Nat → K → K → Prop where
  | here (a : K) : Hops find 0 a a
  | hop {n : Nat} {a b c : K} {v : V} :
      find a = some (b, v) → Hops find n b c → Hops find (n + 1) a c

/-- Some number of links leads from one key to the other. -/
def Leads (find : K → Option (K × V)) (a b : K) : Prop :=
  ∃ n, Hops find n a b

/-- The chain from a key to its end. -/
def Ends (find : K → Option (K × V)) (a b : K) : Prop :=
  Leads find a b ∧ find b = none

/-- No chain has more links than the bound. -/
def Within (find : K → Option (K × V)) (bound : Nat) : Prop :=
  ∀ ⦃n : Nat⦄ ⦃a b : K⦄, Hops find n a b → n ≤ bound

/-- The second map has all links of the first. -/
def Extends (find find' : K → Option (K × V)) : Prop :=
  ∀ ⦃a : K⦄ ⦃pair : K × V⦄, find a = some pair → find' a = some pair

/-- A key that some link leads to. -/
def Target (find : K → Option (K × V)) (b : K) : Prop :=
  ∃ a v, find a = some (b, v)

/-- No two links lead to the same key. -/
def Injective (find : K → Option (K × V)) : Prop :=
  ∀ ⦃a b c : K⦄ ⦃v w : V⦄, find a = some (c, v) → find b = some (c, w) → a = b

/-- The links that the second map has in addition lead to keys that are not
old, and end there. -/
def NewLinks (old : K → Prop) (find find' : K → Option (K × V)) : Prop :=
  ∀ ⦃a b : K⦄ ⦃v : V⦄, find' a = some (b, v) →
    find a = some (b, v) ∨ ¬ old b ∧ find' b = none

theorem Extends.refl (find : K → Option (K × V)) : Extends find find :=
  fun _ _ linked => linked

theorem Extends.trans {find'' : K → Option (K × V)}
    (first : Extends find find') (second : Extends find' find'') :
    Extends find find'' :=
  fun _ _ linked => second (first linked)

theorem Extends.update [DecidableEq K] {k : K} (free : find k = none)
    (pair : K × V) : Extends find (Function.update find k (some pair)) := by
  intro a other linked
  have elsewhere : a ≠ k := by
    intro same
    rw [same, free] at linked
    cases linked
  rw [Function.update_of_ne elsewhere, linked]

section Update

variable [DecidableEq K] {k start : K} {v : V}

theorem target_update {b : K}
    (target : Target (Function.update find k (some (start, v))) b) :
    b = start ∨ Target find b := by
  obtain ⟨a, w, linked⟩ := target
  by_cases here : a = k
  · rw [here, Function.update_self] at linked
    cases linked
    exact .inl rfl
  · rw [Function.update_of_ne here] at linked
    exact .inr ⟨a, w, linked⟩

theorem Injective.update (injective : Injective find)
    (unused : ¬ Target find start) :
    Injective (Function.update find k (some (start, v))) := by
  intro a b c w x first second
  by_cases aHere : a = k
  · by_cases bHere : b = k
    · rw [aHere, bHere]
    · rw [aHere, Function.update_self] at first
      rw [Function.update_of_ne bHere] at second
      cases first
      exact absurd ⟨b, x, second⟩ unused
  · rw [Function.update_of_ne aHere] at first
    by_cases bHere : b = k
    · rw [bHere, Function.update_self] at second
      cases second
      exact absurd ⟨a, w, first⟩ unused
    · rw [Function.update_of_ne bHere] at second
      exact injective first second

end Update

namespace Hops

variable {n m : Nat} {a b c : K}

theorem trans (first : Hops find n a b) (second : Hops find m b c) :
    Hops find (n + m) a c := by
  induction first with
  | here a => simpa using second
  | hop linked _ ih =>
      rw [Nat.add_right_comm]
      exact .hop linked (ih second)

theorem mono (larger : Extends find find') (hops : Hops find n a b) :
    Hops find' n a b := by
  induction hops with
  | here a => exact .here a
  | hop linked _ ih => exact .hop (larger linked) ih

/-- What every link keeps, a chain keeps. -/
theorem preserves {α : Type*} {f : K → α}
    (kept : ∀ {a b v}, find a = some (b, v) → f a = f b)
    (hops : Hops find n a b) : f a = f b := by
  induction hops with
  | here a => rfl
  | hop linked _ ih => exact (kept linked).trans ih

theorem end_unique (first : Hops find n a b) (firstEnd : find b = none)
    (second : Hops find m a c) (secondEnd : find c = none) : b = c := by
  induction first generalizing m with
  | here a =>
      cases second with
      | here => rfl
      | hop linked _ =>
          rw [firstEnd] at linked
          cases linked
  | hop linked _ ih =>
      cases second with
      | here =>
          rw [secondEnd] at linked
          cases linked
      | hop linked' rest =>
          rw [linked] at linked'
          cases linked'
          exact ih firstEnd rest

theorem snoc {v : V} (hops : Hops find n a b) (linked : find b = some (c, v)) :
    Hops find (n + 1) a c :=
  hops.trans (.hop linked (.here c))

theorem unsnoc (hops : Hops find (n + 1) a c) :
    ∃ b v, Hops find n a b ∧ find b = some (c, v) := by
  induction n generalizing a with
  | zero =>
      cases hops with
      | hop linked rest =>
          cases rest with
          | here => exact ⟨_, _, .here a, linked⟩
  | succ n ih =>
      cases hops with
      | hop linked rest =>
          obtain ⟨b, v, earlier, last⟩ := ih rest
          exact ⟨b, v, .hop linked earlier, last⟩

/-- Chains of an injective map that start outside its range and meet have the
same start. -/
theorem source_unique (injective : Injective find)
    (first : Hops find n a c) (second : Hops find m b c)
    (firstSource : ¬ Target find a) (secondSource : ¬ Target find b) :
    a = b := by
  induction n generalizing m c with
  | zero =>
      cases first with
      | here =>
          cases m with
          | zero =>
              cases second with
              | here => rfl
          | succ m =>
              obtain ⟨d, v, _, last⟩ := second.unsnoc
              exact absurd ⟨d, v, last⟩ firstSource
  | succ n ih =>
      obtain ⟨d, v, earlier, last⟩ := first.unsnoc
      cases m with
      | zero =>
          cases second with
          | here => exact absurd ⟨d, v, last⟩ secondSource
      | succ m =>
          obtain ⟨d', v', earlier', last'⟩ := second.unsnoc
          have same := injective last last'
          subst same
          exact ih earlier earlier'

/-- A chain to an old key has no new links. -/
theorem of_newLinks {old : K → Prop} (new : NewLinks old find find')
    (hops : Hops find' n a b) (last : old b) : Hops find n a b := by
  induction hops with
  | here a => exact .here a
  | hop linked rest ih =>
      rcases new linked with before | ⟨fresh, ended⟩
      · exact .hop before (ih last)
      · cases rest with
        | here => exact absurd last fresh
        | hop further _ =>
            rw [ended] at further
            cases further

theorem one_of_newLinks {old : K → Prop} (new : NewLinks old find find')
    (ended : find a = none) (hops : Hops find' n a b) :
    a = b ∨ ¬ old b ∧ ∃ v, find' a = some (b, v) := by
  cases hops with
  | here => exact .inl rfl
  | hop linked rest =>
      rcases new linked with before | ⟨fresh, last⟩
      · rw [ended] at before
        cases before
      · cases rest with
        | here => exact .inr ⟨fresh, _, linked⟩
        | hop further _ =>
            rw [last] at further
            cases further

end Hops

namespace Leads

variable {a b c : K}

theorem refl (a : K) : Leads find a a := ⟨0, .here a⟩

theorem trans (first : Leads find a b) (second : Leads find b c) :
    Leads find a c := by
  obtain ⟨n, first⟩ := first
  obtain ⟨m, second⟩ := second
  exact ⟨n + m, first.trans second⟩

theorem single {v : V} (linked : find a = some (b, v)) : Leads find a b :=
  ⟨1, .hop linked (.here b)⟩

theorem mono (larger : Extends find find') (leads : Leads find a b) :
    Leads find' a b := by
  obtain ⟨n, hops⟩ := leads
  exact ⟨n, hops.mono larger⟩

theorem preserves {α : Type*} {f : K → α}
    (kept : ∀ {a b v}, find a = some (b, v) → f a = f b)
    (leads : Leads find a b) : f a = f b := by
  obtain ⟨n, hops⟩ := leads
  exact hops.preserves kept

theorem eq_of_end (ended : find a = none) (leads : Leads find a b) :
    b = a := by
  obtain ⟨n, hops⟩ := leads
  cases hops with
  | here => rfl
  | hop linked _ =>
      rw [ended] at linked
      cases linked

end Leads

theorem Ends.unique {a b c : K} (first : Ends find a b)
    (second : Ends find a c) : b = c := by
  obtain ⟨⟨n, firstHops⟩, firstEnd⟩ := first
  obtain ⟨⟨m, secondHops⟩, secondEnd⟩ := second
  exact firstHops.end_unique firstEnd secondHops secondEnd

/-- The end of a chain is the end of everything on it. -/
theorem Ends.of_leads {a b c : K} (ends : Ends find a c)
    (leads : Leads find a b) : Ends find b c := by
  obtain ⟨n, hops⟩ := leads
  induction hops with
  | here a => exact ends
  | hop linked _ ih =>
      obtain ⟨⟨k, hops⟩, ended⟩ := ends
      cases hops with
      | here =>
          rw [ended] at linked
          cases linked
      | hop linked' rest =>
          rw [linked] at linked'
          cases linked'
          exact ih ⟨⟨_, rest⟩, ended⟩

theorem exists_end_of_rank (rank : K → Nat)
    (descends : ∀ {a b v}, find a = some (b, v) → rank b < rank a) (a : K) :
    ∃ b, Ends find a b := by
  induction bound : rank a using Nat.strongRecOn generalizing a with
  | _ n ih =>
      cases link : find a with
      | none => exact ⟨a, .refl a, link⟩
      | some pair =>
          obtain ⟨b, v⟩ := pair
          obtain ⟨c, leads, ended⟩ :=
            ih (rank b) (by rw [← bound]; exact descends link) b rfl
          exact ⟨c, (Leads.single link).trans leads, ended⟩

theorem Within.of_extends {bound : Nat} (larger : Extends find find')
    (within : Within find' bound) : Within find bound :=
  fun _ _ _ hops => within (hops.mono larger)

theorem Within.exists_end {bound : Nat} (within : Within find bound) (a : K) :
    ∃ n b, n ≤ bound ∧ Hops find n a b ∧ find b = none := by
  by_contra endless
  have longer : ∀ n, ∃ b, Hops find n a b := by
    intro n
    induction n with
    | zero => exact ⟨a, .here a⟩
    | succ n ih =>
        obtain ⟨b, hops⟩ := ih
        cases link : find b with
        | none => exact absurd ⟨n, b, within hops, hops, link⟩ endless
        | some pair => exact ⟨pair.1, hops.snoc link⟩
  obtain ⟨b, hops⟩ := longer (bound + 1)
  have short := within hops
  omega

end Forwarding
