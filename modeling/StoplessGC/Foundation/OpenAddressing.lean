import Mathlib.Data.Finset.Card
import Mathlib.Data.Finset.Image
import Mathlib.Data.Finset.Range
import Mathlib.Data.Nat.ModEq
import Mathlib.Logic.Function.Basic

/-!
# Open addressing with linear probing

A table of `size` slots is seen as a function `key` from slot indices to the
key stored there, if any.  Every key has a home index, and the probe sequence
of a key visits all indices cyclically from its home.

The one invariant is `Layout`: a stored key is reached by its own probe
sequence through slots that hold other keys.  It survives claiming the first
free slot of a probe sequence, and it is what makes a search that stops at
the first free slot exact.
-/

namespace OpenAddressing

variable {K : Type*}

/-- The `p`-th index of the cyclic probe sequence starting at `start`. -/
def probe (size start p : Nat) : Nat := (start + p) % size

theorem probe_lt {size : Nat} (start p : Nat) (positive : 0 < size) :
    probe size start p < size :=
  Nat.mod_lt _ positive

theorem probe_succ (size start p : Nat) :
    (probe size start p + 1) % size = probe size start (p + 1) := by
  simp [probe, Nat.add_assoc]

theorem probe_surjective {size : Nat} (start : Nat) {i : Nat}
    (below : i < size) : ∃ p, p < size ∧ probe size start p = i := by
  have positive : 0 < size := Nat.zero_lt_of_lt below
  refine ⟨(i + (size - start % size)) % size, Nat.mod_lt _ positive, ?_⟩
  have startBelow : start % size < size := Nat.mod_lt _ positive
  calc
    probe size start ((i + (size - start % size)) % size)
        = (start % size + (i + (size - start % size))) % size := by
      simp [probe, Nat.add_mod]
    _ = (i + size) % size := by congr 1; omega
    _ = i := by rw [Nat.add_mod_right, Nat.mod_eq_of_lt below]

/-- The first `p` probes of `k` all meet slots held by other keys. -/
def Passed (size : Nat) (home : K → Nat) (key : Nat → Option K)
    (k : K) (p : Nat) : Prop :=
  ∀ q, q < p → ∃ other, key (probe size (home k) q) = some other ∧ other ≠ k

/-- Every stored key lies on its own probe sequence, behind other keys. -/
def Layout (size : Nat) (home : K → Nat) (key : Nat → Option K) : Prop :=
  ∀ i k, i < size → key i = some k →
    ∃ p, p < size ∧ probe size (home k) p = i ∧ Passed size home key k p

variable {size : Nat} {home : K → Nat} {key later : Nat → Option K}

theorem Passed.zero (k : K) : Passed size home key k 0 := by
  intro q below
  omega

theorem Passed.succ {k other : K} {p : Nat}
    (passed : Passed size home key k p)
    (held : key (probe size (home k) p) = some other) (different : other ≠ k) :
    Passed size home key k (p + 1) := by
  intro q below
  rcases Nat.lt_succ_iff_lt_or_eq.mp below with earlier | rfl
  · exact passed q earlier
  · exact ⟨other, held, different⟩

/-- Slots that keep what they hold keep every passed prefix. -/
theorem Passed.mono {k : K} {p : Nat}
    (kept : ∀ i held, key i = some held → later i = some held)
    (passed : Passed size home key k p) : Passed size home later k p := by
  intro q below
  obtain ⟨other, held, different⟩ := passed q below
  exact ⟨other, kept _ _ held, different⟩

theorem Layout.empty : Layout size home (fun _ => (none : Option K)) := by
  intro i k _ held
  cases held

theorem Layout.unique (layout : Layout size home key) {i j : Nat} {k : K}
    (iBelow : i < size) (jBelow : j < size)
    (atI : key i = some k) (atJ : key j = some k) : i = j := by
  obtain ⟨p, pBelow, pHere, pPassed⟩ := layout i k iBelow atI
  obtain ⟨q, qBelow, qHere, qPassed⟩ := layout j k jBelow atJ
  rcases Nat.lt_trichotomy p q with before | rfl | after
  · obtain ⟨other, held, different⟩ := qPassed p before
    rw [pHere, atI] at held
    exact absurd (Option.some.inj held).symm different
  · exact pHere.symm.trans qHere
  · obtain ⟨other, held, different⟩ := pPassed q after
    rw [qHere, atJ] at held
    exact absurd (Option.some.inj held).symm different

/-- Claiming a free slot at the end of a passed prefix keeps the layout. -/
theorem Layout.claim (layout : Layout size home key) {k : K} {p : Nat}
    (below : p < size) (passed : Passed size home key k p)
    (free : key (probe size (home k) p) = none) :
    Layout size home
      (Function.update key (probe size (home k) p) (some k)) := by
  have kept : ∀ i held, key i = some held →
      Function.update key (probe size (home k) p) (some k) i = some held := by
    intro i held stored
    have elsewhere : i ≠ probe size (home k) p := by
      rintro rfl
      rw [free] at stored
      cases stored
    rw [Function.update_of_ne elsewhere, stored]
  intro i stored iBelow heldAt
  by_cases here : i = probe size (home k) p
  · subst here
    rw [Function.update_self] at heldAt
    cases heldAt
    exact ⟨p, below, rfl, passed.mono kept⟩
  · rw [Function.update_of_ne here] at heldAt
    obtain ⟨q, qBelow, qHere, qPassed⟩ := layout i stored iBelow heldAt
    exact ⟨q, qBelow, qHere, qPassed.mono kept⟩

theorem Passed.stop_unique {k : K} {p q : Nat}
    (pPassed : Passed size home key k p) (qPassed : Passed size home key k q)
    (pStop : key (probe size (home k) p) = none ∨
      key (probe size (home k) p) = some k)
    (qStop : key (probe size (home k) q) = none ∨
      key (probe size (home k) q) = some k) : p = q := by
  have first : ∀ {a b : Nat}, Passed size home key k b →
      (key (probe size (home k) a) = none ∨
        key (probe size (home k) a) = some k) → b ≤ a := by
    intro a b passed stop
    by_contra beyond
    obtain ⟨other, held, different⟩ := passed a (by omega)
    rcases stop with free | mine
    · rw [free] at held
      cases held
    · rw [mine] at held
      exact different (Option.some.inj held).symm
  exact Nat.le_antisymm (first pPassed qStop) (first qPassed pStop)

/-- When a prefix stops at a free slot, the key is stored nowhere. -/
theorem Layout.absent_of_stop (layout : Layout size home key) {k : K} {p : Nat}
    (passed : Passed size home key k p)
    (free : key (probe size (home k) p) = none) :
    ∀ i, i < size → key i ≠ some k := by
  intro i below stored
  obtain ⟨q, qBelow, qHere, qPassed⟩ := layout i k below stored
  have same : p = q :=
    passed.stop_unique qPassed (.inl free) (.inr (by rw [qHere, stored]))
  rw [same, qHere, stored] at free
  cases free

/-- When every probe is passed, the key is stored nowhere. -/
theorem Layout.absent_of_passed_all (layout : Layout size home key) {k : K}
    (passed : Passed size home key k size) :
    ∀ i, i < size → key i ≠ some k := by
  intro i below stored
  obtain ⟨q, qBelow, qHere, _⟩ := layout i k below stored
  obtain ⟨other, held, different⟩ := passed q qBelow
  rw [qHere, stored] at held
  exact different (Option.some.inj held).symm

/-- The slots of `[0, size)` that hold a key. -/
def occupied (size : Nat) (key : Nat → Option K) : Finset Nat :=
  (Finset.range size).filter (fun i => (key i).isSome)

theorem mem_occupied {i : Nat} :
    i ∈ occupied size key ↔ i < size ∧ ∃ k, key i = some k := by
  simp [occupied, Option.isSome_iff_exists]

theorem occupied_card_le : (occupied size key).card ≤ size := by
  calc
    (occupied size key).card ≤ (Finset.range size).card :=
      Finset.card_filter_le _ _
    _ = size := Finset.card_range size

theorem occupied_claim {i : Nat} (below : i < size) (free : key i = none)
    (k : K) :
    (occupied size (Function.update key i (some k))).card =
      (occupied size key).card + 1 := by
  have grown : occupied size (Function.update key i (some k)) =
      insert i (occupied size key) := by
    ext j
    rw [Finset.mem_insert, mem_occupied, mem_occupied]
    by_cases here : j = i
    · subst here
      simp [below]
    · simp [here]
  rw [grown, Finset.card_insert_of_notMem]
  intro member
  obtain ⟨_, _, stored⟩ := mem_occupied.mp member
  rw [free] at stored
  cases stored

theorem Passed.full {k : K} (passed : Passed size home key k size) :
    (occupied size key).card = size := by
  have everything : occupied size key = Finset.range size := by
    ext i
    rw [mem_occupied, Finset.mem_range]
    constructor
    · exact fun member => member.1
    · intro below
      obtain ⟨p, pBelow, here⟩ := probe_surjective (home k) below
      obtain ⟨other, held, _⟩ := passed p pBelow
      exact ⟨below, other, by rw [← here, held]⟩
  rw [everything, Finset.card_range]

theorem Layout.card_keys [DecidableEq K] (layout : Layout size home key)
    {keys : Finset K}
    (exactly : ∀ k, k ∈ keys ↔ ∃ i, i < size ∧ key i = some k) :
    (occupied size key).card = keys.card := by
  refine Finset.card_bij
    (fun i member => (key i).get (Finset.mem_filter.mp member).2) ?_ ?_ ?_
  · intro i member
    obtain ⟨below, _, _⟩ := mem_occupied.mp member
    exact (exactly _).mpr ⟨i, below, by simp⟩
  · intro i iMember j jMember same
    obtain ⟨iBelow, _, _⟩ := mem_occupied.mp iMember
    obtain ⟨jBelow, _, _⟩ := mem_occupied.mp jMember
    exact layout.unique iBelow jBelow (Option.some_get _).symm
      (by rw [same, Option.some_get])
  · intro k member
    obtain ⟨i, below, stored⟩ := (exactly k).mp member
    exact ⟨i, mem_occupied.mpr ⟨below, k, stored⟩, by simp [stored]⟩

/-- A full cycle of foreign keys together with `k` needs more than `size`
distinct keys. -/
theorem Layout.not_passed_all [DecidableEq K] (layout : Layout size home key)
    {k : K} {bound : Finset K} (mine : k ∈ bound) (small : bound.card ≤ size)
    (stored : ∀ i other, i < size → key i = some other → other ∈ bound) :
    ¬ Passed size home key k size := by
  classical
  intro passed
  let keys := bound.filter (fun other => ∃ i, i < size ∧ key i = some other)
  have exactly : ∀ other, other ∈ keys ↔ ∃ i, i < size ∧ key i = some other := by
    intro other
    constructor
    · exact fun member => (Finset.mem_filter.mp member).2
    · rintro ⟨i, below, held⟩
      exact Finset.mem_filter.mpr ⟨stored i other below held, i, below, held⟩
  have full : keys.card = size := by
    rw [← layout.card_keys exactly, passed.full]
  have absent : k ∉ keys := by
    intro member
    obtain ⟨i, below, held⟩ := (exactly k).mp member
    exact layout.absent_of_passed_all passed i below held
  have strict : keys ⊂ bound :=
    (Finset.ssubset_iff_of_subset (Finset.filter_subset _ _)).mpr
      ⟨k, mine, absent⟩
  have fewer := Finset.card_lt_card strict
  omega

section Search

variable [DecidableEq K]

/-- The probe loop: the first slot from `i` on, within `fuel` slots, that is
free or holds `k`. -/
def search (size : Nat) (key : Nat → Option K) (k : K) : Nat → Nat → Option Nat
  | 0, _ => none
  | fuel + 1, i =>
      if key i = none ∨ key i = some k then some i
      else search size key k fuel ((i + 1) % size)

theorem search_from {k : K} {fuel p : Nat} (within : p + fuel = size)
    (passed : Passed size home key k p) :
    match search size key k fuel (probe size (home k) p) with
    | some i => ∃ q, q < size ∧ i = probe size (home k) q ∧
        Passed size home key k q ∧ (key i = none ∨ key i = some k)
    | none => Passed size home key k size := by
  induction fuel generalizing p with
  | zero =>
      have whole : p = size := by omega
      subst whole
      simpa [search] using passed
  | succ fuel ih =>
      rw [search]
      by_cases stop : key (probe size (home k) p) = none ∨
          key (probe size (home k) p) = some k
      · rw [if_pos stop]
        exact ⟨p, by omega, rfl, passed, stop⟩
      · rw [if_neg stop, probe_succ]
        apply ih (by omega)
        cases held : key (probe size (home k) p) with
        | none => exact absurd (.inl held) stop
        | some other =>
            refine passed.succ held ?_
            rintro rfl
            exact stop (.inr held)

theorem search_spec (size : Nat) (home : K → Nat) (key : Nat → Option K)
    (k : K) :
    match search size key k size (probe size (home k) 0) with
    | some i => ∃ q, q < size ∧ i = probe size (home k) q ∧
        Passed size home key k q ∧ (key i = none ∨ key i = some k)
    | none => Passed size home key k size :=
  search_from (by omega) (Passed.zero k)

theorem Layout.search_stored (layout : Layout size home key) {k : K} {i : Nat}
    (below : i < size) (stored : key i = some k) :
    search size key k size (probe size (home k) 0) = some i := by
  have spec := search_spec size home key k
  obtain ⟨p, pBelow, pHere, pPassed⟩ := layout i k below stored
  cases found : search size key k size (probe size (home k) 0) with
  | none =>
      rw [found] at spec
      exact absurd stored (layout.absent_of_passed_all spec i below)
  | some j =>
      rw [found] at spec
      obtain ⟨q, _, jHere, qPassed, stop⟩ := spec
      subst jHere
      have same : p = q :=
        pPassed.stop_unique qPassed (.inr (by rw [pHere, stored])) stop
      rw [← same, pHere]

end Search

end OpenAddressing
