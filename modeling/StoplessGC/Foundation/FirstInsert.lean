import StoplessGC.Foundation.OpenAddressing
import Mathlib.Data.Finset.Dedup
import Mathlib.Data.Finset.Insert
import Mathlib.Data.List.Infix

/-!
# Maps in which the first insert wins

What such a map stands for is its history: the inserts since it was last
cleared, of which the first one with a key decides.  The second half of the
file keeps the map of a history in a table with open addressing, as long as
there is a slot for every key.
-/

namespace FirstInsert

variable {K V : Type*}

inductive Event (K V : Type*) where
  | insert (k : K) (v : V)
  | clear

/-- The inserts since the last clear, the oldest first. -/
def sinceClear (history : List (Event K V)) : List (K × V) :=
  history.foldl
    (fun inserts event =>
      match event with
      | .insert k v => inserts ++ [(k, v)]
      | .clear => []) []

section Snoc

variable (history : List (Event K V))

@[simp] theorem sinceClear_insert (k : K) (v : V) :
    sinceClear (history ++ [.insert k v]) = sinceClear history ++ [(k, v)] := by
  simp [sinceClear, List.foldl_append]

@[simp] theorem sinceClear_clear :
    sinceClear (history ++ [.clear]) = [] := by
  simp [sinceClear, List.foldl_append]

end Snoc

variable [DecidableEq K]

/-- What the first insert has stored. -/
def first (history : List (Event K V)) (k : K) : Option V :=
  ((sinceClear history).find? (fun insert => insert.1 = k)).map Prod.snd

/-- The distinct keys since the last clear. -/
def keys (history : List (Event K V)) : Finset K :=
  ((sinceClear history).map Prod.fst).toFinset

/-- Between two clears there are at most as many keys as slots. -/
def Fits (capacity : Nat) (history : List (Event K V)) : Prop :=
  ∀ before ∈ history.inits, (keys before).card ≤ capacity

instance (capacity : Nat) (history : List (Event K V)) :
    Decidable (Fits capacity history) :=
  inferInstanceAs (Decidable (∀ before ∈ history.inits, _))

theorem Fits.last {capacity : Nat} {history : List (Event K V)}
    (fits : Fits capacity history) : (keys history).card ≤ capacity :=
  fits history ((List.mem_inits _ _).mpr List.prefix_rfl)

theorem Fits.before {capacity : Nat} {history later : List (Event K V)}
    (fits : Fits capacity (history ++ later)) : Fits capacity history := by
  intro before member
  have earlier : before <+: history := (List.mem_inits _ _).mp member
  exact fits before
    ((List.mem_inits _ _).mpr (earlier.trans (List.prefix_append _ _)))

section Snoc

variable (history : List (Event K V)) (k : K) (v : V)

@[simp] theorem first_clear : first (history ++ [.clear]) k = none := by
  simp [first]

@[simp] theorem keys_clear : keys (history ++ [.clear]) = ∅ := by
  simp [keys]

@[simp] theorem keys_insert :
    keys (history ++ [.insert k v]) = insert k (keys history) := by
  ext other
  simp [keys]

theorem mem_keys : k ∈ keys history ↔ (first history k).isSome := by
  simp [keys, first]

/-- Whoever comes second changes nothing. -/
theorem first_insert_known {k : K} (known : k ∈ keys history) :
    first (history ++ [.insert k v]) = first history := by
  funext other
  obtain ⟨w, there⟩ := Option.isSome_iff_exists.mp
    ((mem_keys history k).mp known)
  obtain ⟨found, here, rfl⟩ := Option.map_eq_some_iff.mp there
  simp only [first, sinceClear_insert, List.find?_append]
  by_cases same : k = other
  · subst same
    rw [here, Option.some_or]
  · simp [same]

theorem first_insert_new {k : K} (new : k ∉ keys history) :
    first (history ++ [.insert k v]) =
      Function.update (first history) k (some v) := by
  funext other
  have absent : (sinceClear history).find? (fun insert => insert.1 = k) =
      none := by
    by_contra found
    rw [mem_keys, first, Option.isSome_map] at new
    exact new (Option.ne_none_iff_isSome.mp found)
  simp only [first, sinceClear_insert, List.find?_append]
  by_cases same : other = k
  · subst same
    rw [absent]
    simp
  · rw [Function.update_of_ne same]
    simp [first, Ne.symm same]

end Snoc

open OpenAddressing

/-- The slots hold the pairs of the map and no others. -/
structure Holds (size : Nat) (home : K → Nat) (key : Nat → Option K)
    (value : Nat → V) (map : K → Option V) : Prop where
  layout : Layout size home key
  pairs : ∀ k v, map k = some v ↔
    ∃ i, i < size ∧ key i = some k ∧ value i = v

namespace Holds

variable {size : Nat} {home : K → Nat} {key : Nat → Option K}
  {value : Nat → V} {map : K → Option V} {history : List (Event K V)}

omit [DecidableEq K] in
theorem empty : Holds size home (fun _ => none) value (fun _ : K => none) where
  layout := Layout.empty
  pairs := by simp

theorem search_some (holds : Holds size home key value map) {k : K} {v : V}
    (mapped : map k = some v) :
    ∃ i, search size key k size (probe size (home k) 0) = some i ∧
      key i = some k ∧ value i = v := by
  obtain ⟨i, below, stored, there⟩ := (holds.pairs k v).mp mapped
  exact ⟨i, holds.layout.search_stored below stored, stored, there⟩

/-- Behind the stop of a probe loop there is nothing. -/
theorem search_none (holds : Holds size home key value map) {k : K}
    (unmapped : map k = none) {i : Nat}
    (stopped : search size key k size (probe size (home k) 0) = some i) :
    key i = none ∧ ∃ p, p < size ∧ i = probe size (home k) p ∧
      Passed size home key k p := by
  have spec := search_spec size home key k
  rw [stopped] at spec
  obtain ⟨p, below, here, passed, free | mine⟩ := spec
  · exact ⟨free, p, below, here, passed⟩
  · have inside : i < size := by
      rw [here]
      exact probe_lt _ _ (by omega)
    have mapped := (holds.pairs k (value i)).mpr ⟨i, inside, mine, rfl⟩
    rw [unmapped] at mapped
    cases mapped

theorem claim (holds : Holds size home key value map) {k : K} {p : Nat}
    (unmapped : map k = none) (below : p < size)
    (passed : Passed size home key k p)
    (free : key (probe size (home k) p) = none) (v : V) :
    Holds size home (Function.update key (probe size (home k) p) (some k))
      (Function.update value (probe size (home k) p) v)
      (Function.update map k (some v)) where
  layout := holds.layout.claim below passed free
  pairs := by
    have inside : probe size (home k) p < size := probe_lt _ _ (by omega)
    have absent : ∀ i, i < size → key i ≠ some k :=
      holds.layout.absent_of_stop passed free
    generalize probe size (home k) p = slot at free inside
    intro other w
    constructor
    · intro mapped
      by_cases same : other = k
      · subst same
        rw [Function.update_self] at mapped
        cases mapped
        exact ⟨slot, inside, by simp, by simp⟩
      · rw [Function.update_of_ne same] at mapped
        obtain ⟨i, iBelow, stored, there⟩ := (holds.pairs other w).mp mapped
        have elsewhere : i ≠ slot := by
          rintro rfl
          rw [free] at stored
          cases stored
        refine ⟨i, iBelow, ?_, ?_⟩
        · rw [Function.update_of_ne elsewhere, stored]
        · rw [Function.update_of_ne elsewhere, there]
    · rintro ⟨i, iBelow, stored, there⟩
      by_cases here : i = slot
      · subst here
        rw [Function.update_self] at stored there
        cases stored
        rw [Function.update_self, there]
      · rw [Function.update_of_ne here] at stored there
        have different : other ≠ k := by
          rintro rfl
          exact absent i iBelow stored
        rw [Function.update_of_ne different]
        exact (holds.pairs other w).mpr ⟨i, iBelow, stored, there⟩

theorem mem_keys_iff (holds : Holds size home key value (first history))
    (k : K) : k ∈ keys history ↔ ∃ i, i < size ∧ key i = some k := by
  rw [mem_keys, Option.isSome_iff_exists]
  constructor
  · rintro ⟨v, mapped⟩
    obtain ⟨i, below, stored, _⟩ := (holds.pairs k v).mp mapped
    exact ⟨i, below, stored⟩
  · rintro ⟨i, below, stored⟩
    exact ⟨value i, (holds.pairs k _).mpr ⟨i, below, stored, rfl⟩⟩

/-- As long as there is room, the probe loop for a new key ends at a free
slot.  A table without a free slot has none to spare for a new key. -/
theorem search_new (holds : Holds size home key value (first history)) {k : K}
    (new : k ∉ keys history) (room : (insert k (keys history)).card ≤ size) :
    ∃ p, search size key k size (probe size (home k) 0) =
        some (probe size (home k) p) ∧
      p < size ∧ Passed size home key k p ∧
      key (probe size (home k) p) = none := by
  have unmapped : first history k = none := by
    rw [mem_keys] at new
    exact Option.not_isSome_iff_eq_none.mp new
  cases stop : search size key k size (probe size (home k) 0) with
  | some i =>
      obtain ⟨free, p, below, rfl, passed⟩ := holds.search_none unmapped stop
      exact ⟨p, rfl, below, passed, free⟩
  | none =>
      have spec := search_spec size home key k
      rw [stop] at spec
      refine absurd spec (holds.layout.not_passed_all
        (Finset.mem_insert_self k (keys history)) room ?_)
      intro i other below stored
      exact Finset.mem_insert_of_mem
        ((holds.mem_keys_iff other).mpr ⟨i, below, stored⟩)

end Holds

end FirstInsert
