import Mathlib.Data.Finset.Card

/-!
# Tables that grow on the first use of a key

`intern` looks an entry up by its key and appends it where there is none.  An
entry that is found need not be the one that was asked for, but it has the same
key.  `Issued` relates a table to all requests so far and the positions that
they got.
-/

namespace InternTable

variable {α κ : Type*} [DecidableEq κ] (key : α → κ)

def position (table : List α) (x : α) : Option Nat :=
  table.findIdx? fun y => decide (key y = key x)

/-- The position of the entry with the key of `x`, which is `x` if there was
none, and the table afterwards. -/
def intern (table : List α) (x : α) : Nat × List α :=
  match position key table x with
  | some i => (i, table)
  | none => (table.length, table ++ [x])

/-- The first entry with a key. -/
def first (xs : List α) (k : κ) : Option α :=
  xs.find? fun y => decide (key y = k)

variable {key} {table : List α} {x y : α} {i j : Nat}

theorem intern_cases (table : List α) (x : α) :
    (∃ i y, intern key table x = (i, table) ∧ table[i]? = some y ∧
      key y = key x) ∨
    (intern key table x = (table.length, table ++ [x]) ∧
      ∀ y ∈ table, key y ≠ key x) := by
  unfold intern
  cases found : position key table x with
  | some i =>
      obtain ⟨below, same, -⟩ := List.findIdx?_eq_some_iff_getElem.mp found
      exact .inl ⟨i, table[i], rfl, List.getElem?_eq_getElem below,
        of_decide_eq_true same⟩
  | none =>
      refine .inr ⟨rfl, ?_⟩
      intro y member same
      have missed := List.findIdx?_eq_none_iff.mp found y member
      exact of_decide_eq_false missed same

theorem first_append (xs ys : List α) (k : κ) :
    first key (xs ++ ys) k = (first key xs k).or (first key ys k) :=
  List.find?_append

theorem first_key {xs : List α} {k : κ} (found : first key xs k = some x) :
    key x = k := by
  have same := List.find?_some found
  exact of_decide_eq_true same

theorem first_append_known {y : α} (member : y ∈ table)
    (same : key y = key x) (k : κ) :
    first key (table ++ [x]) k = first key table k := by
  rw [first_append]
  cases found : first key table k with
  | some z => rfl
  | none =>
      have missed := List.find?_eq_none.mp found y member
      have other : key x ≠ k := by
        rw [← same]
        simpa using missed
      simp [first, other]

/-- A table after the requests of `log`, each with the position that it got. -/
structure Issued (key : α → κ) (table : List α) (log : List (α × Nat)) :
    Prop where
  distinct : (table.map key).Nodup
  named : ∀ x i, (x, i) ∈ log → ∃ y, table[i]? = some y ∧ key y = key x
  dense : ∀ i, i < table.length → ∃ x, (x, i) ∈ log
  first : ∀ k, first key table k = first key (log.map Prod.fst) k

namespace Issued

variable {log : List (α × Nat)}

theorem nil : Issued key [] [] where
  distinct := List.nodup_nil
  named := by
    intro x i member
    cases member
  dense := by
    intro i below
    cases below
  first := fun _ => rfl

theorem unique (issued : Issued key table log) {y z : α}
    (left : table[i]? = some y) (right : table[j]? = some z)
    (same : key y = key z) : i = j := by
  have below : i < (table.map key).length := by
    rw [List.length_map]
    exact (List.getElem?_eq_some_iff.mp left).1
  apply (List.getElem?_inj below issued.distinct).mp
  rw [List.getElem?_map, List.getElem?_map, left, right]
  exact congrArg some same

theorem found (issued : Issued key table log) (there : table[i]? = some y)
    (same : key y = key x) : Issued key table (log ++ [(x, i)]) where
  distinct := issued.distinct
  named := by
    intro z j member
    rcases List.mem_append.mp member with earlier | now
    · exact issued.named z j earlier
    · obtain ⟨rfl, rfl⟩ := Prod.mk.inj (List.mem_singleton.mp now)
      exact ⟨y, there, same⟩
  dense := by
    intro j below
    obtain ⟨z, earlier⟩ := issued.dense j below
    exact ⟨z, List.mem_append_left _ earlier⟩
  first := by
    intro k
    have known := first_append_known (List.mem_of_getElem? there) same k
    rw [← known, first_append, issued.first, ← first_append, List.map_append]
    rfl

theorem fresh (issued : Issued key table log)
    (new : ∀ y ∈ table, key y ≠ key x) :
    Issued key (table ++ [x]) (log ++ [(x, table.length)]) where
  distinct := by
    rw [List.map_append]
    refine List.nodup_append.mpr ⟨issued.distinct, by simp, ?_⟩
    intro k member l single
    obtain ⟨y, inTable, rfl⟩ := List.mem_map.mp member
    rw [List.map_singleton, List.mem_singleton] at single
    rw [single]
    exact new y inTable
  named := by
    intro z j member
    rcases List.mem_append.mp member with earlier | now
    · obtain ⟨y, there, same⟩ := issued.named z j earlier
      have below := (List.getElem?_eq_some_iff.mp there).1
      exact ⟨y, (List.getElem?_append_left below).trans there, same⟩
    · obtain ⟨rfl, rfl⟩ := Prod.mk.inj (List.mem_singleton.mp now)
      exact ⟨z, List.getElem?_concat_length, rfl⟩
  dense := by
    intro j below
    rw [List.length_append, List.length_singleton] at below
    rcases Nat.lt_succ_iff_lt_or_eq.mp below with old | rfl
    · obtain ⟨z, earlier⟩ := issued.dense j old
      exact ⟨z, List.mem_append_left _ earlier⟩
    · exact ⟨x, List.mem_append_right _ (List.mem_singleton.mpr rfl)⟩
  first := by
    intro k
    rw [first_append, issued.first, ← first_append, List.map_append]
    rfl

theorem intern (issued : Issued key table log) (x : α) :
    Issued key (intern key table x).2 (log ++ [(x, (intern key table x).1)]) := by
  rcases @intern_cases _ _ _ key table x with
    ⟨i, y, step, there, same⟩ | ⟨step, new⟩
  · rw [step]
    exact issued.found there same
  · rw [step]
    exact issued.fresh new

/-- Requests get one position exactly if they have one key. -/
theorem position_eq_iff (issued : Issued key table log)
    (left : (x, i) ∈ log) (right : (y, j) ∈ log) :
    i = j ↔ key x = key y := by
  obtain ⟨z, atLeft, sameLeft⟩ := issued.named x i left
  obtain ⟨w, atRight, sameRight⟩ := issued.named y j right
  constructor
  · rintro rfl
    obtain rfl : z = w := Option.some.inj (atLeft.symm.trans atRight)
    rw [← sameLeft, sameRight]
  · intro same
    exact issued.unique atLeft atRight (by rw [sameLeft, same, sameRight])

theorem position_lt (issued : Issued key table log) (member : (x, i) ∈ log) :
    i < table.length := by
  obtain ⟨y, there, -⟩ := issued.named x i member
  exact (List.getElem?_eq_some_iff.mp there).1

/-- At the position of a request stands the first request with its key. -/
theorem getElem?_eq_first (issued : Issued key table log)
    (member : (x, i) ∈ log) :
    table[i]? = InternTable.first key (log.map Prod.fst) (key x) := by
  obtain ⟨y, there, same⟩ := issued.named x i member
  obtain ⟨z, found⟩ : ∃ z, InternTable.first key table (key x) = some z := by
    apply Option.isSome_iff_exists.mp
    apply List.find?_isSome.mpr
    exact ⟨y, List.mem_of_getElem? there, decide_eq_true same⟩
  have sameZ := first_key found
  obtain ⟨j, atZ⟩ := List.getElem?_of_mem (List.mem_of_find?_eq_some found)
  obtain rfl := issued.unique there atZ (same.trans sameZ.symm)
  rw [atZ, ← issued.first, found]

theorem mem_keys (issued : Issued key table log) (k : κ) :
    k ∈ table.map key ↔ k ∈ (log.map Prod.fst).map key := by
  constructor
  · intro member
    obtain ⟨y, inTable, rfl⟩ := List.mem_map.mp member
    obtain ⟨i, there⟩ := List.getElem?_of_mem inTable
    obtain ⟨x, logged⟩ := issued.dense i (List.getElem?_eq_some_iff.mp there).1
    obtain ⟨z, again, same⟩ := issued.named x i logged
    obtain rfl : z = y := Option.some.inj (again.symm.trans there)
    exact List.mem_map.mpr ⟨x, List.mem_map.mpr ⟨_, logged, rfl⟩, same.symm⟩
  · intro member
    obtain ⟨x, asked, rfl⟩ := List.mem_map.mp member
    obtain ⟨⟨_, i⟩, logged, rfl⟩ := List.mem_map.mp asked
    obtain ⟨y, there, same⟩ := issued.named _ i logged
    exact List.mem_map.mpr ⟨y, List.mem_of_getElem? there, same⟩

theorem length_eq (issued : Issued key table log) :
    table.length = ((log.map Prod.fst).map key).toFinset.card := by
  have same : (table.map key).toFinset =
      ((log.map Prod.fst).map key).toFinset := by
    ext k
    rw [List.mem_toFinset, List.mem_toFinset, issued.mem_keys]
  rw [← same, List.toFinset_card_of_nodup issued.distinct, List.length_map]

end Issued

/-- The same with numbers from 1. -/
structure Numbered (key : α → κ) (table : List α) (ids : List (α × Nat)) :
    Prop where
  positive : ∀ x id, (x, id) ∈ ids → 1 ≤ id
  issued : Issued key table (ids.map fun e => (e.1, e.2 - 1))

namespace Numbered

variable {ids : List (α × Nat)}

theorem nil : Numbered key [] [] where
  positive := by
    intro x id member
    cases member
  issued := .nil

theorem intern (numbered : Numbered key table ids) (x : α) :
    Numbered key (intern key table x).2
      (ids ++ [(x, (intern key table x).1 + 1)]) where
  positive := by
    intro y id member
    rcases List.mem_append.mp member with earlier | now
    · exact numbered.positive y id earlier
    · obtain ⟨-, rfl⟩ := Prod.mk.inj (List.mem_singleton.mp now)
      exact Nat.le_add_left 1 _
  issued := by
    rw [List.map_append]
    exact numbered.issued.intern x

theorem logged {id : Nat} (member : (x, id) ∈ ids) :
    (x, id - 1) ∈ ids.map fun e => (e.1, e.2 - 1) :=
  List.mem_map.mpr ⟨(x, id), member, rfl⟩

theorem requests (ids : List (α × Nat)) :
    (ids.map fun e => (e.1, e.2 - 1)).map Prod.fst = ids.map Prod.fst := by
  rw [List.map_map]
  rfl

/-- The numbers are those from 1 to the length of the table. -/
theorem id_iff (numbered : Numbered key table ids) (id : Nat) :
    (∃ x, (x, id) ∈ ids) ↔ 1 ≤ id ∧ id ≤ table.length := by
  constructor
  · rintro ⟨x, member⟩
    have positive := numbered.positive x id member
    have below := numbered.issued.position_lt (logged member)
    exact ⟨positive, by omega⟩
  · rintro ⟨positive, below⟩
    obtain ⟨x, member⟩ := numbered.issued.dense (id - 1) (by omega)
    obtain ⟨⟨x', id'⟩, there, entry⟩ := List.mem_map.mp member
    have positive' := numbered.positive x' id' there
    have position : id' - 1 = id - 1 := (Prod.mk.inj entry).2
    obtain rfl : id' = id := by omega
    exact ⟨x', there⟩

theorem id_eq_iff (numbered : Numbered key table ids)
    (left : (x, i) ∈ ids) (right : (y, j) ∈ ids) :
    i = j ↔ key x = key y := by
  have positiveI := numbered.positive x i left
  have positiveJ := numbered.positive y j right
  rw [← numbered.issued.position_eq_iff (logged left) (logged right)]
  omega

theorem entry (numbered : Numbered key table ids) {id : Nat}
    (member : (x, id) ∈ ids) :
    ∃ y, table[id - 1]? = some y ∧
      first key (ids.map Prod.fst) (key x) = some y := by
  obtain ⟨y, there, -⟩ := numbered.issued.named x (id - 1) (logged member)
  have found := numbered.issued.getElem?_eq_first (logged member)
  rw [there, requests] at found
  exact ⟨y, there, found.symm⟩

theorem mem_keys (numbered : Numbered key table ids) (k : κ) :
    k ∈ table.map key ↔ k ∈ (ids.map Prod.fst).map key := by
  rw [numbered.issued.mem_keys, requests]

theorem length_eq (numbered : Numbered key table ids) :
    table.length = ((ids.map Prod.fst).map key).toFinset.card := by
  rw [numbered.issued.length_eq, requests]

theorem length_lt (numbered : Numbered key table ids)
    (new : key x ∉ table.map key) (later : List α) :
    table.length < ((ids.map Prod.fst ++ x :: later).map key).toFinset.card := by
  have more : insert (key x) ((ids.map Prod.fst).map key).toFinset ⊆
      ((ids.map Prod.fst ++ x :: later).map key).toFinset := by
    intro k member
    rw [List.map_append, List.toFinset_append, List.map_cons,
      List.toFinset_cons]
    rcases Finset.mem_insert.mp member with rfl | earlier
    · exact Finset.mem_union_right _ (Finset.mem_insert_self _ _)
    · exact Finset.mem_union_left _ earlier
  have larger := Finset.card_le_card more
  rw [numbered.mem_keys, ← List.mem_toFinset] at new
  rw [Finset.card_insert_of_notMem new, ← numbered.length_eq] at larger
  exact larger

end Numbered

end InternTable
