import StoplessGC.ForwardTable
import StoplessGC.Foundation.OpenAddressing

/-!
# The forwarding table is a finite map

`Spec` is the map the table stands for, together with the set of keys that
own a slot.  A deleted key keeps its slot, so it stays in the key set while
the map forgets it.  `Refines` ties a table state to a `Spec`; each call
preserves it, and so does every sequence of calls.
-/

namespace StoplessGC

namespace ForwardTable

open OpenAddressing

/-- The key stored in a slot. -/
def Table.key (t : Table) (i : Nat) : Option Nat :=
  if (t.slot i).fromAddr = 0 then none else some (t.slot i).fromAddr

/-- The mapping a slot publishes. -/
def Slot.entry (content : Slot) : Option (Nat × Nat) :=
  if content.newAddr = 0 then none else some (content.newAddr, content.newLen)

namespace Table

theorem key_eq_none {t : Table} {i : Nat} :
    t.key i = none ↔ (t.slot i).fromAddr = 0 := by
  unfold key
  split <;> simp_all

theorem key_eq_some {t : Table} {i k : Nat} :
    t.key i = some k ↔ (t.slot i).fromAddr = k ∧ k ≠ 0 := by
  unfold key
  constructor
  · intro stored
    split at stored
    · cases stored
    · cases stored
      exact ⟨rfl, by assumption⟩
  · rintro ⟨rfl, nonzero⟩
    rw [if_neg nonzero]

theorem ne_key_of_free {t : Table} {i k : Nat} (free : t.key i = none)
    (nonzero : k ≠ 0) : (t.slot i).fromAddr ≠ k := by
  rw [key_eq_none.mp free]
  exact nonzero.symm

@[simp] theorem zeroed_key (size : Nat) :
    (zeroed size).key = fun _ => none := by
  funext i
  simp [key, zeroed]

theorem setSlot_key (t : Table) (i : Nat) (content : Slot)
    (nonzero : content.fromAddr ≠ 0) :
    (t.setSlot i content).key =
      Function.update t.key i (some content.fromAddr) := by
  funext j
  by_cases here : j = i
  · subst here
    simp [key, nonzero]
  · simp [key, Function.update_of_ne here]

theorem blank_setSlot {t : Table} {i : Nat} {content : Slot}
    (blank : ∀ j, j < t.size → t.key j = none → t.slot j = ⟨0, 0, 0⟩)
    (nonzero : content.fromAddr ≠ 0) (j : Nat) (below : j < t.size)
    (free : (t.setSlot i content).key j = none) :
    (t.setSlot i content).slot j = ⟨0, 0, 0⟩ := by
  rw [t.setSlot_key i content nonzero] at free
  by_cases here : j = i
  · subst here
    rw [Function.update_self] at free
    cases free
  · rw [Function.update_of_ne here] at free
    rw [setSlot_slot, Function.update_of_ne here, blank j below free]

end Table

/-- What every probe loop relies on. -/
structure Laid (s : State) (t : Table) : Prop where
  size_eq : t.size = s.gCapacity
  capacity_pow : ∃ e, s.gCapacity = 2 ^ e
  layout : Layout t.size mix t.key

/-- The shape of an allocated table. -/
structure Shape (s : State) (t : Table) : Prop extends Laid s t where
  capacity_bytes : s.gCapacity * slotBytes < addressSpace
  count : s.gSize = (occupied t.size t.key).card
  blank : ∀ i, i < t.size → t.key i = none → t.slot i = ⟨0, 0, 0⟩

theorem probeLoop_eq_search (t : Table) (e key fuel i : Nat) :
    probeLoop t (2 ^ e - 1) key fuel i =
      search (2 ^ e) t.key key fuel i := by
  induction fuel generalizing i with
  | zero => rfl
  | succ fuel ih =>
      have stops : ((t.slot i).fromAddr = 0 ∨ (t.slot i).fromAddr = key) ↔
          (t.key i = none ∨ t.key i = some key) := by
        rw [Table.key_eq_none, Table.key_eq_some]
        constructor
        · rintro (free | mine)
          · exact .inl free
          · by_cases zero : key = 0
            · exact .inl (mine.trans zero)
            · exact .inr ⟨mine, zero⟩
        · rintro (free | ⟨mine, _⟩)
          · exact .inl free
          · exact .inr mine
      rw [probeLoop, search]
      by_cases stop : t.key i = none ∨ t.key i = some key
      · rw [if_pos (stops.mpr stop), if_pos stop]
      · rw [if_neg (fun met => stop (stops.mp met)), if_neg stop,
          Nat.and_two_pow_sub_one_eq_mod, ih]

namespace Laid

variable {s : State} {t : Table}

theorem size_pos (laid : Laid s t) : 0 < t.size := by
  obtain ⟨e, power⟩ := laid.capacity_pow
  rw [laid.size_eq, power]
  exact Nat.two_pow_pos e

theorem findSlot_eq_search (laid : Laid s t) (key : Nat) :
    findSlot s t key =
      search t.size t.key key t.size (probe t.size (mix key) 0) := by
  obtain ⟨e, power⟩ := laid.capacity_pow
  have whole : 2 ^ e - 1 + 1 = 2 ^ e := Nat.sub_add_cancel (Nat.two_pow_pos e)
  have start : mix key &&& (2 ^ e - 1) = probe (2 ^ e) (mix key) 0 := by
    rw [Nat.and_two_pow_sub_one_eq_mod, probe, Nat.add_zero]
  calc
    findSlot s t key =
        probeLoop t (2 ^ e - 1) key (2 ^ e - 1 + 1) (mix key &&& (2 ^ e - 1)) := by
      rw [findSlot, power]
    _ = search (2 ^ e) t.key key (2 ^ e) (probe (2 ^ e) (mix key) 0) := by
      rw [probeLoop_eq_search, whole, start]
    _ = search t.size t.key key t.size (probe t.size (mix key) 0) := by
      rw [laid.size_eq, power]

theorem findSlot_cases (laid : Laid s t) (key : Nat) :
    (∃ i, findSlot s t key = some i ∧ i < t.size ∧ t.key i = some key) ∨
    (∃ p, p < t.size ∧ Passed t.size mix t.key key p ∧
      findSlot s t key = some (probe t.size (mix key) p) ∧
      t.key (probe t.size (mix key) p) = none) ∨
    (findSlot s t key = none ∧ Passed t.size mix t.key key t.size) := by
  have spec := search_spec t.size mix t.key key
  rw [laid.findSlot_eq_search]
  cases found : search t.size t.key key t.size (probe t.size (mix key) 0) with
  | none =>
      rw [found] at spec
      exact .inr (.inr ⟨rfl, spec⟩)
  | some i =>
      rw [found] at spec
      obtain ⟨p, below, here, passed, free | mine⟩ := spec
      · subst here
        exact .inr (.inl ⟨p, below, passed, rfl, free⟩)
      · subst here
        exact .inl ⟨_, rfl, probe_lt _ _ laid.size_pos, mine⟩

theorem findSlot_stored (laid : Laid s t) {key i : Nat} (below : i < t.size)
    (stored : t.key i = some key) : findSlot s t key = some i := by
  rw [laid.findSlot_eq_search]
  exact laid.layout.search_stored below stored

theorem ftFind_stored (laid : Laid s t) (allocated : s.gTable = some t)
    {key i : Nat} (below : i < t.size) (stored : t.key i = some key) :
    ftFind s key = (t.slot i).entry := by
  have nonzero : (t.slot i).fromAddr ≠ 0 := by
    rw [(Table.key_eq_some.mp stored).1]
    exact (Table.key_eq_some.mp stored).2
  simp only [ftFind, allocated, laid.findSlot_stored below stored,
    if_neg nonzero, Slot.entry]

theorem ftFind_absent (laid : Laid s t) (allocated : s.gTable = some t)
    {key : Nat} (absent : ∀ i, i < t.size → t.key i ≠ some key) :
    ftFind s key = none := by
  rcases laid.findSlot_cases key with
    ⟨i, _, below, stored⟩ | ⟨p, _, _, found, free⟩ | ⟨found, _⟩
  · exact absurd stored (absent i below)
  · simp only [ftFind, allocated, found]
    rw [if_pos (Table.key_eq_none.mp free)]
  · simp only [ftFind, allocated, found]

end Laid

theorem Shape.setSlot {s : State} {t : Table} (shape : Shape s t) {i n : Nat}
    {content : Slot} (nonzero : content.fromAddr ≠ 0)
    (layout : Layout t.size mix (t.setSlot i content).key)
    (count : n = (occupied t.size (t.setSlot i content).key).card) :
    Shape { s with gTable := some (t.setSlot i content), gSize := n }
      (t.setSlot i content) where
  size_eq := shape.size_eq
  capacity_pow := shape.capacity_pow
  capacity_bytes := shape.capacity_bytes
  layout := layout
  count := count
  blank := Table.blank_setSlot shape.blank nonzero

/-- The map a table stands for, and the keys that own a slot. -/
structure Spec where
  map : Nat → Option (Nat × Nat)
  keys : Finset Nat

namespace Spec

def empty : Spec := { map := fun _ => none, keys := ∅ }

/-- `insert` overwrites; a capability with address zero removes. -/
def insert (m : Spec) (key : Nat) (newCap : Cap) : Spec :=
  { map := Function.update m.map key
      (Slot.entry ⟨key, newCap.address, newCap.length⟩)
    keys := Insert.insert key m.keys }

/-- `cas_insert` adds only if absent. -/
def casInsert (m : Spec) (key : Nat) (newCap : Cap) : Spec :=
  match m.map key with
  | some _ => m
  | none => m.insert key newCap

end Spec

/-- A slot array that stands for the map. -/
structure Table.Holds (t : Table) (m : Spec) : Prop where
  power : ∃ e, t.size = 2 ^ e
  layout : Layout t.size mix t.key
  keys : ∀ k, k ∈ m.keys ↔ ∃ i, i < t.size ∧ t.key i = some k
  entries : ∀ {i k}, i < t.size → t.key i = some k →
    m.map k = (t.slot i).entry
  outside : ∀ k, k ∉ m.keys → m.map k = none

namespace Table.Holds

variable {t : Table} {m : Spec}

theorem unmapped (holds : t.Holds m) {key : Nat}
    (absent : ∀ i, i < t.size → t.key i ≠ some key) : m.map key = none := by
  apply holds.outside
  intro owned
  obtain ⟨i, below, stored⟩ := (holds.keys key).mp owned
  exact absent i below stored

theorem overwrite (holds : t.Holds m) {i : Nat} (content : Slot)
    (below : i < t.size) (stored : t.key i = some content.fromAddr) :
    (t.setSlot i content).Holds
      { map := Function.update m.map content.fromAddr content.entry
        keys := Insert.insert content.fromAddr m.keys } := by
  have nonzero : content.fromAddr ≠ 0 := (Table.key_eq_some.mp stored).2
  have sameKeys : (t.setSlot i content).key = t.key := by
    rw [t.setSlot_key i content nonzero, ← stored, Function.update_eq_self]
  have owned : content.fromAddr ∈ m.keys :=
    (holds.keys _).mpr ⟨i, below, stored⟩
  constructor
  · exact holds.power
  · rw [sameKeys]
    exact holds.layout
  · intro k
    rw [sameKeys, Finset.insert_eq_of_mem owned]
    exact holds.keys k
  · intro j k jBelow jStored
    rw [sameKeys] at jStored
    by_cases here : j = i
    · subst here
      rw [stored] at jStored
      cases jStored
      simp
    · have other : k ≠ content.fromAddr := by
        rintro rfl
        exact here (holds.layout.unique jBelow below jStored stored)
      simp only [Table.setSlot_slot, Function.update_of_ne here,
        Function.update_of_ne other]
      exact holds.entries jBelow jStored
  · intro k outside
    rw [Finset.insert_eq_of_mem owned] at outside
    have other : k ≠ content.fromAddr := by
      rintro rfl
      exact outside owned
    simp only [Function.update_of_ne other]
    exact holds.outside k outside

theorem claim (holds : t.Holds m) {p : Nat} (content : Slot)
    (nonzero : content.fromAddr ≠ 0) (below : p < t.size)
    (passed : Passed t.size mix t.key content.fromAddr p)
    (free : t.key (probe t.size (mix content.fromAddr) p) = none) :
    (t.setSlot (probe t.size (mix content.fromAddr) p) content).Holds
      { map := Function.update m.map content.fromAddr content.entry
        keys := Insert.insert content.fromAddr m.keys } := by
  have here := probe_lt (mix content.fromAddr) p (Nat.zero_lt_of_lt below)
  have absent := holds.layout.absent_of_stop passed free
  have claimed := holds.layout.claim below passed free
  generalize probe t.size (mix content.fromAddr) p = i at *
  have newKeys := t.setSlot_key i content nonzero
  constructor
  · exact holds.power
  · rw [newKeys]
    exact claimed
  · intro k
    rw [newKeys, Finset.mem_insert, holds.keys k]
    constructor
    · rintro (rfl | ⟨j, jBelow, jStored⟩)
      · exact ⟨i, here, Function.update_self ..⟩
      · refine ⟨j, jBelow, ?_⟩
        have elsewhere : j ≠ i := by
          rintro rfl
          rw [free] at jStored
          cases jStored
        rw [Function.update_of_ne elsewhere, jStored]
    · rintro ⟨j, jBelow, jStored⟩
      by_cases same : j = i
      · subst same
        rw [Function.update_self] at jStored
        exact .inl (Option.some.inj jStored).symm
      · rw [Function.update_of_ne same] at jStored
        exact .inr ⟨j, jBelow, jStored⟩
  · intro j k jBelow jStored
    rw [newKeys] at jStored
    by_cases same : j = i
    · subst same
      rw [Function.update_self] at jStored
      cases jStored
      simp
    · rw [Function.update_of_ne same] at jStored
      have other : k ≠ content.fromAddr := by
        rintro rfl
        exact absent j jBelow jStored
      simp only [Table.setSlot_slot, Function.update_of_ne same,
        Function.update_of_ne other]
      exact holds.entries jBelow jStored
  · intro k outside
    have other : k ≠ content.fromAddr := by
      rintro rfl
      exact outside (Finset.mem_insert_self _ _)
    simp only [Function.update_of_ne other]
    exact holds.outside k
      (fun member => outside (Finset.mem_insert_of_mem member))

end Table.Holds

/-- The table stands for the map, whatever is in its free slots. -/
structure Maps (s : State) (m : Spec) : Prop where
  unallocated : s.gTable = none → m = Spec.empty
  sized : ∀ {t}, s.gTable = some t → t.size = s.gCapacity
  holds : ∀ {t}, s.gTable = some t → t.Holds m

namespace Maps

variable {s : State} {m : Spec}

theorem laid (maps : Maps s m) {t : Table} (allocated : s.gTable = some t) :
    Laid s t where
  size_eq := maps.sized allocated
  capacity_pow := by
    rw [← maps.sized allocated]
    exact (maps.holds allocated).power
  layout := (maps.holds allocated).layout

theorem ftFind_eq (maps : Maps s m) (key : Nat) : ftFind s key = m.map key := by
  cases table : s.gTable with
  | none =>
      rw [maps.unallocated table]
      simp [ftFind, table, Spec.empty]
  | some t =>
      have laid := maps.laid table
      have holds := maps.holds table
      by_cases owned : key ∈ m.keys
      · obtain ⟨i, below, stored⟩ := (holds.keys key).mp owned
        rw [laid.ftFind_stored table below stored,
          holds.entries below stored]
      · rw [holds.outside key owned]
        apply laid.ftFind_absent table
        intro i below stored
        exact owned ((holds.keys key).mpr ⟨i, below, stored⟩)

end Maps

structure Refines (s : State) (m : Spec) : Prop where
  unallocated : s.gTable = none → m = Spec.empty
  shape : ∀ {t}, s.gTable = some t → Shape s t
  keys : ∀ {t}, s.gTable = some t →
    ∀ k, k ∈ m.keys ↔ ∃ i, i < t.size ∧ t.key i = some k
  entries : ∀ {t}, s.gTable = some t →
    ∀ {i k}, i < t.size → t.key i = some k → m.map k = (t.slot i).entry
  outside : ∀ k, k ∉ m.keys → m.map k = none

theorem refines_initial : Refines initial Spec.empty where
  unallocated := fun _ => rfl
  shape := fun allocated => by cases allocated
  keys := fun allocated => by cases allocated
  entries := fun allocated => by cases allocated
  outside := fun _ _ => rfl

theorem Refines.holds {s : State} {m : Spec} (refines : Refines s m)
    {t : Table} (allocated : s.gTable = some t) : t.Holds m where
  power := by
    obtain ⟨e, power⟩ := (refines.shape allocated).capacity_pow
    exact ⟨e, (refines.shape allocated).size_eq.trans power⟩
  layout := (refines.shape allocated).layout
  keys := refines.keys allocated
  entries := refines.entries allocated
  outside := refines.outside

namespace Refines

variable {s : State} {m : Spec}

theorem maps (refines : Refines s m) : Maps s m where
  unallocated := refines.unallocated
  sized := fun allocated => (refines.shape allocated).size_eq
  holds := fun allocated => refines.holds allocated

theorem ftFind_eq (refines : Refines s m) (key : Nat) :
    ftFind s key = m.map key :=
  refines.maps.ftFind_eq key

theorem keys_card (refines : Refines s m) {t : Table}
    (allocated : s.gTable = some t) : s.gSize = m.keys.card := by
  have shape := refines.shape allocated
  rw [shape.count, shape.layout.card_keys (refines.keys allocated)]

/-- A full probe cycle is impossible while the key and its companions fit. -/
theorem not_passed_all (refines : Refines s m) {t : Table}
    (allocated : s.gTable = some t) {key : Nat}
    (room : (Insert.insert key m.keys).card ≤ s.gCapacity) :
    ¬ Passed t.size mix t.key key t.size := by
  have shape := refines.shape allocated
  apply shape.layout.not_passed_all (Finset.mem_insert_self key m.keys)
  · rw [shape.size_eq]
    exact room
  · intro i other below stored
    exact Finset.mem_insert_of_mem
      ((refines.keys allocated other).mpr ⟨i, below, stored⟩)

theorem of_table {t : Table} (allocated : s.gTable = some t)
    (shape : Shape s t) (holds : t.Holds m) : Refines s m where
  unallocated := by
    intro missing
    rw [allocated] at missing
    cases missing
  shape := by
    intro t' other
    rw [allocated] at other
    cases other
    exact shape
  keys := by
    intro t' other
    rw [allocated] at other
    cases other
    exact holds.keys
  entries := by
    intro t' other
    rw [allocated] at other
    cases other
    exact holds.entries
  outside := holds.outside

theorem overwrite (refines : Refines s m) {t : Table}
    (allocated : s.gTable = some t) {i : Nat} (content : Slot)
    (below : i < t.size) (stored : t.key i = some content.fromAddr) :
    Refines { s with gTable := some (t.setSlot i content) }
      { map := Function.update m.map content.fromAddr content.entry
        keys := Insert.insert content.fromAddr m.keys } := by
  have shape := refines.shape allocated
  have nonzero : content.fromAddr ≠ 0 := (Table.key_eq_some.mp stored).2
  have sameKeys : (t.setSlot i content).key = t.key := by
    rw [t.setSlot_key i content nonzero, ← stored, Function.update_eq_self]
  have holds := (refines.holds allocated).overwrite content below stored
  refine of_table rfl (shape.setSlot nonzero holds.layout ?_) holds
  rw [sameKeys]
  exact shape.count

theorem claim (refines : Refines s m) {t : Table}
    (allocated : s.gTable = some t) {p : Nat} (content : Slot)
    (nonzero : content.fromAddr ≠ 0) (below : p < t.size)
    (passed : Passed t.size mix t.key content.fromAddr p)
    (free : t.key (probe t.size (mix content.fromAddr) p) = none) :
    Refines
      { s with
        gTable := some
          (t.setSlot (probe t.size (mix content.fromAddr) p) content)
        gSize := s.gSize + 1 }
      { map := Function.update m.map content.fromAddr content.entry
        keys := Insert.insert content.fromAddr m.keys } := by
  have shape := refines.shape allocated
  have here := probe_lt (mix content.fromAddr) p shape.size_pos
  have holds := (refines.holds allocated).claim content nonzero below passed
    free
  generalize probe t.size (mix content.fromAddr) p = i at *
  refine of_table rfl (shape.setSlot nonzero holds.layout ?_) holds
  rw [t.setSlot_key i content nonzero]
  exact (congrArg (· + 1) shape.count).trans (occupied_claim here free _).symm

end Refines

theorem calloc_eq_some {granted : Bool} {n : Nat} {t : Table}
    (allocated : calloc granted n = some t) :
    t = Table.zeroed n ∧ n * slotBytes < addressSpace := by
  unfold calloc at allocated
  split at allocated
  · rename_i granted
    cases allocated
    exact ⟨rfl, granted.2⟩
  · cases allocated

theorem shape_zeroed {n e : Nat} (power : n = 2 ^ e)
    (bytes : n * slotBytes < addressSpace) (gTable : Option Table) :
    Shape { gTable := gTable, gCapacity := n, gSize := 0 } (Table.zeroed n) where
  size_eq := rfl
  capacity_pow := ⟨e, power⟩
  capacity_bytes := bytes
  layout := by rw [Table.zeroed_key]; exact Layout.empty
  count := by simp [occupied]
  blank := fun _ _ _ => rfl

namespace Refines

variable {s : State} {m : Spec}

theorem init (refines : Refines s m) (granted : Bool) :
    Refines (forwardTableInit granted s) m := by
  cases table : s.gTable with
  | some t => simpa [forwardTableInit, table] using refines
  | none =>
      have nothing := refines.unallocated table
      subst nothing
      simp only [forwardTableInit, table]
      constructor
      · exact fun _ => rfl
      · intro t allocated
        obtain ⟨rfl, bytes⟩ := calloc_eq_some allocated
        exact shape_zeroed (e := 16) rfl bytes _
      · intro t allocated k
        obtain ⟨rfl, _⟩ := calloc_eq_some allocated
        simp [Spec.empty]
      · intro t allocated i k below stored
        obtain ⟨rfl, _⟩ := calloc_eq_some allocated
        simp at stored
      · exact fun _ _ => rfl

theorem clear (refines : Refines s m) :
    Refines (forwardTableClear s) Spec.empty := by
  cases table : s.gTable with
  | none =>
      have nothing := refines.unallocated table
      subst nothing
      simpa [forwardTableClear, table] using refines
  | some t =>
      have shape := refines.shape table
      simp only [forwardTableClear, table]
      have wiped : ∀ i, i < t.size →
          Table.key { t with slot := fun i =>
            if i < s.gCapacity then ⟨0, 0, 0⟩ else t.slot i } i = none := by
        intro i below
        rw [shape.size_eq] at below
        simp [Table.key, below]
      constructor
      · intro missing
        cases missing
      · rintro _ ⟨⟩
        refine
          { size_eq := shape.size_eq
            capacity_pow := shape.capacity_pow
            capacity_bytes := shape.capacity_bytes
            layout := ?_
            count := ?_
            blank := ?_ }
        · intro i k below stored
          rw [wiped i below] at stored
          cases stored
        · symm
          rw [Finset.card_eq_zero, Finset.eq_empty_iff_forall_notMem]
          intro i member
          obtain ⟨below, k, stored⟩ := mem_occupied.mp member
          rw [wiped i below] at stored
          cases stored
        · intro i below _
          rw [shape.size_eq] at below
          simp [below]
      · rintro _ ⟨⟩ k
        constructor
        · intro member
          simp [Spec.empty] at member
        · rintro ⟨i, below, stored⟩
          rw [wiped i below] at stored
          cases stored
      · rintro _ ⟨⟩ i k below stored
        rw [wiped i below] at stored
        cases stored
      · exact fun _ _ => rfl

theorem insert (refines : Refines s m) (granted : Bool) {key : Nat}
    (newCap : Cap) (nonzero : key ≠ 0)
    (room : ∀ s', forwardTableInsert granted s key newCap = .ok s' →
      (m.insert key newCap).keys.card ≤ s'.gCapacity) :
    (forwardTableInit granted s).gTable = none ∧
        forwardTableInsert granted s key newCap = .error .nullTable ∨
      ∃ s', forwardTableInsert granted s key newCap = .ok s' ∧
        Refines s' (m.insert key newCap) := by
  have ready := refines.init granted
  unfold forwardTableInsert at *
  generalize forwardTableInit granted s = s at *
  cases table : s.gTable with
  | none => exact .inl ⟨rfl, by simp only [table]⟩
  | some t =>
      right
      have shape := ready.shape table
      simp only [table] at room ⊢
      rcases shape.findSlot_cases key with
        ⟨i, found, below, stored⟩ | ⟨p, below, passed, found, free⟩ |
        ⟨found, passed⟩
      · have taken : (t.slot i).fromAddr ≠ 0 := by
          rw [(Table.key_eq_some.mp stored).1]
          exact nonzero
        simp only [found, if_neg taken]
        exact ⟨_, rfl, ready.overwrite table
          ⟨key, newCap.address, newCap.length⟩ below stored⟩
      · simp only [found, if_pos (Table.key_eq_none.mp free)]
        exact ⟨_, rfl, ready.claim table
          ⟨key, newCap.address, newCap.length⟩
          nonzero below passed free⟩
      · simp only [found] at room
        exact absurd passed (ready.not_passed_all table (room s rfl))

theorem casInsert (refines : Refines s m) (cheri : Intrinsics)
    (arenaBase : Option Cap) (granted : Bool) {key : Nat} (newCap : Cap)
    (nonzero : key ≠ 0) (alive : ¬ (key ∈ m.keys ∧ m.map key = none))
    (room : ∀ s' result,
      forwardTableCasInsert cheri arenaBase granted s key newCap =
        .ok (s', result) →
      (m.casInsert key newCap).keys.card ≤ s'.gCapacity) :
    (forwardTableInit granted s).gTable = none ∧
        forwardTableCasInsert cheri arenaBase granted s key newCap =
          .error .nullTable ∨
      ∃ s' result,
        forwardTableCasInsert cheri arenaBase granted s key newCap =
          .ok (s', result) ∧ Refines s' (m.casInsert key newCap) := by
  have ready := refines.init granted
  unfold forwardTableCasInsert at *
  generalize forwardTableInit granted s = s at *
  cases table : s.gTable with
  | none => exact .inl ⟨rfl, by simp only [table]⟩
  | some t =>
      right
      have shape := ready.shape table
      simp only [table] at room ⊢
      rcases shape.findSlot_cases key with
        ⟨i, found, below, stored⟩ | ⟨p, below, passed, found, free⟩ |
        ⟨found, passed⟩
      · have owned : key ∈ m.keys :=
          (ready.keys table key).mpr ⟨i, below, stored⟩
        obtain ⟨pair, present⟩ : ∃ pair, m.map key = some pair :=
          Option.ne_none_iff_exists'.mp (fun missing => alive ⟨owned, missing⟩)
        have published : (t.slot i).newAddr ≠ 0 := by
          intro zero
          have entry := ready.entries table below stored
          rw [present, Slot.entry, if_pos zero] at entry
          cases entry
        simp only [found, if_pos (Table.key_eq_some.mp stored).1,
          if_neg published, Spec.casInsert, present]
        exact ⟨_, _, rfl, ready⟩
      · have missing := (ready.holds table).unmapped
          (shape.layout.absent_of_stop passed free)
        simp only [found, if_neg (Table.ne_key_of_free free nonzero),
          Spec.casInsert, missing]
        exact ⟨_, _, rfl, ready.claim table
          ⟨key, newCap.address, newCap.length⟩
          nonzero below passed free⟩
      · have missing := (ready.holds table).unmapped
          (shape.layout.absent_of_passed_all passed)
        simp only [found, Spec.casInsert, missing] at room
        exact absurd passed (ready.not_passed_all table (room s none rfl))

end Refines

/-- The new table after `j` iterations of the copy loop: exactly the old
entries below `j`, laid out for the new size. -/
structure Copied (old nt : Table) (j : Nat) : Prop where
  layout : Layout nt.size mix nt.key
  few : (occupied nt.size nt.key).card ≤ j
  source : ∀ {i}, i < nt.size → (nt.slot i).fromAddr ≠ 0 →
    ∃ l, l < j ∧ old.slot l = nt.slot i
  target : ∀ {l}, l < j → (old.slot l).fromAddr ≠ 0 →
    ∃ i, i < nt.size ∧ nt.slot i = old.slot l
  blank : ∀ i, i < nt.size → nt.key i = none → nt.slot i = ⟨0, 0, 0⟩

/-- For a key that the table does not hold, waiting for a zero key is the
probe loop. -/
theorem freeSlot_eq_search {nt : Table} {e k : Nat} (size_eq : nt.size = 2 ^ e)
    (absent : ∀ i, i < nt.size → nt.key i ≠ some k) {fuel i : Nat}
    (below : i < nt.size) :
    freeSlot nt (nt.size - 1) fuel i = search nt.size nt.key k fuel i := by
  induction fuel generalizing i with
  | zero => rfl
  | succ fuel ih =>
      have stops : (nt.slot i).fromAddr = 0 ↔
          (nt.key i = none ∨ nt.key i = some k) := by
        rw [← Table.key_eq_none]
        constructor
        · exact .inl
        · rintro (free | mine)
          · exact free
          · exact absurd mine (absent i below)
      have wrap : (i + 1) &&& (nt.size - 1) = (i + 1) % nt.size := by
        rw [size_eq, Nat.and_two_pow_sub_one_eq_mod]
      rw [freeSlot, search, wrap]
      by_cases stop : nt.key i = none ∨ nt.key i = some k
      · rw [if_pos (stops.mpr stop), if_pos stop]
      · rw [if_neg (fun met => stop (stops.mp met)), if_neg stop]
        exact ih (Nat.mod_lt _ (Nat.zero_lt_of_lt below))

namespace Copied

variable {old nt : Table} {j : Nat}

theorem skip (copied : Copied old nt j) (empty : (old.slot j).fromAddr = 0) :
    Copied old nt (j + 1) where
  layout := copied.layout
  few := Nat.le_succ_of_le copied.few
  source := by
    intro i below taken
    obtain ⟨l, lBelow, same⟩ := copied.source below taken
    exact ⟨l, Nat.lt_succ_of_lt lBelow, same⟩
  target := by
    intro l lBelow taken
    rcases Nat.lt_succ_iff_lt_or_eq.mp lBelow with earlier | rfl
    · exact copied.target earlier taken
    · exact absurd empty taken
  blank := copied.blank

theorem absent (copied : Copied old nt j)
    (oldLayout : Layout old.size mix old.key) (inOld : j < old.size) :
    ∀ i, i < nt.size → nt.key i ≠ some (old.slot j).fromAddr := by
  intro i below stored
  obtain ⟨same, nonzero⟩ := Table.key_eq_some.mp stored
  obtain ⟨l, lBelow, copy⟩ := copied.source below (by rw [same]; exact nonzero)
  have storedL : old.key l = some (old.slot j).fromAddr :=
    Table.key_eq_some.mpr ⟨by rw [copy, same], nonzero⟩
  have storedJ : old.key j = some (old.slot j).fromAddr :=
    Table.key_eq_some.mpr ⟨rfl, nonzero⟩
  have collision := oldLayout.unique (Nat.lt_trans lBelow inOld) inOld
    storedL storedJ
  omega

/-- The copy loop cannot run into a full table. -/
theorem not_passed_all (copied : Copied old nt j) (inNew : j < nt.size)
    (k : Nat) : ¬ Passed nt.size mix nt.key k nt.size := by
  intro passed
  have full := passed.full
  have few := copied.few
  omega

theorem claim (copied : Copied old nt j) {p : Nat}
    (taken : (old.slot j).fromAddr ≠ 0) (pBelow : p < nt.size)
    (passed : Passed nt.size mix nt.key (old.slot j).fromAddr p)
    (free : nt.key (probe nt.size (mix (old.slot j).fromAddr) p) = none) :
    Copied old (nt.setSlot (probe nt.size (mix (old.slot j).fromAddr) p)
      (old.slot j)) (j + 1) := by
  have positive : 0 < nt.size := Nat.zero_lt_of_lt pBelow
  have below := probe_lt (mix (old.slot j).fromAddr) p positive
  have claimed := copied.layout.claim pBelow passed free
  generalize probe nt.size (mix (old.slot j).fromAddr) p = i at *
  have newKeys := nt.setSlot_key i (old.slot j) taken
  refine ⟨?_, ?_, ?_, ?_, Table.blank_setSlot copied.blank taken⟩
  · rw [newKeys]
    exact claimed
  · rw [newKeys, Table.setSlot_size, occupied_claim below free]
    exact Nat.succ_le_succ copied.few
  · intro i' i'Below held
    by_cases same : i' = i
    · subst same
      exact ⟨j, Nat.lt_succ_self j, by simp⟩
    · simp only [Table.setSlot_slot, Function.update_of_ne same] at held ⊢
      obtain ⟨l, lBelow, copy⟩ := copied.source i'Below held
      exact ⟨l, Nat.lt_succ_of_lt lBelow, copy⟩
  · intro l lBelow held
    rcases Nat.lt_succ_iff_lt_or_eq.mp lBelow with earlier | rfl
    · obtain ⟨i', i'Below, copy⟩ := copied.target earlier held
      have elsewhere : i' ≠ i := by
        rintro rfl
        rw [← copy] at held
        exact held (Table.key_eq_none.mp free)
      refine ⟨i', i'Below, ?_⟩
      simp only [Table.setSlot_slot, Function.update_of_ne elsewhere, copy]
    · exact ⟨i, below, by simp⟩

theorem step {e : Nat} (copied : Copied old nt j)
    (oldLayout : Layout old.size mix old.key) (size_eq : nt.size = 2 ^ e)
    (inOld : j < old.size) (inNew : j < nt.size) :
    ∃ nt', copySlot old nt j = .ok nt' ∧ nt'.size = nt.size ∧
      Copied old nt' (j + 1) := by
  unfold copySlot
  by_cases empty : (old.slot j).fromAddr = 0
  · exact ⟨nt, by simp [empty], rfl, copied.skip empty⟩
  have positive : 0 < nt.size := Nat.zero_lt_of_lt inNew
  have absent := copied.absent oldLayout inOld
  have start : mix (old.slot j).fromAddr &&& (nt.size - 1) =
      probe nt.size (mix (old.slot j).fromAddr) 0 := by
    rw [size_eq, Nat.and_two_pow_sub_one_eq_mod, probe, Nat.add_zero]
  have spec := search_spec nt.size mix nt.key (old.slot j).fromAddr
  simp only [if_neg empty]
  rw [start, freeSlot_eq_search size_eq absent (probe_lt _ _ positive)]
  generalize search nt.size nt.key (old.slot j).fromAddr nt.size
    (probe nt.size (mix (old.slot j).fromAddr) 0) = found at spec
  cases found with
  | none => exact absurd spec (copied.not_passed_all inNew _)
  | some i =>
      obtain ⟨p, pBelow, here, passed, stop⟩ := spec
      subst here
      have free : nt.key (probe nt.size (mix (old.slot j).fromAddr) p) =
          none := by
        rcases stop with free | mine
        · exact free
        · exact absurd mine (absent _ (probe_lt _ _ positive))
      exact ⟨_, rfl, rfl, copied.claim empty pBelow passed free⟩

end Copied

/-- The copy loop ends and leaves a rehash of the old entries. -/
theorem copySlots_spec {old nt : Table} {e : Nat} (fresh : nt = Table.zeroed (2 ^ e))
    (oldLayout : Layout old.size mix old.key) {j : Nat}
    (inOld : j ≤ old.size) (inNew : j ≤ 2 ^ e) :
    ∃ nt', copySlots old nt j = .ok nt' ∧ nt'.size = 2 ^ e ∧
      Copied old nt' j := by
  induction j with
  | zero =>
      subst fresh
      refine ⟨_, rfl, rfl, ?_, ?_, ?_, ?_, fun _ _ _ => rfl⟩
      · rw [Table.zeroed_key]
        exact Layout.empty
      · simp [occupied]
      · intro i below taken
        simp [Table.zeroed] at taken
      · intro l below
        omega
  | succ j ih =>
      obtain ⟨before, ran, size_eq, copied⟩ := ih (by omega) (by omega)
      obtain ⟨after, stepped, sameSize, next⟩ :=
        copied.step oldLayout size_eq (by omega) (by omega)
      refine ⟨after, ?_, by rw [sameSize, size_eq], next⟩
      rw [copySlots, ran]
      exact stepped

theorem Copied.key_iff {old nt : Table} (copied : Copied old nt old.size) (k : Nat) :
    (∃ i, i < nt.size ∧ nt.key i = some k) ↔
      ∃ l, l < old.size ∧ old.key l = some k := by
  constructor
  · rintro ⟨i, below, stored⟩
    obtain ⟨same, nonzero⟩ := Table.key_eq_some.mp stored
    obtain ⟨l, lBelow, copy⟩ := copied.source below (by rw [same]; exact nonzero)
    exact ⟨l, lBelow, Table.key_eq_some.mpr ⟨by rw [copy, same], nonzero⟩⟩
  · rintro ⟨l, lBelow, stored⟩
    obtain ⟨same, nonzero⟩ := Table.key_eq_some.mp stored
    obtain ⟨i, below, copy⟩ := copied.target lBelow (by rw [same]; exact nonzero)
    exact ⟨i, below, Table.key_eq_some.mpr ⟨by rw [copy, same], nonzero⟩⟩

theorem Copied.holds {old nt : Table} {m : Spec} {e : Nat}
    (copied : Copied old nt old.size) (oldHolds : old.Holds m)
    (size_eq : nt.size = 2 ^ e) : nt.Holds m where
  power := ⟨e, size_eq⟩
  layout := copied.layout
  keys := by
    intro k
    rw [oldHolds.keys k, copied.key_iff]
  entries := by
    intro i k below stored
    obtain ⟨same, nonzero⟩ := Table.key_eq_some.mp stored
    obtain ⟨l, lBelow, copy⟩ :=
      copied.source below (by rw [same]; exact nonzero)
    rw [← copy]
    apply oldHolds.entries lBelow
    exact Table.key_eq_some.mpr ⟨by rw [copy, same], nonzero⟩
  outside := oldHolds.outside

/-- Growing changes the layout and nothing of the map, whether it doubles the
table, finds the load low, or gets no memory. -/
theorem Refines.maybeGrow {s : State} {m : Spec} (refines : Refines s m)
    (granted : Bool) :
    ∃ s', forwardTableMaybeGrow granted s = .ok s' ∧ Refines s' m := by
  cases table : s.gTable with
  | none =>
      exact ⟨_, by simp only [forwardTableMaybeGrow, table],
        refines.init granted⟩
  | some old =>
      have shape := refines.shape table
      simp only [forwardTableMaybeGrow, table]
      by_cases low : s.gSize * 10 < s.gCapacity * 7
      · exact ⟨s, by simp [low], refines⟩
      simp only [if_neg low]
      cases memory : calloc granted (s.gCapacity * 2) with
      | none => exact ⟨s, rfl, refines⟩
      | some nt =>
          obtain ⟨fresh, bytes⟩ := calloc_eq_some memory
          obtain ⟨e, power⟩ := shape.capacity_pow
          have doubled : s.gCapacity * 2 = 2 ^ (e + 1) := by
            rw [power, Nat.pow_succ]
          rw [doubled] at fresh
          obtain ⟨nt', ran, size_eq, copied⟩ :=
            copySlots_spec fresh shape.layout
              (Nat.le_of_eq shape.size_eq.symm) (by omega)
          refine ⟨{ s with gTable := some nt', gCapacity := s.gCapacity * 2 },
            by simp only [ran]; rfl, ?_⟩
          rw [← shape.size_eq] at copied
          have holds := copied.holds (refines.holds table) size_eq
          exact of_table rfl
            { size_eq := by rw [size_eq, doubled]
              capacity_pow := ⟨e + 1, doubled⟩
              capacity_bytes := bytes
              layout := copied.layout
              count := (refines.keys_card table).trans
                (copied.layout.card_keys holds.keys).symm
              blank := copied.blank }
            holds

/-- The calls of the table API, each with the outcome of the `calloc` it may
make. -/
inductive Call where
  | init (granted : Bool)
  | insert (granted : Bool) (key : Nat) (newCap : Cap)
  | casInsert (granted : Bool) (key : Nat) (newCap : Cap)
  | maybeGrow (granted : Bool)
  | clear

namespace Call

/-- The outcome of the call's `calloc`; `clear` allocates nothing. -/
def granted : Call → Bool
  | .init granted => granted
  | .insert granted _ _ => granted
  | .casInsert granted _ _ => granted
  | .maybeGrow granted => granted
  | .clear => false

/-- The calls that probe the table without a check for `NULL`. -/
def inserts : Call → Bool
  | .insert _ _ _ => true
  | .casInsert _ _ _ => true
  | _ => false

def exec (cheri : Intrinsics) (arenaBase : Option Cap) (s : State) :
    Call → Except Stuck State
  | .init granted => .ok (forwardTableInit granted s)
  | .insert granted key newCap => forwardTableInsert granted s key newCap
  | .casInsert granted key newCap =>
      (forwardTableCasInsert cheri arenaBase granted s key newCap).map Prod.fst
  | .maybeGrow granted => forwardTableMaybeGrow granted s
  | .clear => .ok (forwardTableClear s)

def spec (m : Spec) : Call → Spec
  | .init _ => m
  | .insert _ key newCap => m.insert key newCap
  | .casInsert _ key newCap => m.casInsert key newCap
  | .maybeGrow _ => m
  | .clear => Spec.empty

/-- Keys are nonzero, and `cas_insert` is not applied to a deleted key. -/
def Admissible (m : Spec) : Call → Prop
  | .insert _ key _ => key ≠ 0
  | .casInsert _ key _ => key ≠ 0 ∧ ¬ (key ∈ m.keys ∧ m.map key = none)
  | _ => True

end Call

def execAll (cheri : Intrinsics) (arenaBase : Option Cap) (s : State) :
    List Call → Except Stuck State
  | [] => .ok s
  | call :: rest => do execAll cheri arenaBase (← call.exec cheri arenaBase s) rest

def specAll (m : Spec) : List Call → Spec
  | [] => m
  | call :: rest => specAll (call.spec m) rest

theorem execAll_append (cheri : Intrinsics) (arenaBase : Option Cap)
    (s : State) (calls later : List Call) :
    execAll cheri arenaBase s (calls ++ later) =
      (execAll cheri arenaBase s calls).bind
        (fun s' => execAll cheri arenaBase s' later) := by
  induction calls generalizing s with
  | nil => rfl
  | cons call rest ih =>
      simp only [List.cons_append, execAll]
      cases call.exec cheri arenaBase s with
      | error stuck => rfl
      | ok next => exact ih next

/-- Every call of the sequence is admissible, and after it the distinct keys
fit the current capacity. -/
def Fits (cheri : Intrinsics) (arenaBase : Option Cap) (s : State) (m : Spec) :
    List Call → Prop
  | [] => True
  | call :: rest => call.Admissible m ∧
      ∀ s', call.exec cheri arenaBase s = .ok s' →
        (call.spec m).keys.card ≤ s'.gCapacity ∧
          Fits cheri arenaBase s' (call.spec m) rest

/-- No insertion finds the table missing and is itself refused one.  `table`
tells whether a table is there before the calls. -/
def Backed (table : Bool) : List Call → Prop
  | [] => True
  | call :: rest => (call.inserts = true → (table || call.granted) = true) ∧
      Backed (table || call.granted) rest

theorem init_isSome (granted : Bool) (s : State) :
    (forwardTableInit granted s).gTable.isSome =
      (s.gTable.isSome || granted) := by
  cases table : s.gTable with
  | some t => simp only [forwardTableInit, table, Option.isSome_some,
      Bool.true_or]
  | none =>
      cases granted with
      | false => simp [forwardTableInit, table, calloc]
      | true =>
          simp only [forwardTableInit, table, calloc]
          rw [if_pos (by decide)]
          rfl

theorem granted_eq_false_of_init {granted : Bool} {s : State}
    (missing : (forwardTableInit granted s).gTable = none) :
    granted = false := by
  have lost := init_isSome granted s
  rw [missing] at lost
  exact (Bool.or_eq_false_iff.mp lost.symm).2

theorem insert_isSome {granted : Bool} {s s' : State} {key : Nat}
    {newCap : Cap} (ran : forwardTableInsert granted s key newCap = .ok s') :
    s'.gTable.isSome = (s.gTable.isSome || granted) := by
  rw [← init_isSome]
  unfold forwardTableInsert at ran
  generalize forwardTableInit granted s = ready at *
  cases table : ready.gTable with
  | none =>
      simp only [table] at ran
      cases ran
  | some t =>
      simp only [table] at ran
      split at ran <;> cases ran
      · rw [table]
      · rfl

theorem casInsert_isSome {cheri : Intrinsics} {arenaBase : Option Cap}
    {granted : Bool} {s s' : State} {key : Nat} {newCap : Cap}
    {result : Option Cap}
    (ran : forwardTableCasInsert cheri arenaBase granted s key newCap =
      .ok (s', result)) :
    s'.gTable.isSome = (s.gTable.isSome || granted) := by
  rw [← init_isSome]
  unfold forwardTableCasInsert at ran
  generalize forwardTableInit granted s = ready at *
  cases table : ready.gTable with
  | none =>
      simp only [table] at ran
      cases ran
  | some t =>
      simp only [table] at ran
      split at ran
      · cases ran
        rw [table]
      · split at ran
        · split at ran
          · cases ran
          · cases ran
            rw [table]
        · cases ran
          rfl

theorem maybeGrow_isSome {granted : Bool} {s s' : State}
    (ran : forwardTableMaybeGrow granted s = .ok s') :
    s'.gTable.isSome = (s.gTable.isSome || granted) := by
  unfold forwardTableMaybeGrow at ran
  cases table : s.gTable with
  | none =>
      simp only [table] at ran
      cases ran
      rw [init_isSome, table]
  | some old =>
      simp only [table] at ran
      rw [Option.isSome_some, Bool.true_or]
      split at ran
      · cases ran
        rw [table]
        rfl
      · split at ran
        · cases ran
          rw [table]
          rfl
        · cases copied : copySlots old _ s.gCapacity with
          | error stuck =>
              rw [copied] at ran
              cases ran
          | ok filled =>
              rw [copied] at ran
              cases ran
              rfl

namespace Call

variable {cheri : Intrinsics} {arenaBase : Option Cap} {s : State}

theorem exec_isSome {call : Call} {s' : State}
    (ran : call.exec cheri arenaBase s = .ok s') :
    s'.gTable.isSome = (s.gTable.isSome || call.granted) := by
  cases call with
  | init granted =>
      cases ran
      exact init_isSome granted s
  | insert granted key newCap => exact insert_isSome ran
  | casInsert granted key newCap =>
      cases outcome : forwardTableCasInsert cheri arenaBase granted s key
          newCap with
      | error stuck =>
          rw [exec, outcome] at ran
          cases ran
      | ok returned =>
          rw [exec, outcome] at ran
          cases ran
          exact casInsert_isSome outcome
  | maybeGrow granted => exact maybeGrow_isSome ran
  | clear =>
      cases ran
      cases table : s.gTable <;> simp [forwardTableClear, table, Call.granted]

theorem exec_missing {call : Call} (inserting : call.inserts = true)
    (missing : (s.gTable.isSome || call.granted) = false) :
    call.exec cheri arenaBase s = .error .nullTable := by
  have unready : ∀ granted, (s.gTable.isSome || granted) = false →
      (forwardTableInit granted s).gTable = none := by
    intro granted lost
    rw [← init_isSome] at lost
    exact Option.not_isSome_iff_eq_none.mp (by rw [lost]; decide)
  cases call with
  | insert granted key newCap =>
      simp only [exec, forwardTableInsert, unready granted missing]
  | casInsert granted key newCap =>
      simp only [exec, forwardTableCasInsert, unready granted missing]
      rfl
  | init granted => cases inserting
  | maybeGrow granted => cases inserting
  | clear => cases inserting

end Call

/-- One call keeps the refinement; the only way not to return is an insertion
that has no table. -/
theorem Refines.exec {cheri : Intrinsics} {arenaBase : Option Cap}
    {s : State} {m : Spec} (refines : Refines s m) {call : Call}
    (admissible : call.Admissible m)
    (room : ∀ s', call.exec cheri arenaBase s = .ok s' →
      (call.spec m).keys.card ≤ s'.gCapacity)
    (backed : call.inserts = true → (s.gTable.isSome || call.granted) = true) :
    ∃ s', call.exec cheri arenaBase s = .ok s' ∧ Refines s' (call.spec m) := by
  have present : ∀ granted, (s.gTable.isSome || granted) = true →
      (forwardTableInit granted s).gTable ≠ none := by
    intro granted ready missing
    rw [← init_isSome, missing] at ready
    cases ready
  cases call with
  | init granted => exact ⟨_, rfl, refines.init granted⟩
  | insert granted key newCap =>
      rcases refines.insert granted newCap admissible room with
        ⟨missing, _⟩ | ran
      · exact absurd missing (present granted (backed rfl))
      · exact ran
  | casInsert granted key newCap =>
      have room' : ∀ s' result,
          forwardTableCasInsert cheri arenaBase granted s key newCap =
            .ok (s', result) →
          (m.casInsert key newCap).keys.card ≤ s'.gCapacity := by
        intro s' result ran
        exact room s' (by simp [Call.exec, ran, Except.map])
      rcases refines.casInsert cheri arenaBase granted newCap admissible.1
          admissible.2 room' with ⟨missing, _⟩ | ⟨s', result, ran, next⟩
      · exact absurd missing (present granted (backed rfl))
      · exact ⟨s', by simp [Call.exec, ran, Except.map], next⟩
  | maybeGrow granted => exact refines.maybeGrow granted
  | clear => exact ⟨_, rfl, refines.clear⟩

theorem execAll_cons {cheri : Intrinsics} {arenaBase : Option Cap}
    {s next : State} {call : Call}
    (ran : call.exec cheri arenaBase s = .ok next) (rest : List Call) :
    execAll cheri arenaBase s (call :: rest) =
      execAll cheri arenaBase next rest := by
  rw [execAll, ran]
  rfl

theorem Refines.execAll {cheri : Intrinsics} {arenaBase : Option Cap}
    {calls : List Call} {s : State} {m : Spec} (refines : Refines s m)
    (fits : Fits cheri arenaBase s m calls)
    (backed : Backed s.gTable.isSome calls) :
    ∃ s', ForwardTable.execAll cheri arenaBase s calls = .ok s' ∧
      Refines s' (specAll m calls) := by
  induction calls generalizing s m with
  | nil => exact ⟨s, rfl, refines⟩
  | cons call rest ih =>
      obtain ⟨admissible, later⟩ := fits
      obtain ⟨ready, backedRest⟩ := backed
      obtain ⟨next, ran, nextRefines⟩ :=
        refines.exec admissible (fun s' ran => (later s' ran).1) ready
      rw [execAll_cons ran]
      rw [← Call.exec_isSome ran] at backedRest
      exact ih nextRefines (later next ran).2 backedRest

/-- The first insertion that has no table is where the run ends. -/
theorem Refines.execAll_unbacked {cheri : Intrinsics}
    {arenaBase : Option Cap} {calls : List Call} {s : State} {m : Spec}
    (refines : Refines s m) (fits : Fits cheri arenaBase s m calls)
    (unbacked : ¬ Backed s.gTable.isSome calls) :
    ForwardTable.execAll cheri arenaBase s calls = .error .nullTable := by
  induction calls generalizing s m with
  | nil => exact absurd trivial unbacked
  | cons call rest ih =>
      obtain ⟨admissible, later⟩ := fits
      by_cases ready : call.inserts = true →
          (s.gTable.isSome || call.granted) = true
      · obtain ⟨next, ran, nextRefines⟩ :=
          refines.exec admissible (fun s' ran => (later s' ran).1) ready
        rw [execAll_cons ran]
        apply ih nextRefines (later next ran).2
        intro backedRest
        rw [Call.exec_isSome ran] at backedRest
        exact unbacked ⟨ready, backedRest⟩
      · obtain ⟨inserting, lost⟩ := Classical.not_imp.mp ready
        rw [ForwardTable.execAll,
          Call.exec_missing inserting (Bool.not_eq_true _ ▸ lost)]
        rfl

/-- What an allocated table looks like from the outside. -/
structure HoldsMap (s : State) (t : Table) (m : Spec) : Prop where
  capacity_pow : ∃ e, s.gCapacity = 2 ^ e
  slots : t.size = s.gCapacity
  one_slot : ∀ k, k ∈ m.keys →
    ∃! i, i < s.gCapacity ∧ (t.slot i).fromAddr = k
  only_keys : ∀ i, i < s.gCapacity → (t.slot i).fromAddr ≠ 0 →
    (t.slot i).fromAddr ∈ m.keys
  probe_occupied : ∀ i k, i < s.gCapacity → (t.slot i).fromAddr = k → k ≠ 0 →
    ∃ p, p < s.gCapacity ∧
      ((mix k &&& (s.gCapacity - 1)) + p) % s.gCapacity = i ∧
      ∀ q, q < p → (t.slot
        (((mix k &&& (s.gCapacity - 1)) + q) % s.gCapacity)).fromAddr ≠ 0
  count : s.gSize = ((Finset.range s.gCapacity).filter
    (fun i => (t.slot i).fromAddr ≠ 0)).card

theorem Refines.holdsMap {s : State} {m : Spec} (refines : Refines s m)
    {t : Table} (allocated : s.gTable = some t) : HoldsMap s t m := by
  have shape := refines.shape allocated
  obtain ⟨e, power⟩ := shape.capacity_pow
  have masked : ∀ k, mix k &&& (s.gCapacity - 1) = mix k % s.gCapacity := by
    intro k
    rw [power, Nat.and_two_pow_sub_one_eq_mod]
  constructor
  · exact ⟨e, power⟩
  · exact shape.size_eq
  · intro k member
    obtain ⟨i, below, stored⟩ := (refines.keys allocated k).mp member
    have nonzero := (Table.key_eq_some.mp stored).2
    refine ⟨i, ⟨by rw [← shape.size_eq]; exact below,
      (Table.key_eq_some.mp stored).1⟩, ?_⟩
    rintro j ⟨jBelow, jHolds⟩
    rw [← shape.size_eq] at jBelow
    exact shape.layout.unique jBelow below
      (Table.key_eq_some.mpr ⟨jHolds, nonzero⟩) stored
  · intro i below taken
    rw [← shape.size_eq] at below
    exact (refines.keys allocated _).mpr
      ⟨i, below, Table.key_eq_some.mpr ⟨rfl, taken⟩⟩
  · intro i k below holds nonzero
    rw [← shape.size_eq] at below
    obtain ⟨p, pBelow, here, passed⟩ := shape.layout i k below
      (Table.key_eq_some.mpr ⟨holds, nonzero⟩)
    rw [masked, ← shape.size_eq]
    refine ⟨p, pBelow, by rw [← here, probe, Nat.mod_add_mod], ?_⟩
    intro q qBelow
    obtain ⟨other, held, _⟩ := passed q qBelow
    rw [Nat.mod_add_mod]
    rw [probe] at held
    rw [(Table.key_eq_some.mp held).1]
    exact (Table.key_eq_some.mp held).2
  · rw [shape.count, ← shape.size_eq, occupied]
    congr 1
    ext i
    rw [Finset.mem_filter, Finset.mem_filter]
    refine and_congr_right (fun _ => ?_)
    rw [Option.isSome_iff_ne_none, Ne, Table.key_eq_none]

/-- From the static initialisers on the calls return, leave a well-formed
table, and make `ft_find` read off the abstract map. -/
def RefinesMap (cheri : Intrinsics) (arenaBase : Option Cap)
    (calls : List Call) : Prop :=
  ∃ s, execAll cheri arenaBase initial calls = .ok s ∧
    (∀ t, s.gTable = some t → HoldsMap s t (specAll Spec.empty calls)) ∧
    ∀ k, ftFind s k = (specAll Spec.empty calls).map k

/-- An admissible sequence of calls refines the map exactly when no insertion
has to do without a table: `forward_table_insert` and
`forward_table_cas_insert` do not check what `forward_table_init` leaves,
where `maybe_grow`, `clear` and `ft_find` do. -/
theorem forwardTable_refines_map (cheri : Intrinsics) (arenaBase : Option Cap)
    (calls : List Call)
    (fits : Fits cheri arenaBase initial Spec.empty calls) :
    RefinesMap cheri arenaBase calls ↔ Backed false calls := by
  constructor
  · rintro ⟨s, ran, _, _⟩
    by_contra unbacked
    rw [refines_initial.execAll_unbacked fits unbacked] at ran
    cases ran
  · intro backed
    obtain ⟨s, ran, refines⟩ := refines_initial.execAll fits backed
    exact ⟨s, ran, fun t allocated => refines.holdsMap allocated,
      refines.ftFind_eq⟩

/-- Overwriting, across a growth that gets no memory. -/
theorem forwardTable_refines_map_overwrite :
    RefinesMap Intrinsics.exact none [.insert true 16 (Cap.ofInt 64),
      .maybeGrow false, .insert false 16 (Cap.ofInt 96)] := by
  have fits : Fits Intrinsics.exact none initial Spec.empty
      [.insert true 16 (Cap.ofInt 64), .maybeGrow false,
        .insert false 16 (Cap.ofInt 96)] := by
    have nonzero : (16 : Nat) ≠ 0 := by decide
    refine ⟨nonzero, ?_⟩
    rintro _ ⟨⟩
    refine ⟨by decide, trivial, ?_⟩
    rintro _ ⟨⟩
    refine ⟨by decide, nonzero, ?_⟩
    rintro _ ⟨⟩
    exact ⟨by decide, trivial⟩
  apply (forwardTable_refines_map Intrinsics.exact none _ fits).mpr
  simp [Backed, Call.inserts, Call.granted]

/-- One insertion into the table that `calloc` refuses. -/
theorem forwardTable_refines_map_refused :
    Fits Intrinsics.exact none initial Spec.empty
        [.insert false 16 (Cap.ofInt 64)] ∧
      ¬ RefinesMap Intrinsics.exact none [.insert false 16 (Cap.ofInt 64)] := by
  constructor
  · have nonzero : (16 : Nat) ≠ 0 := by decide
    refine ⟨nonzero, ?_⟩
    rintro _ ⟨⟩
  · rintro ⟨s, ran, _, _⟩
    cases ran

end ForwardTable

end StoplessGC
