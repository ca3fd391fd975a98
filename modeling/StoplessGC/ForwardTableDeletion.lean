import StoplessGC.ForwardTableMap

/-!
# Deleted keys

`forward_table_insert(k, NULL)` deletes an entry by clearing its destination;
the key keeps its slot, also through a rehash.  `forward_table_cas_insert` takes
a key without a destination for one that another thread is about to publish, and
waits.

The results hold for all sequences of calls, also with keys of value zero and
with more keys than slots: a table then stands for fewer entries than were
inserted, but no probe loop goes astray.
-/

namespace StoplessGC

namespace ForwardTable

open OpenAddressing

theorem Table.Holds.scribble {t : Table} {m : Spec} (holds : t.Holds m) {i : Nat}
    (free : t.key i = none) {content : Slot} (keyless : content.fromAddr = 0) :
    (t.setSlot i content).Holds m := by
  have sameKeys : (t.setSlot i content).key = t.key := by
    funext j
    by_cases here : j = i
    · subst here
      rw [free, Table.key_eq_none, Table.setSlot_slot, Function.update_self]
      exact keyless
    · simp only [Table.key, Table.setSlot_slot, Function.update_of_ne here]
  constructor
  · exact holds.power
  · rw [sameKeys]
    exact holds.layout
  · rw [sameKeys]
    exact holds.keys
  · intro j k below stored
    rw [sameKeys] at stored
    have elsewhere : j ≠ i := by
      rintro rfl
      rw [free] at stored
      cases stored
    rw [Table.setSlot_slot, Function.update_of_ne elsewhere]
    exact holds.entries below stored
  · exact holds.outside

theorem Table.Holds.map_zero {t : Table} {m : Spec} (holds : t.Holds m) :
    m.map 0 = none :=
  holds.unmapped fun _ _ stored => (Table.key_eq_some.mp stored).2 rfl

theorem holds_empty {t : Table} {e : Nat} (power : t.size = 2 ^ e)
    (blank : ∀ i, i < t.size → t.key i = none) : t.Holds Spec.empty where
  power := ⟨e, power⟩
  layout := by
    intro i k below stored
    rw [blank i below] at stored
    cases stored
  keys := by
    intro k
    constructor
    · intro member
      simp [Spec.empty] at member
    · rintro ⟨i, below, stored⟩
      rw [blank i below] at stored
      cases stored
  entries := by
    intro i k below stored
    rw [blank i below] at stored
    cases stored
  outside := fun _ _ => rfl

namespace Maps

variable {s s' : State} {m : Spec}

theorem of_table {t : Table} (allocated : s.gTable = some t)
    (sized : t.size = s.gCapacity) (holds : t.Holds m) : Maps s m where
  unallocated := by
    intro missing
    rw [allocated] at missing
    cases missing
  sized := by
    intro t' other
    rw [allocated] at other
    cases other
    exact sized
  holds := by
    intro t' other
    rw [allocated] at other
    cases other
    exact holds

theorem initial : Maps initial Spec.empty := refines_initial.maps

theorem init (maps : Maps s m) (granted : Bool) :
    Maps (forwardTableInit granted s) m := by
  cases table : s.gTable with
  | some t => simpa [forwardTableInit, table] using maps
  | none =>
      have nothing := maps.unallocated table
      subst nothing
      simp only [forwardTableInit, table]
      constructor
      · exact fun _ => rfl
      · intro t allocated
        obtain ⟨rfl, _⟩ := calloc_eq_some allocated
        rfl
      · intro t allocated
        obtain ⟨rfl, _⟩ := calloc_eq_some allocated
        exact holds_empty (e := 16) rfl (by simp)

theorem clear (maps : Maps s m) : Maps (forwardTableClear s) Spec.empty := by
  cases table : s.gTable with
  | none =>
      have nothing := maps.unallocated table
      subst nothing
      simpa [forwardTableClear, table] using maps
  | some t =>
      obtain ⟨e, power⟩ := (maps.holds table).power
      simp only [forwardTableClear, table]
      have sized : t.size = s.gCapacity := maps.sized table
      refine of_table rfl sized (holds_empty power ?_)
      intro i below
      have inside : i < s.gCapacity := by
        rw [← maps.sized table]
        exact below
      simp [Table.key, inside]

theorem maybeGrow (maps : Maps s m) {granted : Bool}
    (ran : forwardTableMaybeGrow granted s = .ok s') : Maps s' m := by
  cases table : s.gTable with
  | none =>
      simp only [forwardTableMaybeGrow, table] at ran
      cases ran
      exact maps.init granted
  | some old =>
      simp only [forwardTableMaybeGrow, table] at ran
      split at ran
      · cases ran
        exact maps
      · cases memory : calloc granted (s.gCapacity * 2) with
        | none =>
            simp only [memory] at ran
            cases ran
            exact maps
        | some nt =>
            obtain ⟨fresh, _⟩ := calloc_eq_some memory
            have laid := maps.laid table
            obtain ⟨e, power⟩ := laid.capacity_pow
            have doubled : s.gCapacity * 2 = 2 ^ (e + 1) := by
              rw [power, Nat.pow_succ]
            rw [doubled] at fresh
            obtain ⟨nt', copy, size_eq, copied⟩ :=
              copySlots_spec fresh laid.layout
                (Nat.le_of_eq laid.size_eq.symm) (by omega)
            simp only [memory, copy] at ran
            cases ran
            rw [← laid.size_eq] at copied
            exact of_table rfl (by rw [size_eq, doubled])
              (copied.holds (maps.holds table) size_eq)

/-- `insert` overwrites, unless the table is full or the key is zero. -/
theorem insert (maps : Maps s m) {granted : Bool} {key : Nat} {newCap : Cap}
    (ran : forwardTableInsert granted s key newCap = .ok s') :
    Maps s' m ∧ m.map key = none ∨ Maps s' (m.insert key newCap) := by
  have ready := maps.init granted
  unfold forwardTableInsert at ran
  generalize forwardTableInit granted s = s at *
  cases table : s.gTable with
  | none =>
      simp only [table] at ran
      cases ran
  | some t =>
      have laid := ready.laid table
      have holds := ready.holds table
      simp only [table] at ran
      rcases laid.findSlot_cases key with
        ⟨i, found, below, stored⟩ | ⟨p, below, passed, found, free⟩ |
        ⟨found, passed⟩
      · simp only [found] at ran
        cases ran
        exact .inr (of_table rfl laid.size_eq
          (holds.overwrite ⟨key, newCap.address, newCap.length⟩ below stored))
      · simp only [found] at ran
        cases ran
        by_cases zero : key = 0
        · subst zero
          exact .inl ⟨of_table rfl laid.size_eq (holds.scribble free rfl),
            holds.map_zero⟩
        · exact .inr (of_table rfl laid.size_eq
            (holds.claim ⟨key, newCap.address, newCap.length⟩ zero below passed
              free))
      · simp only [found] at ran
        cases ran
        have absent := laid.layout.absent_of_passed_all passed
        exact .inl ⟨ready, holds.unmapped absent⟩

theorem casInsert (maps : Maps s m) {cheri : Intrinsics}
    {arenaBase : Option Cap} {granted : Bool} {key : Nat} {newCap : Cap}
    {fwd : Option Cap}
    (ran : forwardTableCasInsert cheri arenaBase granted s key newCap =
      .ok (s', fwd)) :
    Maps s' m ∨ Maps s' (m.insert key newCap) := by
  have ready := maps.init granted
  unfold forwardTableCasInsert at ran
  generalize forwardTableInit granted s = s at *
  cases table : s.gTable with
  | none =>
      simp only [table] at ran
      cases ran
  | some t =>
      have laid := ready.laid table
      have holds := ready.holds table
      simp only [table] at ran
      rcases laid.findSlot_cases key with
        ⟨i, found, below, stored⟩ | ⟨p, below, passed, found, free⟩ |
        ⟨found, passed⟩
      · simp only [found, if_pos (Table.key_eq_some.mp stored).1] at ran
        split at ran
        · cases ran
        · cases ran
          exact .inl ready
      · by_cases zero : key = 0
        · have mine : (t.slot (probe t.size (mix key) p)).fromAddr = key := by
            rw [Table.key_eq_none.mp free, zero]
          simp only [found, if_pos mine] at ran
          split at ran
          · cases ran
          · cases ran
            exact .inl ready
        · simp only [found, if_neg (Table.ne_key_of_free free zero)] at ran
          cases ran
          exact .inr (of_table rfl laid.size_eq
            (holds.claim ⟨key, newCap.address, newCap.length⟩ zero below passed
              free))
      · simp only [found] at ran
        cases ran
        exact .inl ready

end Maps

namespace Call

/-- The call gives the key a destination. -/
def Renews (key : Nat) : Call → Prop
  | .insert _ key' newCap => key' = key ∧ newCap.address ≠ 0
  | .casInsert _ key' newCap => key' = key ∧ newCap.address ≠ 0
  | _ => False

end Call

/-- Some call has deleted the key, and none has given it a destination since. -/
def Deleted (calls : List Call) (key : Nat) : Prop :=
  ∃ before granted newCap after,
    calls = before ++ .insert granted key newCap :: after ∧
      newCap.address = 0 ∧ ∀ call, call ∈ after → ¬ call.Renews key

theorem Spec.insert_none {m : Spec} {key k : Nat} {newCap : Cap}
    (missing : m.map k = none) (spared : ¬ (key = k ∧ newCap.address ≠ 0)) :
    (m.insert key newCap).map k = none := by
  by_cases same : key = k
  · subst same
    have zero : newCap.address = 0 := by
      by_contra placed
      exact spared ⟨rfl, placed⟩
    simp [Spec.insert, Slot.entry, zero]
  · simp only [Spec.insert, Function.update_of_ne (Ne.symm same)]
    exact missing

section Run

variable {cheri : Intrinsics} {arenaBase : Option Cap} {s s' : State} {m : Spec}

/-- A completed call leaves a table that stands for some map, and a missing key
stays missing unless the call renews it. -/
theorem Maps.exec (maps : Maps s m) {call : Call}
    (ran : call.exec cheri arenaBase s = .ok s') :
    ∃ m', Maps s' m' ∧
      ∀ k, m.map k = none → ¬ call.Renews k → m'.map k = none := by
  cases call with
  | init granted =>
      cases ran
      exact ⟨m, maps.init granted, fun _ missing _ => missing⟩
  | insert granted key newCap =>
      rcases maps.insert ran with ⟨same, _⟩ | changed
      · exact ⟨m, same, fun _ missing _ => missing⟩
      · exact ⟨_, changed, fun _ missing spared =>
          Spec.insert_none missing spared⟩
  | casInsert granted key newCap =>
      cases entered : forwardTableCasInsert cheri arenaBase granted s key
          newCap with
      | error stuck =>
          simp only [Call.exec, entered, Except.map] at ran
          cases ran
      | ok result =>
          obtain ⟨next, fwd⟩ := result
          simp only [Call.exec, entered, Except.map] at ran
          cases ran
          rcases maps.casInsert entered with same | changed
          · exact ⟨m, same, fun _ missing _ => missing⟩
          · exact ⟨_, changed, fun _ missing spared =>
              Spec.insert_none missing spared⟩
  | maybeGrow granted =>
      exact ⟨m, maps.maybeGrow ran, fun _ missing _ => missing⟩
  | clear =>
      cases ran
      exact ⟨_, maps.clear, fun _ _ _ => rfl⟩

theorem Maps.execAll (maps : Maps s m) {calls : List Call}
    (ran : execAll cheri arenaBase s calls = .ok s') :
    ∃ m', Maps s' m' ∧ ∀ k, m.map k = none →
      (∀ call, call ∈ calls → ¬ call.Renews k) → m'.map k = none := by
  induction calls generalizing s m with
  | nil =>
      cases ran
      exact ⟨m, maps, fun _ missing _ => missing⟩
  | cons call rest ih =>
      rw [ForwardTable.execAll] at ran
      cases first : call.exec cheri arenaBase s with
      | error stuck =>
          rw [first] at ran
          cases ran
      | ok next =>
          rw [first] at ran
          obtain ⟨m₁, maps₁, kept₁⟩ := maps.exec first
          obtain ⟨m', maps', kept⟩ := ih maps₁ ran
          refine ⟨m', maps', fun k missing spared => ?_⟩
          apply kept k (kept₁ k missing (spared call List.mem_cons_self))
          intro later member
          exact spared later (List.mem_cons_of_mem _ member)

theorem ftFind_deleted {calls : List Call} {key : Nat}
    (ran : execAll cheri arenaBase initial calls = .ok s)
    (deleted : Deleted calls key) : ftFind s key = none := by
  obtain ⟨before, granted, newCap, after, rfl, zero, spared⟩ := deleted
  rw [execAll_append] at ran
  cases first : execAll cheri arenaBase initial before with
  | error stuck =>
      rw [first] at ran
      cases ran
  | ok s₁ =>
      rw [first] at ran
      obtain ⟨m₁, maps₁, _⟩ := Maps.initial.execAll first
      change execAll cheri arenaBase s₁ (_ :: after) = .ok s at ran
      rw [execAll] at ran
      cases second : (Call.insert granted key newCap).exec cheri arenaBase s₁ with
      | error stuck =>
          rw [second] at ran
          cases ran
      | ok s₂ =>
          rw [second] at ran
          have missing : ∃ m₂, Maps s₂ m₂ ∧ m₂.map key = none := by
            rcases maps₁.insert second with ⟨same, missing⟩ | changed
            · exact ⟨m₁, same, missing⟩
            · refine ⟨_, changed, ?_⟩
              simp [Spec.insert, Slot.entry, zero]
          obtain ⟨m₂, maps₂, missing⟩ := missing
          obtain ⟨m', maps', kept⟩ := maps₂.execAll ran
          rw [maps'.ftFind_eq]
          exact kept key missing spared

end Run

/-- A call of `cas_insert` after the others returns, and installs the
capability if the key had been deleted. -/
def Installs (cheri : Intrinsics) (arenaBase : Option Cap) (calls : List Call)
    (granted : Bool) (s : State) (key : Nat) (newCap : Cap) : Prop :=
  ∃ s' fwd, forwardTableCasInsert cheri arenaBase granted s key newCap =
      .ok (s', fwd) ∧
    (Deleted calls key →
      ftFind s' key = some (newCap.address, newCap.length))

/-- No slot keeps the key without a destination, and a deleted key that has no
slot finds a free one. -/
structure Ready (calls : List Call) (t : Table) (key : Nat) : Prop where
  published : ∀ i, i < t.size → (t.slot i).fromAddr = key →
    (t.slot i).newAddr ≠ 0
  room : Deleted calls key → ∃ i, i < t.size ∧ (t.slot i).fromAddr = 0

theorem ftFind_claimed {s : State} {m : Spec} {key : Nat} {newCap : Cap}
    (maps : Maps s (m.insert key newCap)) (placed : newCap.address ≠ 0) :
    ftFind s key = some (newCap.address, newCap.length) := by
  rw [maps.ftFind_eq]
  simp [Spec.insert, Slot.entry, placed]

section Ready

variable {calls : List Call} {s : State} {t : Table} {m : Spec} {key : Nat}

/-- A slot with the key decides alone, as a deleted key has no destination. -/
theorem ready_iff_of_slot (layout : Layout t.size mix t.key) (holds : t.Holds m)
    (gone : Deleted calls key → m.map key = none) (nonzero : key ≠ 0) {i : Nat}
    (below : i < t.size) (stored : t.key i = some key) :
    (Ready calls t key ↔ (t.slot i).newAddr ≠ 0) ∧
      ((t.slot i).newAddr ≠ 0 → ¬ Deleted calls key) := by
  have kept : (t.slot i).newAddr ≠ 0 → ¬ Deleted calls key := by
    intro published deleted
    have entry := holds.entries below stored
    rw [gone deleted, Slot.entry, if_neg published] at entry
    cases entry
  refine ⟨⟨fun ready => ready.published i below (Table.key_eq_some.mp stored).1,
    fun published => ⟨?_, fun deleted => absurd deleted (kept published)⟩⟩, kept⟩
  intro j jBelow jMine
  have jStored := Table.key_eq_some.mpr ⟨jMine, nonzero⟩
  rw [layout.unique jBelow below jStored stored]
  exact published

theorem ready_of_free (absent : ∀ i, i < t.size → t.key i ≠ some key)
    (nonzero : key ≠ 0) {i : Nat} (below : i < t.size) (free : t.key i = none) :
    Ready calls t key where
  published := fun j jBelow mine =>
    absurd (Table.key_eq_some.mpr ⟨mine, nonzero⟩) (absent j jBelow)
  room := fun _ => ⟨i, below, Table.key_eq_none.mp free⟩

/-- A full table without the key is ready unless the key has been deleted. -/
theorem ready_iff_of_full (passed : Passed t.size mix t.key key t.size)
    (layout : Layout t.size mix t.key) (nonzero : key ≠ 0) :
    Ready calls t key ↔ ¬ Deleted calls key := by
  have absent := layout.absent_of_passed_all passed
  constructor
  · intro ready deleted
    obtain ⟨i, iBelow, free⟩ := ready.room deleted
    obtain ⟨p, pBelow, here⟩ := probe_surjective (mix key) iBelow
    obtain ⟨other, held, _⟩ := passed p pBelow
    rw [here, Table.key_eq_none.mpr free] at held
    cases held
  · intro kept
    refine ⟨fun i iBelow mine => ?_, fun deleted => absurd deleted kept⟩
    exact absurd (Table.key_eq_some.mpr ⟨mine, nonzero⟩) (absent i iBelow)

theorem installs_iff_ready {cheri : Intrinsics} {arenaBase : Option Cap}
    (granted : Bool) {newCap : Cap} (maps : Maps s m)
    (table : s.gTable = some t) (gone : Deleted calls key → m.map key = none)
    (nonzero : key ≠ 0) (placed : newCap.address ≠ 0) :
    Installs cheri arenaBase calls granted s key newCap ↔
      Ready calls t key := by
  have same : forwardTableInit granted s = s := by
    simp only [forwardTableInit, table]
  have laid := maps.laid table
  have holds := maps.holds table
  unfold Installs forwardTableCasInsert
  simp only [same, table]
  rcases laid.findSlot_cases key with
    ⟨i, found, below, stored⟩ | ⟨p, below, passed, found, free⟩ |
    ⟨found, passed⟩
  · have mine := (Table.key_eq_some.mp stored).1
    obtain ⟨ready, kept⟩ :=
      ready_iff_of_slot laid.layout holds gone nonzero below stored
    rw [ready]
    simp only [found, if_pos mine]
    by_cases zero : (t.slot i).newAddr = 0
    · simp only [if_pos zero]
      constructor
      · rintro ⟨_, _, spins, _⟩
        cases spins
      · exact fun published => absurd zero published
    · simp only [if_neg zero]
      exact ⟨fun _ => zero,
        fun _ => ⟨_, _, rfl, fun deleted => absurd deleted (kept zero)⟩⟩
  · simp only [found, if_neg (Table.ne_key_of_free free nonzero)]
    have absent := laid.layout.absent_of_stop passed free
    have claimed := Maps.of_table
      (s := { s with
        gTable := some (t.setSlot (probe t.size (mix key) p)
          ⟨key, newCap.address, newCap.length⟩)
        gSize := s.gSize + 1 }) rfl laid.size_eq
      (holds.claim ⟨key, newCap.address, newCap.length⟩ nonzero below passed
        free)
    exact ⟨fun _ => ready_of_free absent nonzero (probe_lt _ _ laid.size_pos)
        free,
      fun _ => ⟨_, _, rfl, fun _ => ftFind_claimed claimed placed⟩⟩
  · rw [ready_iff_of_full passed laid.layout nonzero]
    simp only [found]
    have absent := laid.layout.absent_of_passed_all passed
    have missing := holds.unmapped absent
    constructor
    · rintro ⟨_, _, full, installed⟩ deleted
      cases full
      have present := installed deleted
      rw [maps.ftFind_eq, missing] at present
      cases present
    · exact fun kept => ⟨_, _, rfl, fun deleted => absurd deleted kept⟩

end Ready

/-- After any completed calls, `cas_insert` returns and installs a deleted key
exactly when there is a table, or memory for the first one, and the table is
ready for the key. -/
theorem forwardTableCasInsert_returns_iff (cheri : Intrinsics)
    (arenaBase : Option Cap) {calls : List Call} {s : State}
    (completed : execAll cheri arenaBase initial calls = .ok s)
    (granted : Bool) {key : Nat} {newCap : Cap} (nonzero : key ≠ 0)
    (placed : newCap.address ≠ 0) :
    Installs cheri arenaBase calls granted s key newCap ↔
      (s.gTable = none → granted = true) ∧
        ∀ t, s.gTable = some t → Ready calls t key := by
  obtain ⟨m, maps, _⟩ := Maps.initial.execAll completed
  have gone : Deleted calls key → m.map key = none := by
    intro deleted
    rw [← maps.ftFind_eq]
    exact ftFind_deleted completed deleted
  cases table : s.gTable with
  | some t =>
      rw [installs_iff_ready granted maps table gone nonzero placed]
      constructor
      · intro ready
        constructor
        · intro missing
          cases missing
        · intro _ same
          cases same
          exact ready
      · exact fun ready => ready.2 t rfl
  | none =>
      simp only [reduceCtorEq, false_implies, implies_true, and_true,
        true_implies]
      have ready := maps.init granted
      cases granted with
      | false =>
          simp only [Bool.false_eq_true, iff_false]
          rintro ⟨_, _, ran, _⟩
          simp only [forwardTableCasInsert, forwardTableInit, table, calloc,
            Bool.false_eq_true, false_and, if_false] at ran
          cases ran
      | true =>
          simp only [iff_true]
          have fresh : (forwardTableInit true s).gTable =
              some (Table.zeroed initialCap) := by
            simp only [forwardTableInit, table, calloc]
            exact if_pos (by decide)
          have installs : Installs cheri arenaBase calls true _ key newCap :=
            (installs_iff_ready true ready fresh gone nonzero placed).mpr
            ⟨fun i _ mine => absurd mine.symm nonzero,
              fun _ => ⟨0, by decide, rfl⟩⟩
          have again : forwardTableInit true (forwardTableInit true s) =
              forwardTableInit true s := by
            rw [forwardTableInit, fresh]
          unfold Installs forwardTableCasInsert at installs ⊢
          rw [again] at installs
          exact installs

/-- A key is inserted and deleted. -/
def deletedOnce : List Call :=
  [.insert true 16 (Cap.ofInt 64), .insert true 16 Cap.null]

/-- The next `cas_insert` of the key waits for a destination that nobody is
about to publish. -/
theorem forwardTableCasInsert_spins :
    ∃ s, execAll Intrinsics.exact none initial deletedOnce = .ok s ∧
      Deleted deletedOnce 16 ∧
      forwardTableCasInsert Intrinsics.exact none true s 16 (Cap.ofInt 96) =
        .error .spin ∧
      ¬ Installs Intrinsics.exact none deletedOnce true s 16 (Cap.ofInt 96) := by
  have spins : ∃ s, execAll Intrinsics.exact none initial deletedOnce = .ok s ∧
      forwardTableCasInsert Intrinsics.exact none true s 16 (Cap.ofInt 96) =
        .error .spin := ⟨_, rfl, rfl⟩
  obtain ⟨s, completed, stuck⟩ := spins
  refine ⟨s, completed, ?_, stuck, ?_⟩
  · refine ⟨[.insert true 16 (Cap.ofInt 64)], true, Cap.null, [], rfl, rfl, ?_⟩
    intro call member
    cases member
  · rintro ⟨_, _, returned, _⟩
    rw [stuck] at returned
    cases returned

/-- Once the table has been cleared the deleted key can be installed again. -/
theorem forwardTableCasInsert_returns_iff_cleared :
    ∃ s, execAll Intrinsics.exact none initial (deletedOnce ++ [.clear]) =
        .ok s ∧
      Deleted (deletedOnce ++ [.clear]) 16 ∧
      Installs Intrinsics.exact none (deletedOnce ++ [.clear]) true s 16
        (Cap.ofInt 96) := by
  refine ⟨_, rfl, ?_, ?_⟩
  · refine ⟨[.insert true 16 (Cap.ofInt 64)], true, Cap.null, [.clear], rfl, rfl,
      ?_⟩
    intro call member
    obtain rfl := List.mem_singleton.mp member
    exact id
  · apply (forwardTableCasInsert_returns_iff Intrinsics.exact none rfl true
      (by decide) (by decide)).mpr
    refine ⟨fun _ => rfl, fun t allocated => ?_⟩
    cases allocated
    constructor
    · intro i below mine
      have inside : i < initialCap := below
      have emptied : (if i < initialCap then (⟨0, 0, 0⟩ : Slot) else _).fromAddr =
          16 := mine
      rw [if_pos inside] at emptied
      cases emptied
    · exact fun _ => ⟨0, by decide, rfl⟩

end ForwardTable

end StoplessGC
