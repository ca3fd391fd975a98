import StoplessGC.ForwardTableSteps

/-!
# Lookups across a resize

One `forward_table_maybe_grow` call runs next to any number of lookups.  The
new table is private until `g_table` is stored, so every table a reader can
hold stands for the same map.  What can go wrong is the pairing: the grow
stores `g_capacity` before `g_table`, and a reader loads them in the other
order.  A run is calm when no reader loads `g_capacity` in between.
-/

namespace StoplessGC

namespace ForwardTable

open OpenAddressing Interleaving

/-- The globals and the current table, as the sequential functions see them. -/
def Memory.state (m : Memory) : State :=
  { gTable := m.gTable.map m.tables
    gCapacity := m.gCapacity
    gSize := m.gSize }

/-- `g_capacity` is the size of the current table. -/
def Memory.Steady (m : Memory) : Prop :=
  ∀ t, m.gTable = some t → m.gCapacity = (m.tables t).size

/-- Slot `i` is the `p`-th of the probe sequence of `k`, behind other keys
only. -/
def Table.ProbeAt (t : Table) (k i p : Nat) : Prop :=
  p < t.size ∧ i = probe t.size (mix k) p ∧ Passed t.size mix t.key k p

def Table.OnProbe (t : Table) (k i : Nat) : Prop := ∃ p, t.ProbeAt k i p

/-- The new table, as long as only the grow knows it. -/
def GrowPc.hidden : GrowPc → Option Nat
  | .copyKey _ _ nt _ => some nt
  | .copyAddr _ _ nt _ _ => some nt
  | .copyLen _ _ nt _ _ _ => some nt
  | .copyProbe _ _ nt _ _ _ _ _ => some nt
  | .copyStoreLen _ _ nt _ _ _ _ _ => some nt
  | .copyStoreAddr _ _ nt _ _ _ _ => some nt
  | .copyStoreKey _ _ nt _ _ _ => some nt
  | .storeCapacity _ nt => some nt
  | .storeTable nt => some nt
  | _ => none

section Invariant

variable (spec : Spec)

/-- What holds of the shared memory throughout. -/
structure GrowMemory (m : Memory) : Prop where
  current : ∀ t, m.gTable = some t → t < m.next ∧ (m.tables t).Holds spec
  missing : m.gTable = none → spec = Spec.empty

/-- The state of the copy loop before entry `j`, with the new table as it was
then. -/
structure Copying (m : Memory) (old cap nt j : Nat) (content : Table) :
    Prop where
  current : m.gTable = some old
  capacity : m.gCapacity = cap
  oldSize : (m.tables old).size = cap
  oldAllocated : old < m.next
  holds : (m.tables old).Holds spec
  allocated : nt < m.next
  apart : old ≠ nt
  copied : Copied (m.tables old) content j
  size : content.size = cap * 2
  inside : j < cap

/-- What the grow knows. -/
def GrowPc.Grows (m : Memory) : GrowPc → Prop
  | .loadTable => m.Steady
  | .init .check => m.gTable = none
  | .init .calloc => m.gTable = none
  | .init (.storeCapacity t) => m.gTable = none ∧
      ∀ p, t = some p → p < m.next ∧ m.tables p = Table.zeroed initialCap
  | .init (.storeTable t) => m.gTable = none ∧ m.gCapacity = initialCap ∧
      ∀ p, t = some p → p < m.next ∧ m.tables p = Table.zeroed initialCap
  | .init .storeSize => m.Steady
  | .init .done => m.Steady
  | .loadCapacity old => m.Steady ∧ m.gTable = some old
  | .loadSize old cap => m.Steady ∧ m.gTable = some old ∧ cap = m.gCapacity
  | .calloc old cap => m.Steady ∧ m.gTable = some old ∧ cap = m.gCapacity
  | .copyKey old cap nt j => Copying spec m old cap nt j (m.tables nt)
  | .copyAddr old cap nt j k => Copying spec m old cap nt j (m.tables nt) ∧
      k = (m.slot old j).fromAddr ∧ k ≠ 0
  | .copyLen old cap nt j k v => Copying spec m old cap nt j (m.tables nt) ∧
      k = (m.slot old j).fromAddr ∧ k ≠ 0 ∧ v = (m.slot old j).newAddr
  | .copyProbe old cap nt j k v l i =>
      Copying spec m old cap nt j (m.tables nt) ∧
        m.slot old j = ⟨k, v, l⟩ ∧ k ≠ 0 ∧ (m.tables nt).OnProbe k i
  | .copyStoreLen old cap nt j k v l i =>
      Copying spec m old cap nt j (m.tables nt) ∧
        m.slot old j = ⟨k, v, l⟩ ∧ k ≠ 0 ∧ (m.tables nt).OnProbe k i ∧
        (m.tables nt).key i = none
  | .copyStoreAddr old cap nt j k v i => ∃ content l,
      Copying spec m old cap nt j content ∧
        m.slot old j = ⟨k, v, l⟩ ∧ k ≠ 0 ∧ content.OnProbe k i ∧
        content.key i = none ∧ m.tables nt = content.setSlot i ⟨0, 0, l⟩
  | .copyStoreKey old cap nt j k i => ∃ content v l,
      Copying spec m old cap nt j content ∧
        m.slot old j = ⟨k, v, l⟩ ∧ k ≠ 0 ∧ content.OnProbe k i ∧
        content.key i = none ∧ m.tables nt = content.setSlot i ⟨0, v, l⟩
  | .storeCapacity newcap nt => m.Steady ∧ nt < m.next ∧
      m.gTable ≠ some nt ∧ m.gTable ≠ none ∧ (m.tables nt).Holds spec ∧
      newcap = (m.tables nt).size
  | .storeTable nt => nt < m.next ∧ m.gTable ≠ some nt ∧ m.gTable ≠ none ∧
      (m.tables nt).Holds spec ∧ m.gCapacity = (m.tables nt).size
  | .done => m.Steady

/-- What one step of the grow leaves alone. -/
structure GrowEffect (m : Memory) (pc : GrowPc) (m' : Memory) (pc' : GrowPc) :
    Prop where
  next_le : m.next ≤ m'.next
  kept : ∀ t, t < m.next → pc.hidden ≠ some t →
    m'.tables t = m.tables t ∧ pc'.hidden ≠ some t
  published : ∀ t, m.gTable = some t → m'.gTable = some t ∨ pc' = .done
  finished : pc = .done → pc' = .done

/-- What one access of the grow comes to. -/
structure GrowPc.Moves (m : Memory) (pc : GrowPc) (result : Memory × GrowPc) :
    Prop where
  grows : result.2.Grows spec result.1
  memory : GrowMemory spec result.1
  effect : GrowEffect m pc result.1 result.2

end Invariant

section Steps

variable {spec : Spec} {m m' : Memory} {pc pc' : GrowPc}

theorem GrowEffect.idle (same : pc'.hidden = pc.hidden)
    (finished : pc = .done → pc' = .done) : GrowEffect m pc m pc' where
  next_le := Nat.le_refl _
  kept := fun _ _ visible => ⟨rfl, by rwa [same]⟩
  published := fun _ current => .inl current
  finished := finished

theorem GrowEffect.write {nt i : Nat} {content : Slot}
    (before : pc.hidden = some nt) (after : pc'.hidden = some nt) :
    GrowEffect m pc (m.setSlot nt i content) pc' where
  next_le := Nat.le_refl _
  kept := by
    intro t _ visible
    have other : t ≠ nt := by
      rintro rfl
      exact visible before
    refine ⟨Memory.setSlot_tables_of_ne m i content other, ?_⟩
    rw [after, ← before]
    exact visible
  published := fun _ current => .inl current
  finished := by
    rintro rfl
    cases before

theorem GrowMemory.setSlot (memory : GrowMemory spec m) {nt i : Nat}
    {content : Slot} (apart : m.gTable ≠ some nt) :
    GrowMemory spec (m.setSlot nt i content) where
  current := by
    intro t current
    have other : t ≠ nt := by
      rintro rfl
      exact apart current
    rw [Memory.setSlot_tables_of_ne m i content other]
    exact memory.current t current
  missing := memory.missing

namespace Copying

variable {old cap nt j : Nat} {content : Table}

theorem power (copying : Copying spec m old cap nt j content) :
    ∃ e, cap * 2 = 2 ^ e := by
  obtain ⟨e, power⟩ := copying.holds.power
  refine ⟨e + 1, ?_⟩
  rw [← copying.oldSize, power, Nat.pow_succ]

theorem steady (copying : Copying spec m old cap nt j content) : m.Steady := by
  intro t current
  rw [copying.current] at current
  cases current
  rw [copying.capacity, copying.oldSize]

theorem visible (copying : Copying spec m old cap nt j content) :
    m.gTable ≠ some nt := by
  rw [copying.current]
  intro same
  exact copying.apart (Option.some.inj same)

theorem setSlot (copying : Copying spec m old cap nt j content) (i : Nat)
    (written : Slot) :
    Copying spec (m.setSlot nt i written) old cap nt j content := by
  have kept : (m.setSlot nt i written).tables old = m.tables old :=
    Memory.setSlot_tables_of_ne m i written copying.apart
  exact
    { copying with
      oldSize := by rw [kept]; exact copying.oldSize
      holds := by rw [kept]; exact copying.holds
      copied := by rw [kept]; exact copying.copied }

theorem slot_old (copying : Copying spec m old cap nt j content) (i : Nat)
    (written : Slot) (l : Nat) :
    (m.setSlot nt i written).slot old l = m.slot old l :=
  Memory.setSlot_slot_of_ne m nt i written (.inl copying.apart)

theorem loop (copying : Copying spec m old cap nt j content)
    (next : Copied (m.tables old) (m.tables nt) (j + 1))
    (size : (m.tables nt).size = cap * 2) :
    (GrowPc.loop old cap nt (j + 1)).Grows spec m ∧
      (GrowPc.loop old cap nt (j + 1)).hidden = some nt := by
  unfold GrowPc.loop
  by_cases more : j + 1 < cap
  · rw [if_pos more]
    exact ⟨{ copying with copied := next, size := size, inside := more }, rfl⟩
  · rw [if_neg more]
    have inside := copying.inside
    have whole : j + 1 = (m.tables old).size := by
      rw [copying.oldSize]
      omega
    rw [whole] at next
    obtain ⟨e, power⟩ := copying.power
    refine ⟨⟨copying.steady, copying.allocated, copying.visible, ?_,
      next.holds copying.holds (size.trans power), size.symm⟩, rfl⟩
    rw [copying.current]
    exact Option.some_ne_none _

theorem probe_next (copying : Copying spec m old cap nt j content)
    {i p : Nat} (probeAt : content.ProbeAt (m.slot old j).fromAddr i p)
    (taken : content.key i ≠ none) :
    content.ProbeAt (m.slot old j).fromAddr ((i + 1) &&& (cap * 2 - 1))
      (p + 1) := by
  obtain ⟨below, here, passed⟩ := probeAt
  obtain ⟨e, power⟩ := copying.power
  have positive : 0 < content.size := Nat.zero_lt_of_lt below
  obtain ⟨other, held⟩ := Option.ne_none_iff_exists'.mp taken
  have different : other ≠ (m.slot old j).fromAddr := by
    rintro rfl
    refine copying.copied.absent copying.holds.layout
      (by rw [copying.oldSize]; exact copying.inside) i ?_ held
    rw [here]
    exact probe_lt _ _ positive
  have further := passed.succ (here ▸ held) different
  refine ⟨?_, ?_, further⟩
  · rcases Nat.lt_or_ge (p + 1) content.size with more | last
    · exact more
    · have whole : p + 1 = content.size := by omega
      rw [whole] at further
      refine absurd further (copying.copied.not_passed_all ?_ _)
      rw [copying.size]
      have inside := copying.inside
      omega
  · rw [power, Nat.and_two_pow_sub_one_eq_mod, ← power, ← copying.size, here,
      probe_succ]

end Copying

theorem GrowMemory.of_tables (memory : GrowMemory spec m)
    (next : m.next ≤ m'.next) (current : m'.gTable = m.gTable)
    (same : ∀ t, t < m.next → m'.tables t = m.tables t) :
    GrowMemory spec m' where
  current := by
    intro t loaded
    rw [current] at loaded
    obtain ⟨allocated, holds⟩ := memory.current t loaded
    rw [same t allocated]
    exact ⟨Nat.lt_of_lt_of_le allocated next, holds⟩
  missing := by
    rw [current]
    exact memory.missing

theorem holds_zeroed : (Table.zeroed initialCap).Holds Spec.empty where
  power := ⟨16, rfl⟩
  layout := by rw [Table.zeroed_key]; exact Layout.empty
  keys := by simp [Spec.empty]
  entries := by
    intro i k _ stored
    rw [Table.zeroed_key] at stored
    cases stored
  outside := fun _ _ => rfl

theorem Memory.calloc_cases (granted : Bool) (n : Nat) (m : Memory) :
    m.calloc granted n = (m, none) ∨
      m.calloc granted n =
        ({ m with
          tables := Function.update m.tables m.next (Table.zeroed n)
          next := m.next + 1 }, some m.next) := by
  unfold Memory.calloc
  cases fresh : ForwardTable.calloc granted n with
  | none => exact .inl rfl
  | some table =>
      obtain ⟨rfl, _⟩ := calloc_eq_some fresh
      exact .inr rfl

theorem Memory.fresh_of_lt (m : Memory) (n : Nat) {t : Nat}
    (allocated : t < m.next) :
    Function.update m.tables m.next (Table.zeroed n) t = m.tables t :=
  Function.update_of_ne (Nat.ne_of_lt allocated) _ _

theorem GrowMemory.reads (memory : GrowMemory spec m) (running : pc ≠ .done)
    (grows : pc'.Grows spec m) (same : pc'.hidden = pc.hidden) :
    pc.Moves spec m (m, pc') :=
  ⟨grows, memory, .idle same (fun done => absurd done running)⟩

theorem GrowMemory.init_step (memory : GrowMemory spec m) (granted : Bool)
    {pc : InitPc} (running : pc ≠ .done)
    (grows : (GrowPc.init pc).Grows spec m) :
    (GrowPc.init pc).Moves spec m
      ((initStep granted m pc).1, .init (initStep granted m pc).2) := by
  cases pc with
  | check =>
      have missing : m.gTable = none := grows
      simp only [initStep, missing]
      exact memory.reads (by rintro ⟨⟩) missing rfl
  | calloc =>
      have missing : m.gTable = none := grows
      simp only [initStep]
      rcases m.calloc_cases granted initialCap with refused | fresh
      · rw [refused]
        refine memory.reads (by rintro ⟨⟩) ⟨missing, ?_⟩ rfl
        rintro p ⟨⟩
      · rw [fresh]
        refine ⟨⟨missing, ?_⟩, memory.of_tables (Nat.le_succ _) rfl
          (fun t allocated => m.fresh_of_lt _ allocated), ?_⟩
        · rintro p ⟨⟩
          exact ⟨Nat.lt_succ_self _, Function.update_self _ _ _⟩
        · refine ⟨Nat.le_succ _, ?_, fun _ current => .inl current, ?_⟩
          · intro t allocated visible
            exact ⟨m.fresh_of_lt _ allocated, visible⟩
          · rintro ⟨⟩
  | storeCapacity t =>
      obtain ⟨missing, zeroed⟩ := grows
      refine ⟨⟨missing, rfl, zeroed⟩, memory.of_tables (Nat.le_refl _) rfl
        (fun _ _ => rfl), Nat.le_refl _, fun _ _ visible => ⟨rfl, visible⟩,
        fun _ current => .inl current, ?_⟩
      rintro ⟨⟩
  | storeTable t =>
      obtain ⟨missing, capacity, zeroed⟩ := grows
      have empty := memory.missing missing
      refine ⟨?_, ⟨?_, fun _ => empty⟩, Nat.le_refl _,
        fun _ _ visible => ⟨rfl, visible⟩, ?_, ?_⟩
      · intro p current
        change m.gCapacity = (m.tables p).size
        rw [(zeroed p current).2, capacity]
        rfl
      · intro p current
        obtain ⟨allocated, content⟩ := zeroed p current
        refine ⟨allocated, ?_⟩
        change (m.tables p).Holds spec
        rw [content, empty]
        exact holds_zeroed
      · intro p current
        rw [missing] at current
        cases current
      · rintro ⟨⟩
  | storeSize =>
      refine ⟨grows, memory.of_tables (Nat.le_refl _) rfl (fun _ _ => rfl),
        Nat.le_refl _, fun _ _ visible => ⟨rfl, visible⟩,
        fun _ current => .inl current, ?_⟩
      rintro ⟨⟩
  | done => exact absurd rfl running

theorem GrowMemory.calloc_step (memory : GrowMemory spec m) (granted : Bool)
    {old cap : Nat} (grows : (GrowPc.calloc old cap).Grows spec m) :
    (GrowPc.calloc old cap).Moves spec m
      (growStep granted m (.calloc old cap)) := by
  obtain ⟨steady, current, rfl⟩ := grows
  obtain ⟨allocated, holds⟩ := memory.current old current
  have oldSize := steady old current
  simp only [growStep]
  rcases m.calloc_cases granted (m.gCapacity * 2) with refused | fresh
  · rw [refused]
    exact memory.reads (by rintro ⟨⟩) steady rfl
  · rw [fresh]
    have positive : 0 < m.gCapacity := by
      obtain ⟨e, power⟩ := holds.power
      rw [oldSize, power]
      exact Nat.two_pow_pos e
    have loop : GrowPc.loop old m.gCapacity m.next 0 =
        .copyKey old m.gCapacity m.next 0 := by
      rw [GrowPc.loop, if_pos positive]
    have kept := m.fresh_of_lt (m.gCapacity * 2) allocated
    refine ⟨?_, memory.of_tables (Nat.le_succ _) rfl
      (fun t before => m.fresh_of_lt _ before), Nat.le_succ _, ?_,
      fun _ current => .inl current, ?_⟩
    · simp only [loop]
      refine ⟨current, rfl, ?_, Nat.lt_succ_of_lt allocated, ?_,
        Nat.lt_succ_self _, Nat.ne_of_lt allocated, ?_, ?_, positive⟩
      · simp only [kept]
        exact oldSize.symm
      · simpa only [kept] using holds
      · simp only [kept, Function.update_self]
        refine ⟨?_, ?_, ?_, ?_, fun _ _ _ => rfl⟩
        · rw [Table.zeroed_key]
          exact Layout.empty
        · simp [occupied]
        · intro i _ taken
          exact absurd rfl taken
        · intro l below
          omega
      · simp only [Function.update_self]
        rfl
    · intro t before _
      refine ⟨m.fresh_of_lt _ before, ?_⟩
      simp only [loop]
      intro same
      exact Nat.ne_of_lt before (Option.some.inj same).symm
    · rintro ⟨⟩

section Copy

variable {old cap nt j k v l i : Nat} (granted : Bool)

theorem GrowMemory.copyKey_step (memory : GrowMemory spec m)
    (copying : Copying spec m old cap nt j (m.tables nt)) :
    (GrowPc.copyKey old cap nt j).Moves spec m
      (growStep granted m (.copyKey old cap nt j)) := by
  simp only [growStep]
  by_cases empty : (m.slot old j).fromAddr = 0
  · rw [if_pos empty]
    obtain ⟨next, hidden⟩ :=
      copying.loop (copying.copied.skip empty) copying.size
    exact memory.reads (by rintro ⟨⟩) next hidden
  · rw [if_neg empty]
    exact memory.reads (by rintro ⟨⟩) ⟨copying, rfl, empty⟩ rfl

theorem GrowMemory.copyLen_step (memory : GrowMemory spec m)
    (grows : (GrowPc.copyLen old cap nt j k v).Grows spec m) :
    (GrowPc.copyLen old cap nt j k v).Moves spec m
      (growStep granted m (.copyLen old cap nt j k v)) := by
  obtain ⟨copying, rfl, nonzero, rfl⟩ := grows
  refine memory.reads (by rintro ⟨⟩)
    ⟨copying, rfl, nonzero, 0, ?_, ?_, Passed.zero _⟩ rfl
  · have inside := copying.inside
    change 0 < (m.tables nt).size
    rw [copying.size]
    omega
  · obtain ⟨e, power⟩ := copying.power
    rw [copying.size, power, Nat.and_two_pow_sub_one_eq_mod, probe,
      Nat.add_zero]

theorem GrowMemory.copyProbe_step (memory : GrowMemory spec m)
    (grows : (GrowPc.copyProbe old cap nt j k v l i).Grows spec m) :
    (GrowPc.copyProbe old cap nt j k v l i).Moves spec m
      (growStep granted m (.copyProbe old cap nt j k v l i)) := by
  obtain ⟨copying, entry, nonzero, onProbe⟩ := grows
  simp only [growStep]
  by_cases free : (m.slot nt i).fromAddr = 0
  · rw [if_neg (fun taken => taken free)]
    exact memory.reads (by rintro ⟨⟩)
      ⟨copying, entry, nonzero, onProbe, Table.key_eq_none.mpr free⟩ rfl
  · rw [if_pos free]
    have key : (m.slot old j).fromAddr = k := by rw [entry]
    obtain ⟨p, probeAt⟩ := onProbe
    rw [← key] at probeAt
    have further := copying.probe_next probeAt
      (fun empty => free (Table.key_eq_none.mp empty))
    rw [key] at further
    exact memory.reads (by rintro ⟨⟩)
      ⟨copying, entry, nonzero, p + 1, further⟩ rfl

theorem GrowMemory.copyStoreLen_step (memory : GrowMemory spec m)
    (grows : (GrowPc.copyStoreLen old cap nt j k v l i).Grows spec m) :
    (GrowPc.copyStoreLen old cap nt j k v l i).Moves spec m
      (growStep granted m (.copyStoreLen old cap nt j k v l i)) := by
  obtain ⟨copying, entry, nonzero, onProbe, free⟩ := grows
  have below : i < (m.tables nt).size := by
    obtain ⟨p, pBelow, here, _⟩ := onProbe
    rw [here]
    exact probe_lt _ _ (Nat.zero_lt_of_lt pBelow)
  refine ⟨⟨m.tables nt, l, copying.setSlot _ _, ?_, nonzero, onProbe, free,
    ?_⟩, memory.setSlot copying.visible, .write rfl rfl⟩
  · exact (copying.slot_old _ _ _).trans entry
  · have blank : m.slot nt i = ⟨0, 0, 0⟩ :=
      copying.copied.blank i below free
    simp only [growStep, Memory.storeLen, blank]
    exact Memory.setSlot_tables_self m nt i _

theorem GrowMemory.copyStoreAddr_step (memory : GrowMemory spec m)
    (grows : (GrowPc.copyStoreAddr old cap nt j k v i).Grows spec m) :
    (GrowPc.copyStoreAddr old cap nt j k v i).Moves spec m
      (growStep granted m (.copyStoreAddr old cap nt j k v i)) := by
  obtain ⟨content, l, copying, entry, nonzero, onProbe, free, written⟩ := grows
  refine ⟨⟨content, v, l, copying.setSlot _ _, ?_, nonzero, onProbe, free, ?_⟩,
    memory.setSlot copying.visible, .write rfl rfl⟩
  · exact (copying.slot_old _ _ _).trans entry
  · have half : m.slot nt i = ⟨0, 0, l⟩ := by
      rw [Memory.slot, written]
      simp
    simp only [growStep, Memory.storeAddr, half]
    rw [Memory.setSlot_tables_self, written]
    simp [Table.setSlot]

/-- The last store of a copied entry: the fresh table has one entry more. -/
theorem GrowMemory.copyStoreKey_step (memory : GrowMemory spec m)
    (grows : (GrowPc.copyStoreKey old cap nt j k i).Grows spec m) :
    (GrowPc.copyStoreKey old cap nt j k i).Moves spec m
      (growStep granted m (.copyStoreKey old cap nt j k i)) := by
  obtain ⟨content, v, l, copying, entry, nonzero, onProbe, free, written⟩ :=
    grows
  have whole : (m.storeKey nt i k).tables nt =
      content.setSlot i ⟨k, v, l⟩ := by
    have half : m.slot nt i = ⟨0, v, l⟩ := by
      rw [Memory.slot, written]
      simp
    simp only [Memory.storeKey, half]
    rw [Memory.setSlot_tables_self, written]
    simp [Table.setSlot]
  have after := copying.setSlot i { m.slot nt i with fromAddr := k }
  have kept : (m.storeKey nt i k).tables old = m.tables old :=
    Memory.setSlot_tables_of_ne m i _ copying.apart
  have next : Copied (m.tables old) (content.setSlot i ⟨k, v, l⟩)
      (j + 1) := by
    obtain ⟨p, below, rfl, passed⟩ := onProbe
    change (m.tables old).slot j = ⟨k, v, l⟩ at entry
    have key : ((m.tables old).slot j).fromAddr = k := by rw [entry]
    rw [← entry, ← key]
    exact copying.copied.claim (by rwa [key]) below (by rwa [key])
      (by rwa [key])
  obtain ⟨looped, hidden⟩ := after.loop (m := m.storeKey nt i k)
    (by rw [kept, whole]; exact next)
    (by rw [whole]; exact copying.size)
  exact ⟨looped, memory.setSlot copying.visible, .write rfl hidden⟩

end Copy

theorem GrowMemory.storeCapacity_step (memory : GrowMemory spec m)
    (granted : Bool) {newcap nt : Nat}
    (grows : (GrowPc.storeCapacity newcap nt).Grows spec m) :
    (GrowPc.storeCapacity newcap nt).Moves spec m
      (growStep granted m (.storeCapacity newcap nt)) := by
  obtain ⟨_, allocated, unpublished, loaded, holds, size⟩ := grows
  refine ⟨⟨allocated, unpublished, loaded, holds, size⟩,
    memory.of_tables (Nat.le_refl _) rfl (fun _ _ => rfl), Nat.le_refl _,
    fun _ _ visible => ⟨rfl, visible⟩, fun _ current => .inl current, ?_⟩
  rintro ⟨⟩

theorem GrowPc.Grows.storeTable_step (granted : Bool) {nt : Nat}
    (grows : (GrowPc.storeTable nt).Grows spec m) :
    (GrowPc.storeTable nt).Moves spec m
      (growStep granted m (.storeTable nt)) := by
  obtain ⟨allocated, _, _, holds, size⟩ := grows
  refine ⟨?_, ⟨?_, ?_⟩, Nat.le_refl _, ?_, fun _ _ => .inr rfl, fun _ => rfl⟩
  · rintro t ⟨⟩
    exact size
  · rintro t ⟨⟩
    exact ⟨allocated, holds⟩
  · rintro ⟨⟩
  · intro t _ _
    refine ⟨rfl, ?_⟩
    rintro ⟨⟩

theorem GrowMemory.step (memory : GrowMemory spec m) (granted : Bool)
    {pc : GrowPc} (grows : pc.Grows spec m) :
    pc.Moves spec m (growStep granted m pc) := by
  cases pc with
  | loadTable =>
      simp only [growStep]
      cases table : m.gTable with
      | none => exact memory.reads (by rintro ⟨⟩) table rfl
      | some old => exact memory.reads (by rintro ⟨⟩) ⟨grows, table⟩ rfl
  | init pc =>
      cases pc with
      | done => exact ⟨grows, memory, .idle rfl (fun _ => rfl)⟩
      | _ => exact memory.init_step granted (by rintro ⟨⟩) grows
  | loadCapacity old =>
      exact memory.reads (by rintro ⟨⟩) ⟨grows.1, grows.2, rfl⟩ rfl
  | loadSize old cap =>
      simp only [growStep]
      split
      · exact memory.reads (by rintro ⟨⟩) grows.1 rfl
      · exact memory.reads (by rintro ⟨⟩) grows rfl
  | calloc old cap => exact memory.calloc_step granted grows
  | copyKey old cap nt j => exact memory.copyKey_step granted grows
  | copyAddr old cap nt j k =>
      obtain ⟨copying, key, nonzero⟩ := grows
      exact memory.reads (by rintro ⟨⟩) ⟨copying, key, nonzero, rfl⟩ rfl
  | copyLen old cap nt j k v => exact memory.copyLen_step granted grows
  | copyProbe old cap nt j k v l i => exact memory.copyProbe_step granted grows
  | copyStoreLen old cap nt j k v l i =>
      exact memory.copyStoreLen_step granted grows
  | copyStoreAddr old cap nt j k v i =>
      exact memory.copyStoreAddr_step granted grows
  | copyStoreKey old cap nt j k i =>
      exact memory.copyStoreKey_step granted grows
  | storeCapacity newcap nt => exact memory.storeCapacity_step granted grows
  | storeTable nt => exact grows.storeTable_step granted
  | done => exact ⟨grows, memory, .idle rfl (fun _ => rfl)⟩

/-- Outside the window between its two stores the grow keeps `g_capacity` and
`g_table` in step. -/
theorem GrowPc.Grows.steady {pc : GrowPc} (grows : pc.Grows spec m)
    (outside : ∀ nt, pc ≠ .storeTable nt) : m.Steady := by
  have vacuous : m.gTable = none → m.Steady := by
    intro missing t current
    rw [missing] at current
    cases current
  cases pc with
  | loadTable => exact grows
  | init pc =>
      cases pc with
      | check => exact vacuous grows
      | calloc => exact vacuous grows
      | storeCapacity t => exact vacuous grows.1
      | storeTable t => exact vacuous grows.1
      | storeSize => exact grows
      | done => exact grows
  | loadCapacity old => exact grows.1
  | loadSize old cap => exact grows.1
  | calloc old cap => exact grows.1
  | copyKey old cap nt j => exact Copying.steady grows
  | copyAddr old cap nt j k => exact grows.1.steady
  | copyLen old cap nt j k v => exact grows.1.steady
  | copyProbe old cap nt j k v l i => exact grows.1.steady
  | copyStoreLen old cap nt j k v l i => exact grows.1.steady
  | copyStoreAddr old cap nt j k v i =>
      obtain ⟨_, _, copying, _⟩ := grows
      exact copying.steady
  | copyStoreKey old cap nt j k i =>
      obtain ⟨_, _, _, copying, _⟩ := grows
      exact copying.steady
  | storeCapacity newcap nt => exact grows.1
  | storeTable nt => exact absurd rfl (outside nt)
  | done => exact grows

theorem GrowPc.Grows.visible {pc : GrowPc} (grows : pc.Grows spec m) {t : Nat}
    (current : m.gTable = some t) : pc.hidden ≠ some t := by
  have apart : ∀ nt, m.gTable ≠ some nt → some nt ≠ some t := by
    intro nt unpublished same
    rw [same] at unpublished
    exact unpublished current
  cases pc with
  | copyKey old cap nt j => exact apart nt (Copying.visible grows)
  | copyAddr old cap nt j k => exact apart nt grows.1.visible
  | copyLen old cap nt j k v => exact apart nt grows.1.visible
  | copyProbe old cap nt j k v l i => exact apart nt grows.1.visible
  | copyStoreLen old cap nt j k v l i => exact apart nt grows.1.visible
  | copyStoreAddr old cap nt j k v i =>
      obtain ⟨_, _, copying, _⟩ := grows
      exact apart nt copying.visible
  | copyStoreKey old cap nt j k i =>
      obtain ⟨_, _, _, copying, _⟩ := grows
      exact apart nt copying.visible
  | storeCapacity newcap nt => exact apart nt grows.2.2.1
  | storeTable nt => exact apart nt grows.2.1
  | _ => exact Option.some_ne_none t |>.symm

end Steps

/-- The slot that the next access reads, with its table. -/
def FindPc.access : FindPc → Option (Nat × Nat)
  | .loadKey t _ i _ => some (t, i)
  | .loadAddr t i => some (t, i)
  | .loadLen t i _ => some (t, i)
  | _ => none

section Readers

variable (spec : Spec) (m : Memory) (grow : GrowPc)

/-- A table a reader may be using. -/
def Usable (t : Nat) : Prop :=
  t < m.next ∧ (m.tables t).Holds spec ∧ grow.hidden ≠ some t

/-- What an `ft_find` knows. -/
def FindPc.Resolves (key : Nat) : FindPc → Prop
  | .loadTable => True
  | .loadCapacity t => Usable spec m grow t ∧
      (m.gTable = some t ∨ grow = .done)
  | .loadKey t _ _ _ => Usable spec m grow t
  | .loadAddr t _ => Usable spec m grow t
  | .loadLen t i a => Usable spec m grow t ∧ (m.slot t i).newAddr = a
  | .done hit => hit = spec.map key

def FindPc.Follows (key : Nat) (find : FindPc) : Prop :=
  find.Probing m key ∧ find.Resolves spec m grow key

/-- What a lookup knows. -/
def LookupPc.Follows (key : Nat) : LookupPc → Prop
  | .first find => find.Follows spec m grow key
  | .chase depth na nl find => find.Follows spec m grow na ∧
      depth < chaseMax ∧
      resolve spec.map key =
        ForwardTable.chase spec.map (chaseMax - depth) na nl
  | .done final => final = resolve spec.map key

variable {spec m grow} {m' : Memory} {grow' : GrowPc}

theorem Usable.mono {t : Nat} (usable : Usable spec m grow t)
    (effect : GrowEffect m grow m' grow') :
    m'.tables t = m.tables t ∧ Usable spec m' grow' t := by
  obtain ⟨allocated, holds, visible⟩ := usable
  obtain ⟨same, still⟩ := effect.kept t allocated visible
  refine ⟨same, Nat.lt_of_lt_of_le allocated effect.next_le, ?_, still⟩
  rw [same]
  exact holds

theorem FindPc.Follows.mono {key : Nat} {find : FindPc}
    (follows : find.Follows spec m grow key)
    (effect : GrowEffect m grow m' grow') :
    find.Follows spec m' grow' key := by
  obtain ⟨probing, resolves⟩ := follows
  cases find with
  | loadTable => exact ⟨trivial, trivial⟩
  | loadCapacity t =>
      obtain ⟨usable, loaded⟩ := resolves
      refine ⟨(usable.mono effect).2.1, (usable.mono effect).2, ?_⟩
      rcases loaded with current | finished
      · exact effect.published t current
      · exact .inr (effect.finished finished)
  | loadKey t mask i probes =>
      obtain ⟨same, usable⟩ := Usable.mono resolves effect
      refine ⟨?_, usable⟩
      simp only [FindPc.Probing, same] at probing ⊢
      exact ⟨usable.1, probing.2⟩
  | loadAddr t i =>
      obtain ⟨same, usable⟩ := Usable.mono resolves effect
      refine ⟨?_, usable⟩
      simp only [FindPc.Probing, same] at probing ⊢
      exact ⟨usable.1, probing.2⟩
  | loadLen t i a =>
      obtain ⟨same, usable⟩ := Usable.mono resolves.1 effect
      refine ⟨?_, usable, ?_⟩
      · simp only [FindPc.Probing, same] at probing ⊢
        exact ⟨usable.1, probing.2⟩
      · rw [Memory.slot, same]
        exact resolves.2
  | done hit => exact ⟨trivial, resolves⟩

theorem LookupPc.Follows.mono {key : Nat} {pc : LookupPc}
    (follows : pc.Follows spec m grow key)
    (effect : GrowEffect m grow m' grow') :
    pc.Follows spec m' grow' key := by
  cases pc with
  | first find => exact FindPc.Follows.mono follows effect
  | chase depth na nl find => exact ⟨follows.1.mono effect, follows.2⟩
  | done final => exact follows

theorem FindOutcome.eq_map {key : Nat} {find : FindPc}
    {hit : Option (Nat × Nat)} (memory : GrowMemory spec m)
    (follows : find.Follows spec m grow key)
    (outcome : FindOutcome m key find hit) : hit = spec.map key := by
  obtain ⟨probing, resolves⟩ := follows
  cases outcome with
  | noTable missing =>
      rw [memory.missing missing]
      rfl
  | free empty =>
      have holds := resolves.2.1
      exact (holds.unmapped
        (holds.layout.absent_of_stop probing.2.2.2.2.2 empty)).symm
  | exhausted passed =>
      have holds := resolves.2.1
      exact (holds.unmapped
        (holds.layout.absent_of_passed_all passed)).symm
  | @unpublished t i hidden =>
      have holds := resolves.2.1
      rw [holds.entries probing.2.1 probing.2.2, Slot.entry]
      exact (if_pos hidden).symm
  | @hit t i a =>
      obtain ⟨⟨_, holds, _⟩, addr⟩ := resolves
      obtain ⟨_, below, stored, nonzero⟩ := probing
      subst addr
      rw [holds.entries below stored, Slot.entry]
      exact (if_neg nonzero).symm
  | already => exact resolves

/-- The reader does not load `g_capacity` between the two stores of the grow,
nor with a table that the grow has replaced. -/
def CalmFind (m : Memory) (grow : GrowPc) (find : FindPc) : Prop :=
  ∀ t, find = .loadCapacity t →
    (∀ nt, grow ≠ .storeTable nt) ∧ (grow = .done → m.gTable = some t)

theorem GrowMemory.find_step (memory : GrowMemory spec m)
    (grows : grow.Grows spec m) {key : Nat} {find : FindPc}
    (follows : find.Follows spec m grow key) (calm : CalmFind m grow find) :
    (findStep m key find).Follows spec m grow key := by
  have stepped := follows.1.step
    (fun t current => (memory.current t current).1)
    (fun t loading => by
      subst loading
      obtain ⟨outside, settled⟩ := calm t rfl
      have current : m.gTable = some t := follows.2.2.elim id settled
      have size := grows.steady outside t current
      obtain ⟨e, power⟩ := (memory.current t current).2.power
      exact ⟨size, e, size.trans power⟩)
  refine ⟨stepped.1, ?_⟩
  have resolved : ∀ hit, findStep m key find = .done hit →
      hit = spec.map key :=
    fun hit done => (stepped.2 hit done).eq_map memory follows
  obtain ⟨_, resolves⟩ := follows
  cases find with
  | loadTable =>
      cases table : m.gTable with
      | none =>
          simp only [findStep, table] at resolved ⊢
          exact resolved _ rfl
      | some t =>
          simp only [findStep, table]
          obtain ⟨allocated, holds⟩ := memory.current t table
          exact ⟨⟨allocated, holds, grows.visible table⟩, .inl table⟩
  | loadCapacity t => exact resolves.1
  | loadKey t mask i probes =>
      simp only [findStep] at resolved ⊢
      by_cases free : (m.slot t i).fromAddr = 0
      · rw [if_pos free] at resolved ⊢
        exact resolved _ rfl
      by_cases mine : (m.slot t i).fromAddr = key
      · rw [if_neg free, if_pos mine]
        exact resolves
      · rw [if_neg free, if_neg mine] at resolved ⊢
        by_cases more : probes + 1 ≤ mask
        · rw [if_pos more]
          exact resolves
        · rw [if_neg more] at resolved ⊢
          exact resolved _ rfl
  | loadAddr t i =>
      simp only [findStep] at resolved ⊢
      by_cases hidden : (m.slot t i).newAddr = 0
      · rw [if_pos hidden] at resolved ⊢
        exact resolved _ rfl
      · rw [if_neg hidden]
        exact ⟨resolves, rfl⟩
  | loadLen t i a => exact resolved _ rfl
  | done hit => exact resolves

theorem GrowMemory.lookup_step (memory : GrowMemory spec m)
    (grows : grow.Grows spec m) {key : Nat} {pc : LookupPc}
    (follows : pc.Follows spec m grow key)
    (calm : ∀ k find, pc.current key = some (k, find) →
      CalmFind m grow find) :
    (lookupStep m key pc).Follows spec m grow key := by
  cases pc with
  | first find =>
      rcases find.done_or_running with ⟨hit, rfl⟩ | searching
      · have found : hit = spec.map key := follows.2
        rcases hit with _ | ⟨na, nl⟩
        · change none = resolve spec.map key
          simp only [resolve, ← found]
        · refine ⟨⟨trivial, trivial⟩, by decide, ?_⟩
          simp only [resolve, ← found, Nat.sub_zero]
      · rw [lookupStep_first m key searching]
        exact memory.find_step grows follows (calm key find rfl)
  | chase depth na nl find =>
      obtain ⟨inner, within, chased⟩ := follows
      have unfolded : chaseMax - depth = chaseMax - (depth + 1) + 1 := by omega
      rcases find.done_or_running with ⟨hit, rfl⟩ | searching
      · have found : hit = spec.map na := inner.2
        rw [unfolded] at chased
        simp only [ForwardTable.chase, ← found] at chased
        rcases hit with _ | ⟨nna, nnl⟩
        · exact chased.symm
        · simp only [lookupStep] at chased ⊢
          by_cases same : nna = na
          · rw [if_pos same] at chased ⊢
            exact chased.symm
          · rw [if_neg same] at chased ⊢
            by_cases last : chaseMax ≤ depth + 1
            · rw [if_pos last]
              have spent : chaseMax - (depth + 1) = 0 := by omega
              rw [spent] at chased
              exact chased.symm
            · rw [if_neg last]
              exact ⟨⟨trivial, trivial⟩, by omega, chased⟩
      · rw [lookupStep_chase m key depth na nl searching]
        exact ⟨memory.find_step grows inner (calm na find rfl), within, chased⟩
  | done final => exact follows

end Readers

section Runs

variable {ι : Type*} [DecidableEq ι]

/-- The grow starts on a table that stands for the map, and all other threads
start a lookup. -/
structure GrowSetting (spec : Spec) (start : System ι) (grower : ι) : Prop where
  refines : Refines start.shared.state spec
  allocated : ∀ t, start.shared.gTable = some t → t < start.shared.next
  growing : start.locals grower = .grow .loadTable
  reading : ∀ j, j ≠ grower →
    ∃ key, start.locals j = .lookup key (.first .loadTable)

/-- A step of a calm run. -/
inductive CalmStep (grower : ι) : System ι → System ι → Prop where
  | run {c : System ι} (j : ι) {m' : Memory} {l' : Thread} :
      ThreadStep c.shared (c.locals j) m' l' →
      (∀ grow key pc k find, c.locals grower = .grow grow →
        c.locals j = .lookup key pc → pc.current key = some (k, find) →
        CalmFind c.shared grow find) →
      CalmStep grower c (c.advance j m' l')

/-- The invariant of all configurations. -/
def Growing (spec : Spec) (grower : ι) (c : System ι) : Prop :=
  ∃ grow, c.locals grower = .grow grow ∧ grow.Grows spec c.shared ∧
    GrowMemory spec c.shared ∧
    ∀ j, j ≠ grower → ∃ key pc, c.locals j = .lookup key pc ∧
      pc.Follows spec c.shared grow key

variable {spec : Spec} {start c c' : System ι} {grower : ι}

omit [DecidableEq ι] in
theorem GrowSetting.initially (setting : GrowSetting spec start grower) :
    Growing spec grower start := by
  have refines := setting.refines
  have table : ∀ t, start.shared.gTable = some t →
      start.shared.state.gTable = some (start.shared.tables t) := by
    intro t current
    simp [Memory.state, current]
  refine ⟨.loadTable, setting.growing, ?_, ⟨?_, ?_⟩, ?_⟩
  · intro t current
    exact (refines.shape (table t current)).size_eq.symm
  · intro t current
    exact ⟨setting.allocated t current, refines.holds (table t current)⟩
  · intro missing
    exact refines.unallocated (by simp [Memory.state, missing])
  · intro j other
    obtain ⟨key, reads⟩ := setting.reading j other
    exact ⟨key, _, reads, trivial, trivial⟩

theorem Growing.step (growing : Growing spec grower c)
    (taken : CalmStep grower c c') : Growing spec grower c' := by
  obtain ⟨grow, here, grows, memory, readers⟩ := growing
  obtain ⟨j, stepped, calm⟩ := taken
  by_cases mine : j = grower
  · subst mine
    rw [here] at stepped
    cases stepped with
    | grow granted =>
        obtain ⟨nextGrows, nextMemory, effect⟩ := memory.step granted grows
        refine ⟨_, Config.advance_locals_self _ _ _ _, nextGrows, nextMemory, ?_⟩
        intro k other
        obtain ⟨key, pc, reads, follows⟩ := readers k other
        refine ⟨key, pc, ?_, follows.mono effect⟩
        rw [Config.advance_locals_of_ne _ _ _ other, reads]
  · obtain ⟨key, pc, reads, follows⟩ := readers j mine
    have quiet : ∀ k find, pc.current key = some (k, find) →
        CalmFind c.shared grow find :=
      fun k find current => calm grow key pc k find here reads current
    rw [reads] at stepped
    cases stepped
    refine ⟨grow, ?_, grows, memory, ?_⟩
    · rw [Config.advance_locals_of_ne _ _ _ (Ne.symm mine), here]
    · intro k other
      by_cases same : k = j
      · subst same
        exact ⟨key, _, Config.advance_locals_self _ _ _ _,
          memory.lookup_step grows follows quiet⟩
      · rw [Config.advance_locals_of_ne _ _ _ same]
        exact readers k other

theorem growing_of_reachable (setting : GrowSetting spec start grower)
    (reachable : Relation.ReflTransGen (CalmStep grower) start c) :
    Growing spec grower c := by
  induction reachable with
  | refl => exact setting.initially
  | tail _ last ih => exact ih.step last

/-- The slot a probing reader accesses exists. -/
theorem FindPc.Probing.access_lt {m : Memory} {key t i : Nat} {find : FindPc}
    (probing : find.Probing m key) (access : find.access = some (t, i)) :
    i < (m.tables t).size := by
  cases find with
  | loadKey t mask i probes =>
      cases access
      obtain ⟨_, _, _, below, here, _⟩ := probing
      rw [here]
      exact probe_lt _ _ (Nat.zero_lt_of_lt below)
  | loadAddr t i =>
      cases access
      exact probing.2.1
  | loadLen t i a =>
      cases access
      exact probing.2.1
  | _ => cases access

/-- In every calm interleaving of one grow with any number of lookups, every
slot a reader accesses lies within the table it loaded, and `ft_find` and the
lookup return what they return on the abstract map. -/
theorem forwardTableLookup_across_grow (setting : GrowSetting spec start grower)
    (reachable : Relation.ReflTransGen (CalmStep grower) start c) {j : ι}
    {key : Nat} {pc : LookupPc} (reads : c.locals j = .lookup key pc) :
    (∀ k find t i, pc.current key = some (k, find) →
      find.access = some (t, i) → i < (c.shared.tables t).size) ∧
    (∀ k hit, pc.current key = some (k, .done hit) → hit = spec.map k) ∧
    (∀ final, pc = .done final → final = resolve spec.map key) := by
  obtain ⟨grow, here, _, _, readers⟩ := growing_of_reachable setting reachable
  have other : j ≠ grower := by
    rintro rfl
    rw [here] at reads
    cases reads
  obtain ⟨key', pc', reads', follows⟩ := readers j other
  rw [reads] at reads'
  cases reads'
  have inner : ∀ k find, pc.current key = some (k, find) →
      find.Follows spec c.shared grow k := by
    intro k find current
    cases pc with
    | first pc =>
        cases current
        exact follows
    | chase depth na nl pc =>
        cases current
        exact follows.1
    | done final => cases current
  refine ⟨?_, ?_, ?_⟩
  · intro k find t i current access
    exact (inner k find current).1.access_lt access
  · intro k hit current
    exact (inner k _ current).2
  · rintro final rfl
    exact follows

end Runs

/-- Steps of a grow whose allocation is granted. -/
abbrev GrowRun : Memory × GrowPc → Memory × GrowPc → Prop :=
  Relation.ReflTransGen fun before after => after = growStep true before.1 before.2

section Progress

variable {spec : Spec} {m : Memory} {old cap nt j : Nat}

theorem GrowRun.invariant {before after : Memory × GrowPc}
    (run : GrowRun before after) (memory : GrowMemory spec before.1)
    (grows : before.2.Grows spec before.1) :
    GrowMemory spec after.1 ∧ after.2.Grows spec after.1 ∧
      ∀ t, Usable spec before.1 before.2 t →
        after.1.tables t = before.1.tables t ∧
          Usable spec after.1 after.2 t := by
  induction run with
  | refl => exact ⟨memory, grows, fun t usable => ⟨rfl, usable⟩⟩
  | tail _ last ih =>
      obtain ⟨memoryHere, growsHere, keptHere⟩ := ih
      obtain ⟨nextGrows, nextMemory, effect⟩ := memoryHere.step true growsHere
      rw [last]
      refine ⟨nextMemory, nextGrows, fun t usable => ?_⟩
      obtain ⟨same, still⟩ := keptHere t usable
      obtain ⟨sameNext, stillNext⟩ := still.mono effect
      exact ⟨sameNext.trans same, stillNext⟩

theorem Copying.probe_run (copying : Copying spec m old cap nt j (m.tables nt))
    {k v l : Nat} (key : (m.slot old j).fromAddr = k) {rest i p : Nat}
    (probeAt : (m.tables nt).ProbeAt k i p)
    (within : p + rest = (m.tables nt).size) :
    ∃ i', GrowRun (m, .copyProbe old cap nt j k v l i)
      (m, .copyStoreLen old cap nt j k v l i') := by
  induction rest generalizing i p with
  | zero =>
      have below := probeAt.1
      omega
  | succ rest ih =>
      by_cases free : (m.slot nt i).fromAddr = 0
      · refine ⟨i, .single ?_⟩
        simp only [growStep]
        rw [if_neg (fun taken => taken free)]
      · rw [← key] at probeAt
        have further := copying.probe_next probeAt
          (fun empty => free (Table.key_eq_none.mp empty))
        rw [key] at further
        obtain ⟨i', run⟩ := ih further (by omega)
        refine ⟨i', .head ?_ run⟩
        simp only [growStep]
        rw [if_pos free]

theorem Copying.iteration (copying : Copying spec m old cap nt j (m.tables nt)) :
    ∃ m', GrowRun (m, .copyKey old cap nt j)
      (m', GrowPc.loop old cap nt (j + 1)) := by
  by_cases empty : (m.slot old j).fromAddr = 0
  · refine ⟨m, .single ?_⟩
    simp only [growStep]
    rw [if_pos empty]
  · have toAddr : GrowRun (m, .copyKey old cap nt j)
        (m, .copyAddr old cap nt j (m.slot old j).fromAddr) := by
      refine .single ?_
      simp only [growStep]
      rw [if_neg empty]
    have toProbe := (toAddr.tail rfl).tail rfl
    obtain ⟨e, power⟩ := copying.power
    have inside := copying.inside
    have size := copying.size
    have start : (m.tables nt).ProbeAt (m.slot old j).fromAddr
        (mix (m.slot old j).fromAddr &&& (cap * 2 - 1)) 0 := by
      refine ⟨by omega, ?_, Passed.zero _⟩
      rw [size, power, Nat.and_two_pow_sub_one_eq_mod, probe, Nat.add_zero]
    obtain ⟨i, probed⟩ := copying.probe_run rfl start (Nat.zero_add _)
    exact ⟨_, (((toProbe.trans probed).tail rfl).tail rfl).tail rfl⟩

theorem Copying.run (memory : GrowMemory spec m)
    (copying : Copying spec m old cap nt j (m.tables nt)) {rest : Nat}
    (left : j + 1 + rest = cap) :
    ∃ m', GrowRun (m, .copyKey old cap nt j) (m', .storeCapacity (cap * 2) nt) := by
  induction rest generalizing m j with
  | zero =>
      obtain ⟨m', run⟩ := copying.iteration
      rw [GrowPc.loop, if_neg (by omega)] at run
      exact ⟨m', run⟩
  | succ rest ih =>
      obtain ⟨m', run⟩ := copying.iteration
      rw [GrowPc.loop, if_pos (by omega)] at run
      obtain ⟨nextMemory, next, _⟩ := run.invariant memory copying
      obtain ⟨last, later⟩ := ih nextMemory next (by omega)
      exact ⟨last, run.trans later⟩

/-- A grow that runs alone on a loaded table reaches the store of
`g_table`, with the doubled capacity already visible. -/
theorem grow_reaches_storeTable (memory : GrowMemory spec m)
    (current : m.gTable = some old) (steady : m.Steady)
    (loaded : ¬ m.gSize * 10 < m.gCapacity * 7)
    (bytes : m.gCapacity * 2 * slotBytes < addressSpace) :
    ∃ m' nt, GrowRun (m, .loadTable) (m', .storeTable nt) ∧ nt ≠ old ∧
      m'.gCapacity = m.gCapacity * 2 ∧
      (m'.tables old).size = m.gCapacity := by
  have granted : ForwardTable.calloc true (m.gCapacity * 2) =
      some (Table.zeroed (m.gCapacity * 2)) := by
    rw [ForwardTable.calloc, if_pos ⟨rfl, bytes⟩]
  have positive : 0 < m.gCapacity := by
    obtain ⟨e, power⟩ := (memory.current old current).2.power
    rw [steady old current, power]
    exact Nat.two_pow_pos e
  have toCapacity : GrowRun (m, .loadTable) (m, .loadCapacity old) := by
    refine .single ?_
    simp only [growStep, current]
  have toSize : GrowRun (m, .loadTable) (m, .loadSize old m.gCapacity) :=
    toCapacity.tail rfl
  have toCalloc : GrowRun (m, .loadTable) (m, .calloc old m.gCapacity) := by
    refine toSize.tail ?_
    simp only [growStep]
    rw [if_neg loaded]
  have toCopy : GrowRun (m, .loadTable)
      ({ m with
        tables := Function.update m.tables m.next
          (Table.zeroed (m.gCapacity * 2))
        next := m.next + 1 }, .copyKey old m.gCapacity m.next 0) := by
    refine toCalloc.tail ?_
    simp only [growStep, Memory.calloc, granted]
    rw [GrowPc.loop, if_pos positive]
  obtain ⟨memoryHere, copying, _⟩ := toCopy.invariant memory steady
  have left : 0 + 1 + (m.gCapacity - 1) = m.gCapacity := by omega
  obtain ⟨m', copied⟩ := Copying.run memoryHere copying left
  have whole : GrowRun (m, .loadTable)
      ({ m' with gCapacity := m.gCapacity * 2 }, .storeTable m.next) :=
    (toCopy.trans copied).tail rfl
  obtain ⟨_, _, kept⟩ := whole.invariant memory steady
  obtain ⟨allocated, holds⟩ := memory.current old current
  obtain ⟨same, _⟩ := kept old ⟨allocated, holds, by rintro ⟨⟩⟩
  refine ⟨_, m.next, whole, Nat.ne_of_gt allocated, rfl, ?_⟩
  rw [same, steady old current]

end Progress

/-- The `i`-th of many objects of 32 bytes. -/
def movedCap (i : Nat) : Cap :=
  { tag := true
    base := 2 ^ 30 + 32 * i
    length := 32
    address := 2 ^ 30 + 32 * i
    perms := { swVmem := false, rest := 1 } }

/-- Moving `n` of them, from the static initialisers on. -/
def insertions (n : Nat) : List Call :=
  .init true ::
    (List.range n).map fun i => .insert true (16 * (i + 1)) (movedCap i)

theorem insertions_succ (n : Nat) :
    insertions (n + 1) =
      insertions n ++ [.insert true (16 * (n + 1)) (movedCap n)] := by
  simp [insertions, List.range_succ]

theorem specAll_append (m : Spec) (calls : List Call) (call : Call) :
    specAll m (calls ++ [call]) = call.spec (specAll m calls) := by
  induction calls generalizing m with
  | nil => rfl
  | cons first rest ih => exact ih (first.spec m)

theorem forwardTableInsert_capacity {granted : Bool} {s s' : State} {t : Table}
    {key : Nat} {newCap : Cap} (allocated : s.gTable = some t)
    (ran : forwardTableInsert granted s key newCap = .ok s') :
    s'.gCapacity = s.gCapacity ∧ ∃ t', s'.gTable = some t' := by
  have ready : forwardTableInit granted s = s := by
    simp only [forwardTableInit, allocated]
  simp only [forwardTableInsert, ready, allocated] at ran
  split at ran
  · cases ran
    exact ⟨rfl, t, allocated⟩
  · cases ran
    exact ⟨rfl, _, rfl⟩

theorem insertions_run (cheri : Intrinsics) (arenaBase : Option Cap) {n : Nat}
    (fits : n ≤ initialCap) :
    ∃ s t, execAll cheri arenaBase initial (insertions n) = .ok s ∧
      Refines s (specAll Spec.empty (insertions n)) ∧
      (specAll Spec.empty (insertions n)).keys =
        (Finset.range n).image (fun i => 16 * (i + 1)) ∧
      s.gTable = some t ∧ s.gCapacity = initialCap := by
  induction n with
  | zero =>
      refine ⟨_, Table.zeroed initialCap, rfl, refines_initial.init true, rfl,
        ?_, rfl⟩
      simp only [forwardTableInit, initial, calloc]
      rw [if_pos (by decide)]
  | succ n ih =>
      obtain ⟨s, t, ran, refines, keys, allocated, capacity⟩ := ih (by omega)
      have more := insertions_succ n
      have card : (Finset.image (fun i => 16 * (i + 1))
          (Finset.range (n + 1))).card ≤ initialCap := by
        refine Finset.card_image_le.trans ?_
        rw [Finset.card_range]
        exact fits
      have newKeys : (specAll Spec.empty (insertions (n + 1))).keys =
          (Finset.range (n + 1)).image (fun i => 16 * (i + 1)) := by
        rw [more, specAll_append, Finset.range_add_one, Finset.image_insert,
          ← keys]
        rfl
      have room : ∀ s', forwardTableInsert true s (16 * (n + 1)) (movedCap n) =
          .ok s' → ((specAll Spec.empty (insertions n)).insert
            (16 * (n + 1)) (movedCap n)).keys.card ≤ s'.gCapacity := by
        intro s' inserted
        rw [(forwardTableInsert_capacity allocated inserted).1, capacity]
        rw [more, specAll_append] at newKeys
        simp only [Call.spec] at newKeys
        rw [newKeys]
        exact card
      rcases refines.insert true (movedCap n) (by omega) room with
        ⟨missing, _⟩ | ⟨s', inserted, next⟩
      · simp only [forwardTableInit, allocated] at missing
        cases missing
      · obtain ⟨sameCapacity, t', allocated'⟩ :=
          forwardTableInsert_capacity allocated inserted
        refine ⟨s', t', ?_, ?_, newKeys, allocated', by rw [sameCapacity, capacity]⟩
        · rw [more, execAll_append, ran]
          exact congrArg (·.bind .ok) inserted
        · rw [more, specAll_append]
          exact next

/-- The grow and one reader on a given table. -/
def resizing (s : State) (t : Table) : System Bool :=
  { shared :=
      { tables := fun _ => t
        next := 1
        gTable := some 0
        gCapacity := s.gCapacity
        gSize := s.gSize }
    locals := fun reads =>
      if reads then .lookup 32 (.first .loadTable) else .grow .loadTable }

theorem resizing_setting {s : State} {t : Table} {spec : Spec}
    (allocated : s.gTable = some t) (refines : Refines s spec) :
    GrowSetting spec (resizing s t) false where
  refines := by
    have same : (resizing s t).shared.state = s := by
      cases s
      cases allocated
      rfl
    rw [same]
    exact refines
  allocated := by
    rintro t ⟨⟩
    exact Nat.zero_lt_one
  growing := rfl
  reading := by
    intro reads other
    cases reads with
    | false => exact absurd rfl other
    | true => exact ⟨32, rfl⟩

section Calm

variable {ι : Type*} [DecidableEq ι] {c c' : System ι} {g : ι}

theorem CalmStep.reachable (run : Relation.ReflTransGen (CalmStep g) c c') :
    SystemReachable c c' := by
  refine Relation.ReflTransGen.mono ?_ _ _ run
  rintro _ _ ⟨j, stepped, _⟩
  exact .run j stepped

theorem GrowRun.calm {pc pc' : GrowPc} {m' : Memory}
    (here : c.locals g = .grow pc) (run : GrowRun (c.shared, pc) (m', pc')) :
    Relation.ReflTransGen (CalmStep g) c (c.advance g m' (.grow pc')) := by
  have general : ∀ after, GrowRun (c.shared, pc) after →
      Relation.ReflTransGen (CalmStep g) c
        (c.advance g after.1 (.grow after.2)) := by
    intro after run
    induction run with
    | refl =>
        rw [← here, Config.advance_self]
    | @tail before after _ last ih =>
        refine ih.tail ?_
        have stepped : CalmStep g (c.advance g before.1 (.grow before.2))
            ((c.advance g before.1 (.grow before.2)).advance g after.1
              (.grow after.2)) := by
          refine .run g ?_ ?_
          · rw [Config.advance_locals_self, Config.advance_shared, last]
            exact .grow true
          · intro _ key pc k find _ reads
            rw [Config.advance_locals_self] at reads
            cases reads
        rwa [Config.advance_advance] at stepped
  exact general (m', pc') run

/-- A lookup that runs alone is calm unless the grow stands between its two
stores; it must not have loaded the table pointer before. -/
theorem calm_solo {grow : GrowPc} (waiting : c.locals g = .grow grow)
    (outside : ∀ nt, grow ≠ .storeTable nt) {j : ι} (other : g ≠ j) {key : Nat}
    {pc : LookupPc} (reads : c.locals j = .lookup key pc)
    (unloaded : ∀ k t, pc.current key ≠ some (k, .loadCapacity t)) (n : Nat) :
    Relation.ReflTransGen (CalmStep g) c
      (c.advance j c.shared (.lookup key ((lookupStep c.shared key)^[n] pc))) := by
  have current : ∀ n k t, ((lookupStep c.shared key)^[n] pc).current key =
      some (k, .loadCapacity t) → c.shared.gTable = some t := by
    intro n k t loading
    cases n with
    | zero => exact absurd loading (unloaded k t)
    | succ n =>
        rw [Function.iterate_succ_apply'] at loading
        exact lookupStep_loadCapacity loading
  induction n with
  | zero =>
      rw [Function.iterate_zero, id, ← reads, Config.advance_self]
  | succ n ih =>
      refine ih.tail ?_
      rw [Function.iterate_succ_apply']
      generalize reached : (lookupStep c.shared key)^[n] pc = before
      have last : CalmStep g (c.advance j c.shared (.lookup key before))
          ((c.advance j c.shared (.lookup key before)).advance j c.shared
            (.lookup key (lookupStep c.shared key before))) := by
        refine .run j ?_ ?_
        · rw [Config.advance_locals_self, Config.advance_shared]
          exact .lookup
        · intro grow' key' pc' k find here reads' running t loading
          rw [Config.advance_locals_of_ne _ _ _ other, waiting] at here
          rw [Config.advance_locals_self] at reads'
          cases here
          cases reads'
          subst loading
          rw [← reached] at running
          exact ⟨outside, fun _ => current n k t running⟩
      rwa [Config.advance_advance] at last

end Calm

theorem insertions_map {n i : Nat} (below : i < n) :
    (specAll Spec.empty (insertions n)).map (16 * (i + 1)) =
      some (2 ^ 30 + 32 * i, 32) := by
  induction n with
  | zero => cases below
  | succ n ih =>
      rw [insertions_succ, specAll_append]
      simp only [Call.spec, Spec.insert]
      by_cases last : i = n
      · subst last
        rw [Function.update_self]
        simp [Slot.entry, movedCap]
      · rw [Function.update_of_ne (by omega), ih (by omega)]

/-- 45876 insertions fill the table of 65536 slots to 70 per cent, and the
grow gets to its store of `g_table`. -/
theorem loaded_grow :
    ∃ (s : State) (t : Table) (m' : Memory) (nt : Nat),
      execAll Intrinsics.exact none initial (insertions 45876) = .ok s ∧
      Refines s (specAll Spec.empty (insertions 45876)) ∧
      (specAll Spec.empty (insertions 45876)).keys =
        (Finset.range 45876).image (fun i => 16 * (i + 1)) ∧
      s.gTable = some t ∧ s.gCapacity = 65536 ∧
      GrowRun ((resizing s t).shared, .loadTable) (m', .storeTable nt) ∧
      nt ≠ 0 ∧ m'.gCapacity = 65536 * 2 ∧ (m'.tables 0).size = 65536 := by
  obtain ⟨s, t, ran, refines, keys, allocated, capacity⟩ :=
    insertions_run Intrinsics.exact none (n := 45876) (by decide)
  have gSize : s.gSize = 45876 := by
    rw [refines.keys_card allocated, keys, Finset.card_image_of_injective,
      Finset.card_range]
    intro i j same
    simp only at same
    omega
  obtain ⟨grow, here, grows, memory, _⟩ :=
    (resizing_setting allocated refines).initially
  cases here
  have capacity' : (resizing s t).shared.gCapacity = 65536 := capacity
  have gSize' : (resizing s t).shared.gSize = 45876 := gSize
  have current : (resizing s t).shared.gTable = some 0 := rfl
  obtain ⟨m', nt, run, fresh, doubled, oldSize⟩ :=
    grow_reaches_storeTable memory current grows
      (by rw [capacity', gSize']; decide) (by rw [capacity']; decide)
  rw [capacity'] at doubled oldSize
  exact ⟨s, t, m', nt, ran, refines, keys, allocated, capacity, run, fresh,
    doubled, oldSize⟩

theorem insertions_resolve {n : Nat} (two : 2 ≤ n) (apart : n ≤ 2 ^ 26)
    (outside : ∀ k, k ∉ (specAll Spec.empty (insertions n)).keys →
      (specAll Spec.empty (insertions n)).map k = none)
    (keys : (specAll Spec.empty (insertions n)).keys =
      (Finset.range n).image (fun i => 16 * (i + 1))) :
    resolve (specAll Spec.empty (insertions n)).map 32 =
      some (2 ^ 30 + 32, 32) := by
  have moved : (specAll Spec.empty (insertions n)).map 32 =
      some (2 ^ 30 + 32, 32) :=
    insertions_map (i := 1) two
  have unmoved : (specAll Spec.empty (insertions n)).map (2 ^ 30 + 32) =
      none := by
    apply outside
    rw [keys, Finset.mem_image]
    rintro ⟨i, member, same⟩
    have below := Finset.mem_range.mp member
    omega
  simp only [resolve, moved, chaseMax, ForwardTable.chase, unmoved]

/-- The reader loads the old table and its capacity, the grow doubles the table,
and the reader finds its key in the old one. -/
theorem forwardTableLookup_across_grow_doubled :
    ∃ (s : State) (t : Table) (c : System Bool),
      execAll Intrinsics.exact none initial (insertions 45876) = .ok s ∧
      s.gTable = some t ∧
      Relation.ReflTransGen (CalmStep false) (resizing s t) c ∧
      c.locals false = .grow .done ∧ c.shared.gCapacity = 65536 * 2 ∧
      (∃ nt, c.shared.gTable = some nt ∧ nt ≠ 0) ∧
      c.locals true = .lookup 32 (.done (some (2 ^ 30 + 32, 32))) := by
  obtain ⟨s, t, m', nt, ran, refines, keys, allocated, _, run, fresh, doubled,
    _⟩ := loaded_grow
  have setting := resizing_setting allocated refines
  -- the reader loads `g_table` and `g_capacity`
  have first := calm_solo setting.growing (by rintro _ ⟨⟩) (j := true)
    (by decide) rfl (by rintro _ _ ⟨⟩) 2
  generalize loaded : Config.advance _ true _ _ = c₁ at first
  have shared₁ : c₁.shared = (resizing s t).shared := by
    rw [← loaded]
    rfl
  have grower₁ : c₁.locals false = .grow .loadTable := by
    rw [← loaded]
    rfl
  obtain ⟨i, reader₁⟩ : ∃ i, c₁.locals true =
      .lookup 32 (.first (.loadKey 0 (s.gCapacity - 1) i 0)) := by
    rw [← loaded]
    exact ⟨_, rfl⟩
  -- the grow runs to its end
  have toEnd : GrowRun (c₁.shared, .loadTable)
      ({ m' with gTable := some nt }, .done) := by
    rw [shared₁]
    exact run.tail rfl
  have second := first.trans (toEnd.calm grower₁)
  generalize grown : Config.advance c₁ _ _ _ = c₂ at second
  have shared₂ : c₂.shared = { m' with gTable := some nt } := by
    rw [← grown]
    rfl
  have grower₂ : c₂.locals false = .grow .done := by
    rw [← grown, Config.advance_locals_self]
  have reader₂ : c₂.locals true =
      .lookup 32 (.first (.loadKey 0 (s.gCapacity - 1) i 0)) := by
    rw [← grown, Config.advance_locals_of_ne _ _ _ (by decide), reader₁]
  -- the reader searches the table it has loaded
  have positive : 0 < c₂.shared.gCapacity := by
    rw [shared₂]
    change 0 < m'.gCapacity
    omega
  have bounded : LookupPc.Bounded
      (.first (.loadKey 0 (s.gCapacity - 1) i 0)) := trivial
  obtain ⟨n, final, ended⟩ := lookup_ends c₂.shared 32 positive bounded
  have third := second.trans (calm_solo grower₂ (by rintro _ ⟨⟩) (by decide)
    reader₂ (by rintro _ _ ⟨⟩) n)
  rw [ended] at third
  generalize returned : Config.advance c₂ _ _ _ = c₃ at third
  have shared₃ : c₃.shared = { m' with gTable := some nt } := by
    rw [← returned]
    exact shared₂
  have reader₃ : c₃.locals true = .lookup 32 (.done final) := by
    rw [← returned, Config.advance_locals_self]
  have found := (forwardTableLookup_across_grow setting third reader₃).2.2
    final rfl
  rw [insertions_resolve (by decide) (by decide) refines.outside keys] at found
  refine ⟨s, t, c₃, ran, allocated, third, ?_, ?_, ⟨nt, ?_, fresh⟩, ?_⟩
  · rw [← returned, Config.advance_locals_of_ne _ _ _ (by decide), grower₂]
  · rw [shared₃]
    exact doubled
  · rw [shared₃]
  · rw [reader₃, found]

/-- The reader loads the old `g_table`, the grow doubles `g_capacity`, and the
reader masks the hash of key 32 to index 109893. -/
theorem forwardTableLookup_overruns :
    ∃ (s : State) (t : Table) (c : System Bool),
      execAll Intrinsics.exact none initial (insertions 45876) = .ok s ∧
      s.gTable = some t ∧
      GrowSetting (specAll Spec.empty (insertions 45876)) (resizing s t) false ∧
      SystemReachable (resizing s t) c ∧
      ∃ mask, c.locals true =
          .lookup 32 (.first (.loadKey 0 mask 109893 0)) ∧
        (c.shared.tables 0).size = 65536 := by
  obtain ⟨s, t, m', nt, ran, refines, _, allocated, _, run, _,
    doubled, oldSize⟩ := loaded_grow
  have setting := resizing_setting allocated refines
  -- the reader loads `g_table`
  have first := calm_solo setting.growing (by rintro _ ⟨⟩) (j := true)
    (by decide) rfl (by rintro _ _ ⟨⟩) 1
  generalize loaded : Config.advance _ true _ _ = c₁ at first
  have shared₁ : c₁.shared = (resizing s t).shared := by
    rw [← loaded]
    rfl
  have grower₁ : c₁.locals false = .grow .loadTable := by
    rw [← loaded]
    rfl
  have reader₁ : c₁.locals true =
      .lookup 32 (.first (.loadCapacity 0)) := by
    rw [← loaded]
    rfl
  -- the grow runs up to its store of `g_table`
  rw [← shared₁] at run
  have second := CalmStep.reachable (first.trans (run.calm grower₁))
  -- the reader loads `g_capacity`
  have home : mix 32 &&& (65536 * 2 - 1) = 109893 := by decide +kernel
  have third : ThreadStep m' (.lookup 32 (.first (.loadCapacity 0))) m'
      (.lookup 32 (.first (.loadKey 0 131071 109893 0))) := by
    have loads : lookupStep m' 32 (.first (.loadCapacity 0)) =
        .first (.loadKey 0 131071 109893 0) := by
      rw [lookupStep_first _ _ (by rintro _ ⟨⟩), findStep, doubled, home]
    rw [← loads]
    exact .lookup
  refine ⟨s, t, _, ran, allocated, setting, second.tail (.run true ?_), 131071,
    Config.advance_locals_self _ _ _ _, oldSize⟩
  rw [Config.advance_shared, Config.advance_locals_of_ne _ _ _ (by decide),
    reader₁]
  exact third

end ForwardTable

end StoplessGC
