import StoplessGC.ForwardTableMap
import StoplessGC.Foundation.Interleaving

/-!
# The forwarding table, one atomic access at a time

The same functions as in `ForwardTable`, cut at every atomic load, store and
compare-exchange.  A program counter names the access that comes next and
holds the local variables that are live there.  Slot arrays live in a heap of
tables, so that a thread can keep using a table it loaded earlier.
-/

namespace StoplessGC

namespace ForwardTable

open OpenAddressing

/-- The memory all threads share.  Pointers below `next` are allocated. -/
structure Memory where
  tables : Nat → Table
  next : Nat
  gTable : Option Nat
  gCapacity : Nat
  gSize : Nat

namespace Memory

/-- The static initialisers. -/
def initial : Memory :=
  { tables := fun _ => Table.zeroed 0
    next := 0
    gTable := none
    gCapacity := 0
    gSize := 0 }

/-- The memory after `forward_table_init`. -/
def ready : Memory :=
  { tables := fun _ => Table.zeroed initialCap
    next := 1
    gTable := some 0
    gCapacity := initialCap
    gSize := 0 }

def slot (m : Memory) (t i : Nat) : Slot := (m.tables t).slot i

def calloc (granted : Bool) (n : Nat) (m : Memory) : Memory × Option Nat :=
  match ForwardTable.calloc granted n with
  | none => (m, none)
  | some t =>
      ({ m with tables := Function.update m.tables m.next t, next := m.next + 1 },
        some m.next)

def setTable (m : Memory) (t : Nat) (content : Table) : Memory :=
  { m with tables := Function.update m.tables t content }

def setSlot (m : Memory) (t i : Nat) (content : Slot) : Memory :=
  m.setTable t ((m.tables t).setSlot i content)

def storeKey (m : Memory) (t i key : Nat) : Memory :=
  m.setSlot t i { m.slot t i with fromAddr := key }

def storeAddr (m : Memory) (t i addr : Nat) : Memory :=
  m.setSlot t i { m.slot t i with newAddr := addr }

def storeLen (m : Memory) (t i len : Nat) : Memory :=
  m.setSlot t i { m.slot t i with newLen := len }

end Memory

/-- `ft_find` -/
inductive FindPc where
  | loadTable
  | loadCapacity (t : Nat)
  | loadKey (t mask i probe : Nat)
  | loadAddr (t i : Nat)
  | loadLen (t i a : Nat)
  | done (hit : Option (Nat × Nat))
deriving DecidableEq

def findStep (m : Memory) (key : Nat) : FindPc → FindPc
  | .loadTable =>
      match m.gTable with
      | none => .done none
      | some t => .loadCapacity t
  | .loadCapacity t =>
      .loadKey t (m.gCapacity - 1) (mix key &&& (m.gCapacity - 1)) 0
  | .loadKey t mask i probe =>
      if (m.slot t i).fromAddr = 0 then .done none
      else if (m.slot t i).fromAddr = key then .loadAddr t i
      else if probe + 1 ≤ mask then
        .loadKey t mask ((i + 1) &&& mask) (probe + 1)
      else .done none
  | .loadAddr t i =>
      if (m.slot t i).newAddr = 0 then .done none
      else .loadLen t i (m.slot t i).newAddr
  | .loadLen t i a => .done (some (a, (m.slot t i).newLen))
  | .done hit => .done hit

/-- `forward_table_lookup`; a returned pair is what `ft_derive` gets. -/
inductive LookupPc where
  | first (pc : FindPc)
  | chase (depth na nl : Nat) (pc : FindPc)
  | done (final : Option (Nat × Nat))
deriving DecidableEq

def lookupStep (m : Memory) (key : Nat) : LookupPc → LookupPc
  | .first (.done none) => .done none
  | .first (.done (some (na, nl))) => .chase 0 na nl .loadTable
  | .first pc => .first (findStep m key pc)
  | .chase _ na nl (.done none) => .done (some (na, nl))
  | .chase depth na nl (.done (some (nna, nnl))) =>
      if nna = na then .done (some (na, nl))
      else if chaseMax ≤ depth + 1 then .done none
      else .chase (depth + 1) nna nnl .loadTable
  | .chase depth na nl pc => .chase depth na nl (findStep m na pc)
  | .done final => .done final

/-- `forward_table_init` -/
inductive InitPc where
  | check
  | calloc
  | storeCapacity (t : Option Nat)
  | storeTable (t : Option Nat)
  | storeSize
  | done
deriving DecidableEq

def initStep (granted : Bool) (m : Memory) : InitPc → Memory × InitPc
  | .check =>
      match m.gTable with
      | some _ => (m, .done)
      | none => (m, .calloc)
  | .calloc =>
      let (m, t) := m.calloc granted initialCap
      (m, .storeCapacity t)
  | .storeCapacity t => ({ m with gCapacity := initialCap }, .storeTable t)
  | .storeTable t => ({ m with gTable := t }, .storeSize)
  | .storeSize => ({ m with gSize := 0 }, .done)
  | .done => (m, .done)

/-- `forward_table_insert`; `crash` is the access through a null table. -/
inductive InsertPc where
  | loadTable
  | init (pc : InitPc)
  | reload
  | loadCapacity (t : Nat)
  | loadKey (t mask i probe : Nat)
  | storeLen (t i k : Nat)
  | storeAddr (t i k : Nat)
  | storeKey (t i k : Nat)
  | addSize
  | done
  | crash
deriving DecidableEq

def insertStep (granted : Bool) (key : Nat) (newCap : Cap) (m : Memory) :
    InsertPc → Memory × InsertPc
  | .loadTable =>
      match m.gTable with
      | none => (m, .init .check)
      | some t => (m, .loadCapacity t)
  | .init .done => (m, .reload)
  | .init pc =>
      let (m, pc) := initStep granted m pc
      (m, .init pc)
  | .reload =>
      match m.gTable with
      | none => (m, .crash)
      | some t => (m, .loadCapacity t)
  | .loadCapacity t =>
      (m, .loadKey t (m.gCapacity - 1) (mix key &&& (m.gCapacity - 1)) 0)
  | .loadKey t mask i probe =>
      let k := (m.slot t i).fromAddr
      if k = 0 ∨ k = key then (m, .storeLen t i k)
      else if probe + 1 ≤ mask then
        (m, .loadKey t mask ((i + 1) &&& mask) (probe + 1))
      else (m, .done)
  | .storeLen t i k => (m.storeLen t i newCap.length, .storeAddr t i k)
  | .storeAddr t i k => (m.storeAddr t i newCap.address, .storeKey t i k)
  | .storeKey t i k =>
      (m.storeKey t i key, if k = 0 then .addSize else .done)
  | .addSize => ({ m with gSize := m.gSize + 1 }, .done)
  | .done => (m, .done)
  | .crash => (m, .crash)

/-- `forward_table_cas_insert`; `won` returns `ft_derive` of the caller's own
address and length, `got` what the lookup returned, `full` returns `NULL`. -/
inductive CasPc where
  | loadTable
  | init (pc : InitPc)
  | reload
  | loadCapacity (t : Nat)
  | loadKey (t mask i probe : Nat)
  | exchange (t mask i probe : Nat)
  | storeLen (t i : Nat)
  | storeAddr (t i : Nat)
  | addSize (t i : Nat)
  | won (t i : Nat)
  | spin (t i : Nat)
  | lookup (pc : LookupPc)
  | got (final : Option (Nat × Nat))
  | full
  | crash
deriving DecidableEq

/-- The end of a loop body, with `probe <= mask` checked for the next one. -/
def CasPc.advance (t mask i probe : Nat) : CasPc :=
  if probe + 1 ≤ mask then .loadKey t mask ((i + 1) &&& mask) (probe + 1)
  else .full

def casInsertStep (granted : Bool) (key : Nat) (newCap : Cap) (m : Memory) :
    CasPc → Memory × CasPc
  | .loadTable =>
      match m.gTable with
      | none => (m, .init .check)
      | some t => (m, .loadCapacity t)
  | .init .done => (m, .reload)
  | .init pc =>
      let (m, pc) := initStep granted m pc
      (m, .init pc)
  | .reload =>
      match m.gTable with
      | none => (m, .crash)
      | some t => (m, .loadCapacity t)
  | .loadCapacity t =>
      (m, .loadKey t (m.gCapacity - 1) (mix key &&& (m.gCapacity - 1)) 0)
  | .loadKey t mask i probe =>
      let k := (m.slot t i).fromAddr
      if k = key then (m, .spin t i)
      else if k = 0 then (m, .exchange t mask i probe)
      else (m, .advance t mask i probe)
  | .exchange t mask i probe =>
      let expected := (m.slot t i).fromAddr
      if expected = 0 then (m.storeKey t i key, .storeLen t i)
      else if expected = key then (m, .spin t i)
      else (m, .advance t mask i probe)
  | .storeLen t i => (m.storeLen t i newCap.length, .storeAddr t i)
  | .storeAddr t i => (m.storeAddr t i newCap.address, .addSize t i)
  | .addSize t i => ({ m with gSize := m.gSize + 1 }, .won t i)
  | .spin t i =>
      if (m.slot t i).newAddr = 0 then (m, .spin t i)
      else (m, .lookup (.first .loadTable))
  | .lookup (.done final) => (m, .got final)
  | .lookup pc => (m, .lookup (lookupStep m key pc))
  | .won t i => (m, .won t i)
  | .got final => (m, .got final)
  | .full => (m, .full)
  | .crash => (m, .crash)

/-- `forward_table_maybe_grow` -/
inductive GrowPc where
  | loadTable
  | init (pc : InitPc)
  | loadCapacity (old : Nat)
  | loadSize (old cap : Nat)
  | calloc (old cap : Nat)
  | copyKey (old cap nt j : Nat)
  | copyAddr (old cap nt j k : Nat)
  | copyLen (old cap nt j k v : Nat)
  | copyProbe (old cap nt j k v l i : Nat)
  | copyStoreLen (old cap nt j k v l i : Nat)
  | copyStoreAddr (old cap nt j k v i : Nat)
  | copyStoreKey (old cap nt j k i : Nat)
  | storeCapacity (newcap nt : Nat)
  | storeTable (nt : Nat)
  | done
deriving DecidableEq

/-- The head of the copy loop. -/
def GrowPc.loop (old cap nt j : Nat) : GrowPc :=
  if j < cap then .copyKey old cap nt j else .storeCapacity (cap * 2) nt

def growStep (granted : Bool) (m : Memory) : GrowPc → Memory × GrowPc
  | .loadTable =>
      match m.gTable with
      | none => (m, .init .check)
      | some old => (m, .loadCapacity old)
  | .init .done => (m, .done)
  | .init pc =>
      let (m, pc) := initStep granted m pc
      (m, .init pc)
  | .loadCapacity old => (m, .loadSize old m.gCapacity)
  | .loadSize old cap =>
      if m.gSize * 10 < cap * 7 then (m, .done) else (m, .calloc old cap)
  | .calloc old cap =>
      match m.calloc granted (cap * 2) with
      | (m, none) => (m, .done)
      | (m, some nt) => (m, .loop old cap nt 0)
  | .copyKey old cap nt j =>
      let k := (m.slot old j).fromAddr
      if k = 0 then (m, .loop old cap nt (j + 1))
      else (m, .copyAddr old cap nt j k)
  | .copyAddr old cap nt j k =>
      (m, .copyLen old cap nt j k (m.slot old j).newAddr)
  | .copyLen old cap nt j k v =>
      (m, .copyProbe old cap nt j k v (m.slot old j).newLen
        (mix k &&& (cap * 2 - 1)))
  | .copyProbe old cap nt j k v l i =>
      if (m.slot nt i).fromAddr ≠ 0 then
        (m, .copyProbe old cap nt j k v l ((i + 1) &&& (cap * 2 - 1)))
      else (m, .copyStoreLen old cap nt j k v l i)
  | .copyStoreLen old cap nt j k v l i =>
      (m.storeLen nt i l, .copyStoreAddr old cap nt j k v i)
  | .copyStoreAddr old cap nt j k v i =>
      (m.storeAddr nt i v, .copyStoreKey old cap nt j k i)
  | .copyStoreKey old cap nt j k i =>
      (m.storeKey nt i k, .loop old cap nt (j + 1))
  | .storeCapacity newcap nt => ({ m with gCapacity := newcap }, .storeTable nt)
  | .storeTable nt => ({ m with gTable := some nt }, .done)
  | .done => (m, .done)

/-- A call in progress, with its arguments.  `inserts` is the single writer:
its current call, the calls behind it and the calls ahead of it. -/
inductive Thread where
  | lookup (key : Nat) (pc : LookupPc)
  | casInsert (key : Nat) (newCap : Cap) (pc : CasPc)
  | inserts (before : List (Nat × Cap)) (key : Nat) (newCap : Cap)
      (pc : InsertPc) (after : List (Nat × Cap))
  | grow (pc : GrowPc)

/-- One atomic access of a thread. -/
inductive ThreadStep : Memory → Thread → Memory → Thread → Prop where
  | lookup {m : Memory} {key : Nat} {pc : LookupPc} :
      ThreadStep m (.lookup key pc) m (.lookup key (lookupStep m key pc))
  | casInsert {m : Memory} {key : Nat} {newCap : Cap} {pc : CasPc}
      (granted : Bool) :
      ThreadStep m (.casInsert key newCap pc)
        (casInsertStep granted key newCap m pc).1
        (.casInsert key newCap (casInsertStep granted key newCap m pc).2)
  | insert {m : Memory} {before after : List (Nat × Cap)} {key : Nat}
      {newCap : Cap} {pc : InsertPc} (granted : Bool) :
      ThreadStep m (.inserts before key newCap pc after)
        (insertStep granted key newCap m pc).1
        (.inserts before key newCap (insertStep granted key newCap m pc).2 after)
  | nextInsert {m : Memory} {before after : List (Nat × Cap)}
      {key nextKey : Nat} {newCap nextCap : Cap} :
      ThreadStep m
        (.inserts before key newCap .done ((nextKey, nextCap) :: after)) m
        (.inserts (before ++ [(key, newCap)]) nextKey nextCap .loadTable after)
  | grow {m : Memory} {pc : GrowPc} (granted : Bool) :
      ThreadStep m (.grow pc) (growStep granted m pc).1
        (.grow (growStep granted m pc).2)

/-- The next access of a thread whose allocations are granted. -/
def Thread.next : Memory × Thread → Memory × Thread
  | (m, .lookup key pc) => (m, .lookup key (lookupStep m key pc))
  | (m, .casInsert key newCap pc) =>
      ((casInsertStep true key newCap m pc).1,
        .casInsert key newCap (casInsertStep true key newCap m pc).2)
  | (m, .inserts before key newCap .done ((nextKey, nextCap) :: after)) =>
      (m, .inserts (before ++ [(key, newCap)]) nextKey nextCap .loadTable after)
  | (m, .inserts before key newCap pc after) =>
      ((insertStep true key newCap m pc).1,
        .inserts before key newCap (insertStep true key newCap m pc).2 after)
  | (m, .grow pc) => ((growStep true m pc).1, .grow (growStep true m pc).2)

theorem Thread.next_step (m : Memory) (l : Thread) :
    ThreadStep m l (Thread.next (m, l)).1 (Thread.next (m, l)).2 := by
  unfold Thread.next
  split <;> rename_i equality <;> cases equality
  · exact .lookup
  · exact .casInsert true
  · exact .nextInsert
  · exact .insert true
  · exact .grow true

/-- Any number of threads over one memory. -/
abbrev System (ι : Type*) := Interleaving.Config ι Memory Thread

abbrev SystemReachable {ι : Type*} [DecidableEq ι] :
    System ι → System ι → Prop :=
  Interleaving.Reachable fun _ => ThreadStep

namespace Memory

variable (m : Memory) (t i : Nat)

@[simp] theorem setSlot_gCapacity (content : Slot) :
    (m.setSlot t i content).gCapacity = m.gCapacity := rfl

@[simp] theorem setSlot_tables_self (content : Slot) :
    (m.setSlot t i content).tables t = (m.tables t).setSlot i content := by
  simp [setSlot, setTable]

theorem setSlot_tables_of_ne {t u : Nat} (content : Slot) (other : u ≠ t) :
    (m.setSlot t i content).tables u = m.tables u := by
  simp [setSlot, setTable, Function.update_of_ne other]

@[simp] theorem setSlot_size (u : Nat) (content : Slot) :
    ((m.setSlot t i content).tables u).size = (m.tables u).size := by
  by_cases here : u = t
  · subst here
    simp
  · rw [setSlot_tables_of_ne _ _ _ here]

@[simp] theorem setSlot_slot_self (content : Slot) :
    (m.setSlot t i content).slot t i = content := by
  simp [slot]

theorem setSlot_slot_of_ne {u j : Nat} (content : Slot)
    (other : u ≠ t ∨ j ≠ i) :
    (m.setSlot t i content).slot u j = m.slot u j := by
  by_cases here : u = t
  · subst here
    have elsewhere : j ≠ i := other.resolve_left (fun differs => differs rfl)
    simp [slot, Function.update_of_ne elsewhere]
  · rw [slot, setSlot_tables_of_ne _ _ _ here, slot]

end Memory

/-- Allocated tables keep their size and never lose or change a key. -/
structure KeysKept (m m' : Memory) : Prop where
  next_le : m.next ≤ m'.next
  size_eq : ∀ {t}, t < m.next → (m'.tables t).size = (m.tables t).size
  key_kept : ∀ {t i k}, t < m.next → (m.tables t).key i = some k →
    (m'.tables t).key i = some k

namespace KeysKept

theorem of_tables {m m' : Memory} (next : m.next ≤ m'.next)
    (same : ∀ t, t < m.next → m'.tables t = m.tables t) : KeysKept m m' where
  next_le := next
  size_eq := fun allocated => by rw [same _ allocated]
  key_kept := fun allocated stored => by rw [same _ allocated, stored]

theorem refl (m : Memory) : KeysKept m m :=
  of_tables (Nat.le_refl _) (fun _ _ => rfl)

theorem setSlot {m : Memory} {t i : Nat} {content : Slot}
    (kept : (m.slot t i).fromAddr = 0 ∨
      content.fromAddr = (m.slot t i).fromAddr) :
    KeysKept m (m.setSlot t i content) where
  next_le := Nat.le_refl _
  size_eq := fun _ => by simp
  key_kept := by
    intro u j k _ stored
    rw [Table.key_eq_some] at stored ⊢
    by_cases here : u = t ∧ j = i
    · obtain ⟨rfl, rfl⟩ := here
      obtain ⟨held, nonzero⟩ := stored
      have unchanged : content.fromAddr = k := by
        rcases kept with free | same
        · exact absurd (held.symm.trans free) nonzero
        · exact same.trans held
      refine ⟨?_, nonzero⟩
      change ((m.setSlot u j content).slot u j).fromAddr = k
      rw [Memory.setSlot_slot_self, unchanged]
    · refine ⟨?_, stored.2⟩
      change ((m.setSlot t i content).slot u j).fromAddr = k
      rw [Memory.setSlot_slot_of_ne _ _ _ _ (by tauto)]
      exact stored.1

end KeysKept

/-- What a probing reader knows about the table it loaded. -/
def FindPc.Probing (m : Memory) (key : Nat) : FindPc → Prop
  | .loadTable => True
  | .loadCapacity t => t < m.next
  | .loadKey t mask i probes =>
      t < m.next ∧ (∃ e, (m.tables t).size = 2 ^ e) ∧
        mask = (m.tables t).size - 1 ∧ probes < (m.tables t).size ∧
        i = probe (m.tables t).size (mix key) probes ∧
        Passed (m.tables t).size mix (m.tables t).key key probes
  | .loadAddr t i =>
      t < m.next ∧ i < (m.tables t).size ∧ (m.tables t).key i = some key
  | .loadLen t i a =>
      t < m.next ∧ i < (m.tables t).size ∧ (m.tables t).key i = some key ∧
        a ≠ 0
  | .done _ => True

/-- The ways `ft_find` can end. -/
inductive FindOutcome (m : Memory) (key : Nat) : FindPc → Option (Nat × Nat) →
    Prop where
  | noTable : m.gTable = none → FindOutcome m key .loadTable none
  | free {t mask i probes : Nat} :
      (m.tables t).key (probe (m.tables t).size (mix key) probes) = none →
      FindOutcome m key (.loadKey t mask i probes) none
  | exhausted {t mask i probes : Nat} :
      Passed (m.tables t).size mix (m.tables t).key key (m.tables t).size →
      FindOutcome m key (.loadKey t mask i probes) none
  | unpublished {t i : Nat} : (m.slot t i).newAddr = 0 →
      FindOutcome m key (.loadAddr t i) none
  | hit {t i a : Nat} :
      FindOutcome m key (.loadLen t i a) (some (a, (m.slot t i).newLen))
  | already {hit : Option (Nat × Nat)} : FindOutcome m key (.done hit) hit

namespace FindPc.Probing

variable {m m' : Memory} {key : Nat} {pc : FindPc}

theorem mono (kept : KeysKept m m') (probing : pc.Probing m key) :
    pc.Probing m' key := by
  cases pc with
  | loadTable => trivial
  | loadCapacity t => exact Nat.lt_of_lt_of_le probing kept.next_le
  | loadKey t mask i probes =>
      obtain ⟨allocated, power, isMask, below, here, passed⟩ := probing
      simp only [FindPc.Probing, kept.size_eq allocated]
      refine ⟨Nat.lt_of_lt_of_le allocated kept.next_le, power, isMask, below,
        here, passed.mono ?_⟩
      exact fun _ _ stored => kept.key_kept allocated stored
  | loadAddr t i =>
      obtain ⟨allocated, below, stored⟩ := probing
      exact ⟨Nat.lt_of_lt_of_le allocated kept.next_le,
        by rwa [kept.size_eq allocated], kept.key_kept allocated stored⟩
  | loadLen t i a =>
      obtain ⟨allocated, below, stored, nonzero⟩ := probing
      exact ⟨Nat.lt_of_lt_of_le allocated kept.next_le,
        by rwa [kept.size_eq allocated], kept.key_kept allocated stored,
        nonzero⟩
  | done hit => trivial

/-- The key load of one probe: it stops at a free slot or at its own key, and
otherwise has passed one more slot. -/
theorem loadKey_cases {t mask i probes : Nat}
    (probing : (FindPc.loadKey t mask i probes).Probing m key) :
    ((m.slot t i).fromAddr = 0 ∧ (m.tables t).key i = none) ∨
    ((m.slot t i).fromAddr ≠ 0 ∧ (m.slot t i).fromAddr = key ∧
      i < (m.tables t).size ∧ (m.tables t).key i = some key) ∨
    ((m.slot t i).fromAddr ≠ 0 ∧ (m.slot t i).fromAddr ≠ key ∧
      Passed (m.tables t).size mix (m.tables t).key key (probes + 1) ∧
      (probes + 1 ≤ mask ∧
        (FindPc.loadKey t mask ((i + 1) &&& mask) (probes + 1)).Probing m key ∨
        ¬ probes + 1 ≤ mask ∧ probes + 1 = (m.tables t).size)) := by
  obtain ⟨allocated, ⟨e, power⟩, isMask, below, here, passed⟩ := probing
  have positive : 0 < (m.tables t).size := by omega
  by_cases free : (m.slot t i).fromAddr = 0
  · exact .inl ⟨free, Table.key_eq_none.mpr free⟩
  by_cases mine : (m.slot t i).fromAddr = key
  · refine .inr (.inl ⟨free, mine, ?_, Table.key_eq_some.mpr ⟨mine, ?_⟩⟩)
    · rw [here]
      exact probe_lt _ _ positive
    · exact mine ▸ free
  have further : Passed (m.tables t).size mix (m.tables t).key key
      (probes + 1) := by
    have held : (m.tables t).key (probe (m.tables t).size (mix key) probes) =
        some (m.slot t i).fromAddr := by
      rw [← here]
      exact Table.key_eq_some.mpr ⟨rfl, free⟩
    exact passed.succ held mine
  refine .inr (.inr ⟨free, mine, further, ?_⟩)
  by_cases more : probes + 1 ≤ mask
  · refine .inl ⟨more, allocated, ⟨e, power⟩, isMask, by omega, ?_, further⟩
    rw [isMask, power, Nat.and_two_pow_sub_one_eq_mod, here, power, probe_succ]
  · exact .inr ⟨more, by omega⟩

/-- One access of `ft_find`, provided the capacity it loads is the size of the
table it loaded. -/
theorem step (allocated : ∀ t, m.gTable = some t → t < m.next)
    (probing : pc.Probing m key)
    (matching : ∀ t, pc = .loadCapacity t → m.gCapacity = (m.tables t).size ∧
      ∃ e, m.gCapacity = 2 ^ e) :
    (findStep m key pc).Probing m key ∧
      ∀ hit, findStep m key pc = .done hit → FindOutcome m key pc hit := by
  cases pc with
  | loadTable =>
      cases current : m.gTable with
      | none =>
          simp only [findStep, current]
          refine ⟨trivial, ?_⟩
          rintro _ ⟨⟩
          exact .noTable current
      | some t =>
          simp only [findStep, current]
          refine ⟨allocated t current, ?_⟩
          rintro _ ⟨⟩
  | loadCapacity t =>
      obtain ⟨size, e, power⟩ := matching t rfl
      refine ⟨⟨probing, ⟨e, size ▸ power⟩, by rw [size], ?_, ?_,
        Passed.zero key⟩, ?_⟩
      · rw [← size, power]
        exact Nat.two_pow_pos e
      · rw [← size, power, Nat.and_two_pow_sub_one_eq_mod, probe, Nat.add_zero]
      · rintro _ ⟨⟩
  | loadKey t mask i probes =>
      have here := probing.2.2.2.2.1
      rcases probing.loadKey_cases with ⟨free, empty⟩ |
        ⟨nonzero, mine, below, stored⟩ | ⟨nonzero, other, passed, more⟩
      · simp only [findStep, if_pos free]
        refine ⟨trivial, ?_⟩
        rintro _ ⟨⟩
        exact .free (here ▸ empty)
      · simp only [findStep, if_neg nonzero, if_pos mine]
        refine ⟨⟨probing.1, below, stored⟩, ?_⟩
        rintro _ ⟨⟩
      · simp only [findStep, if_neg nonzero, if_neg other]
        rcases more with ⟨next, further⟩ | ⟨last, whole⟩
        · rw [if_pos next]
          refine ⟨further, ?_⟩
          rintro _ ⟨⟩
        · rw [if_neg last]
          refine ⟨trivial, ?_⟩
          rintro _ ⟨⟩
          exact .exhausted (whole ▸ passed)
  | loadAddr t i =>
      by_cases published : (m.slot t i).newAddr = 0
      · simp only [findStep, if_pos published]
        refine ⟨trivial, ?_⟩
        rintro _ ⟨⟩
        exact .unpublished published
      · simp only [findStep, if_neg published]
        refine ⟨⟨probing.1, probing.2.1, probing.2.2, published⟩, ?_⟩
        rintro _ ⟨⟩
  | loadLen t i a =>
      refine ⟨trivial, ?_⟩
      rintro _ ⟨⟩
      exact .hit
  | done hit =>
      refine ⟨trivial, ?_⟩
      rintro _ ⟨⟩
      exact .already

end FindPc.Probing

/-- The `ft_find` a lookup is in, with the key it searches for. -/
def LookupPc.current (key : Nat) : LookupPc → Option (Nat × FindPc)
  | .first pc => some (key, pc)
  | .chase _ na _ pc => some (na, pc)
  | .done _ => none

/-- The result of an `ft_find` that has just returned, with its key. -/
def Thread.found : Thread → Option (Nat × Option (Nat × Nat))
  | .lookup key pc | .casInsert key _ (.lookup pc) =>
      match pc.current key with
      | some (k, .done hit) => some (k, hit)
      | _ => none
  | _ => none

theorem Thread.current_of_found {l : Thread} {key : Nat}
    {hit : Option (Nat × Nat)} (found : l.found = some (key, hit)) :
    ∃ k pc, pc.current k = some (key, .done hit) ∧
      (l = .lookup k pc ∨ ∃ newCap, l = .casInsert k newCap (.lookup pc)) := by
  unfold Thread.found at found
  split at found
  · rename_i k pc
    split at found
    · rename_i current
      cases found
      exact ⟨k, pc, current, .inl rfl⟩
    · cases found
  · rename_i k newCap pc
    split at found
    · rename_i current
      cases found
      exact ⟨k, pc, current, .inr ⟨newCap, rfl⟩⟩
    · cases found
  · cases found

theorem FindPc.done_or_running (pc : FindPc) :
    (∃ hit, pc = .done hit) ∨ ∀ hit, pc ≠ .done hit := by
  cases pc with
  | done hit => exact .inl ⟨hit, rfl⟩
  | _ =>
      right
      rintro _ ⟨⟩

theorem lookupStep_first (m : Memory) (key : Nat) {pc : FindPc}
    (running : ∀ hit, pc ≠ .done hit) :
    lookupStep m key (.first pc) = .first (findStep m key pc) := by
  cases pc with
  | done hit => exact absurd rfl (running hit)
  | _ => rfl

theorem lookupStep_chase (m : Memory) (key depth na nl : Nat) {pc : FindPc}
    (running : ∀ hit, pc ≠ .done hit) :
    lookupStep m key (.chase depth na nl pc) =
      .chase depth na nl (findStep m na pc) := by
  cases pc with
  | done hit => exact absurd rfl (running hit)
  | _ => rfl

/-- A step of a lookup is a step of the `ft_find` it is in, or it starts the
next `ft_find`, or it returns. -/
theorem lookupStep_current (m : Memory) (key : Nat) (pc : LookupPc)
    {k : Nat} {next : FindPc}
    (running : (lookupStep m key pc).current key = some (k, next)) :
    next = .loadTable ∨
      ∃ before, pc.current key = some (k, before) ∧ next = findStep m k before := by
  cases pc with
  | first pc =>
      rcases pc.done_or_running with ⟨hit, rfl⟩ | searching
      · rcases hit with _ | ⟨na, nl⟩
        · cases running
        · cases running
          exact .inl rfl
      · rw [lookupStep_first m key searching] at running
        cases running
        exact .inr ⟨pc, rfl, rfl⟩
  | chase depth na nl pc =>
      rcases pc.done_or_running with ⟨hit, rfl⟩ | searching
      · rcases hit with _ | ⟨nna, nnl⟩
        · cases running
        · simp only [lookupStep] at running
          split at running
          · cases running
          · split at running
            · cases running
            · cases running
              exact .inl rfl
      · rw [lookupStep_chase m key depth na nl searching] at running
        cases running
        exact .inr ⟨pc, rfl, rfl⟩
  | done final => cases running

theorem lookupStep_loadCapacity {m : Memory} {key k t : Nat} {pc : LookupPc}
    (loads : (lookupStep m key pc).current key = some (k, .loadCapacity t)) :
    m.gTable = some t := by
  rcases lookupStep_current m key pc loads with fresh | ⟨before, _, stepped⟩
  · cases fresh
  · cases before with
    | loadTable =>
        cases table : m.gTable with
        | none =>
            simp only [findStep, table] at stepped
            cases stepped
        | some current =>
            simp only [findStep, table] at stepped
            cases stepped
            rfl
    | loadCapacity t => cases stepped
    | loadKey t mask i probes =>
        simp only [findStep] at stepped
        split at stepped
        · cases stepped
        split at stepped
        · cases stepped
        split at stepped <;> cases stepped
    | loadAddr t i =>
        simp only [findStep] at stepped
        split at stepped <;> cases stepped
    | loadLen t i a => cases stepped
    | done hit => cases stepped

/-- The accesses that are left to an `ft_find`. -/
def FindPc.rank (capacity : Nat) : FindPc → Nat
  | .loadTable => capacity + 4
  | .loadCapacity _ => capacity + 3
  | .loadKey _ mask _ probe => mask - probe + 3
  | .loadAddr _ _ => 2
  | .loadLen _ _ _ => 1
  | .done _ => 0

def LookupPc.rank (capacity : Nat) : LookupPc → Nat
  | .first pc => chaseMax * (capacity + 5) + pc.rank capacity + 1
  | .chase depth _ _ pc =>
      (chaseMax - 1 - depth) * (capacity + 5) + pc.rank capacity + 1
  | .done _ => 0

/-- The chase has hops left. -/
def LookupPc.Bounded : LookupPc → Prop
  | .chase depth _ _ _ => depth < chaseMax
  | _ => True

theorem LookupPc.Bounded.step {pc : LookupPc} (bounded : pc.Bounded)
    (m : Memory) (key : Nat) : (lookupStep m key pc).Bounded := by
  cases pc with
  | first find =>
      rcases find.done_or_running with ⟨hit, rfl⟩ | searching
      · rcases hit with _ | ⟨na, nl⟩
        · trivial
        · have hop : 0 < chaseMax := by decide
          exact hop
      · rw [lookupStep_first m key searching]
        trivial
  | chase depth na nl find =>
      rcases find.done_or_running with ⟨hit, rfl⟩ | searching
      · rcases hit with _ | ⟨nna, nnl⟩
        · trivial
        · simp only [lookupStep]
          split
          · trivial
          · split
            · trivial
            · exact Nat.lt_of_not_le (by assumption)
      · rw [lookupStep_chase m key depth na nl searching]
        exact bounded
  | done final => trivial

theorem findStep_rank {m : Memory} (key : Nat) {capacity : Nat} (positive : 0 < capacity)
    (small : m.gCapacity = capacity) {find : FindPc}
    (running : ∀ hit, find ≠ .done hit) :
    (findStep m key find).rank capacity + 1 ≤ find.rank capacity := by
  cases find with
  | loadTable =>
      simp only [findStep]
      split <;> simp only [FindPc.rank] <;> omega
  | loadCapacity t =>
      simp only [findStep, FindPc.rank]
      omega
  | loadKey t mask i probe =>
      simp only [findStep]
      split
      · simp only [FindPc.rank]
        omega
      split
      · simp only [FindPc.rank]
        omega
      split <;> simp only [FindPc.rank] <;> omega
  | loadAddr t i =>
      simp only [findStep]
      split <;> simp only [FindPc.rank] <;> omega
  | loadLen t i a => exact Nat.le_refl _
  | done hit => exact absurd rfl (running hit)

theorem lookupStep_rank {m : Memory} (key : Nat) {capacity : Nat}
    (positive : 0 < capacity) (small : m.gCapacity = capacity) {pc : LookupPc}
    (bounded : pc.Bounded) (running : ∀ final, pc ≠ .done final) :
    (lookupStep m key pc).rank capacity + 1 ≤ pc.rank capacity := by
  have first : FindPc.rank capacity .loadTable = capacity + 4 := rfl
  cases pc with
  | first find =>
      by_cases returned : ∃ hit, find = .done hit
      · obtain ⟨hit, rfl⟩ := returned
        cases hit with
        | none =>
            simp only [lookupStep, LookupPc.rank]
            omega
        | some pair =>
            simp only [lookupStep, LookupPc.rank, first, Nat.sub_zero]
            have hops : chaseMax * (capacity + 5) =
                (chaseMax - 1) * (capacity + 5) + (capacity + 5) :=
              Nat.succ_mul (chaseMax - 1) (capacity + 5)
            omega
      · have own : ∀ hit, find ≠ .done hit := fun hit done =>
          returned ⟨hit, done⟩
        have fewer := findStep_rank key positive small own
        rw [lookupStep_first m key own]
        simp only [LookupPc.rank]
        omega
  | chase depth na nl find =>
      have budget : depth < chaseMax := bounded
      by_cases returned : ∃ hit, find = .done hit
      · obtain ⟨hit, rfl⟩ := returned
        cases hit with
        | none =>
            simp only [lookupStep, LookupPc.rank]
            omega
        | some pair =>
            simp only [lookupStep]
            split
            · simp only [LookupPc.rank]
              omega
            split
            · simp only [LookupPc.rank]
              omega
            · simp only [LookupPc.rank, first]
              have next : chaseMax - 1 - depth =
                  chaseMax - 1 - (depth + 1) + 1 := by omega
              rw [next, Nat.add_mul, Nat.one_mul]
              omega
      · have own : ∀ hit, find ≠ .done hit := fun hit done =>
          returned ⟨hit, done⟩
        have fewer := findStep_rank na positive small own
        rw [lookupStep_chase m key depth na nl own]
        simp only [LookupPc.rank]
        omega
  | done final => exact absurd rfl (running final)

/-- Without interference every lookup returns. -/
theorem lookup_ends (m : Memory) (key : Nat) (positive : 0 < m.gCapacity)
    {pc : LookupPc} (bounded : pc.Bounded) :
    ∃ n final, (lookupStep m key)^[n] pc = .done final := by
  induction left : pc.rank m.gCapacity using Nat.strong_induction_on
    generalizing pc with
  | _ left ih =>
      by_cases returned : ∃ final, pc = .done final
      · obtain ⟨final, rfl⟩ := returned
        exact ⟨0, final, rfl⟩
      · have fewer := lookupStep_rank key positive rfl bounded
          (fun final done => returned ⟨final, done⟩)
        obtain ⟨n, final, ended⟩ := ih _ (by omega) (bounded.step m key) rfl
        exact ⟨n + 1, final, ended⟩

end ForwardTable

end StoplessGC
