import StoplessGC.ForwardTableCas
import StoplessGC.ForwardTableResize
import StoplessGC.ForwardTableLookup
import StoplessGC.Foundation.AtomicObject

/-!
# The forwarding table as an atomic map

`forward_table_lookup` and `forward_table_cas_insert` may be called any number
of times by any number of threads, and destinations may be forwarded again.
To every program the table looks like a map whose calls happen at one instant:
a lookup follows the chain that the map holds at that instant, and an insertion
adds its link if the key has none.  A lookup takes effect at the last access of
its last `ft_find`, a winning insertion where it publishes the address, and a
losing one with its lookup.
-/

namespace StoplessGC

namespace ForwardTable

open OpenAddressing Forwarding AtomicObject

/-- The links that readers can see. -/
def Memory.view (m : Memory) : Nat → Option (Nat × Nat) := ftFind m.state

inductive Request where
  | lookup (key : Nat)
  | casInsert (key : Nat) (newCap : Cap)

namespace Request

def enter : Request → Thread
  | .lookup key => .lookup key (.first .loadTable)
  | .casInsert key newCap => .casInsert key newCap .loadTable

/-- Insertions of one of the keys, which lead somewhere. -/
def Proper (keys : Finset Nat) : Request → Prop
  | .lookup _ => True
  | .casInsert key newCap => key ∈ keys ∧ key ≠ 0 ∧ newCap.address ≠ 0

end Request

section Results

variable (cheri : Intrinsics) (arenaBase : Option Cap)

/-- `ft_derive` of the pair that was found, and `NULL` otherwise. -/
def derived : Option (Nat × Nat) → Option Cap
  | none => none
  | some (addr, len) => ftDerive cheri arenaBase addr len

def Thread.returned : Thread → Option (Option Cap)
  | .lookup _ (.done final) => some (derived cheri arenaBase final)
  | l => l.casResult cheri arenaBase

/-- The two functions, one atomic access at a time. -/
def table : Implementation Memory Request Thread (Option Cap) :=
  { enter := Request.enter
    step := fun _ => ThreadStep
    result := fun _ => Thread.returned cheri arenaBase }

/-- The two functions on a map, at one instant. -/
inductive AtMap : Request → (Nat → Option (Nat × Nat)) →
    (Nat → Option (Nat × Nat)) → Option Cap → Prop where
  | lookup (map : Nat → Option (Nat × Nat)) (key : Nat) :
      AtMap (.lookup key) map map (derived cheri arenaBase (resolve map key))
  | inserted {map : Nat → Option (Nat × Nat)} {key : Nat} (newCap : Cap) :
      map key = none →
      AtMap (.casInsert key newCap) map
        (Function.update map key (some (newCap.address, newCap.length)))
        (ftDerive cheri arenaBase newCap.address newCap.length)
  | present {map : Nat → Option (Nat × Nat)} {key : Nat} (newCap : Cap) :
      map key ≠ none →
      AtMap (.casInsert key newCap) map map
        (derived cheri arenaBase (resolve map key))

end Results

/-- The pair a lookup is going to return, once nothing can change it. -/
def LookupPc.taken : LookupPc → Option (Option (Nat × Nat))
  | .first (.done none) => some none
  | .chase _ na nl (.done none) => some (some (na, nl))
  | .chase depth na nl (.done (some (nna, _))) =>
      if nna = na then some (some (na, nl))
      else if chaseMax ≤ depth + 1 then some none
      else none
  | .done final => some final
  | _ => none

def CasPc.taken (newCap : Cap) : CasPc → Option (Option (Nat × Nat))
  | .addSize _ _ => some (some (newCap.address, newCap.length))
  | .won _ _ => some (some (newCap.address, newCap.length))
  | .lookup pc => pc.taken
  | .got final => some final
  | _ => none

def Thread.taken : Thread → Option (Option (Nat × Nat))
  | .lookup _ pc => pc.taken
  | .casInsert _ newCap pc => pc.taken newCap
  | _ => none

/-- The slot whose pair the call has yet to complete. -/
def CasPc.writing : CasPc → Option Nat
  | .storeLen _ i => some i
  | .storeAddr _ i => some i
  | _ => none

def Thread.writing : Thread → Option Nat
  | .casInsert _ _ pc => pc.writing
  | _ => none

section Invariant

variable (t₀ : Nat) (keys : Finset Nat)

/-- The table that all calls use. -/
structure Serving (m : Memory) : Prop where
  current : m.gTable = some t₀
  allocated : t₀ < m.next
  laid : Laid m.state (m.tables t₀)
  room : keys.card ≤ (m.tables t₀).size
  stored : ∀ i k, i < (m.tables t₀).size → (m.tables t₀).key i = some k →
    k ∈ keys
  blank : ∀ i, i < (m.tables t₀).size → (m.tables t₀).key i = none →
    m.slot t₀ i = ⟨0, 0, 0⟩

/-- Where a chase stands: any map with all present links resolves the key as
the rest of the chase does. -/
def Chasing (map : Nat → Option (Nat × Nat)) (key depth na nl : Nat) : Prop :=
  depth < chaseMax ∧ ∀ later, Extends map later →
    resolve later key = chase later (chaseMax - depth) na nl

/-- What a lookup relies on. -/
def LookupPc.Relies (m : Memory) (key : Nat) : LookupPc → Prop
  | .first find => find.Probing m key ∧ find.Reads t₀ m key
  | .chase depth na nl find =>
      Chasing m.view key depth na nl ∧
        find.Probing m na ∧ find.Reads t₀ m na
  | .done _ => True

/-- What a `forward_table_cas_insert` call relies on. -/
def CasPc.Relies (m : Memory) (key : Nat) (newCap : Cap) : CasPc → Prop
  | .loadTable => True
  | .loadCapacity t => t = t₀
  | .loadKey t mask i probes =>
      t = t₀ ∧ (FindPc.loadKey t mask i probes).Probing m key
  | .exchange t mask i probes =>
      t = t₀ ∧ (FindPc.loadKey t mask i probes).Probing m key
  | .storeLen t i => t = t₀ ∧ i < (m.tables t₀).size ∧
      m.slot t₀ i = ⟨key, 0, 0⟩
  | .storeAddr t i => t = t₀ ∧ i < (m.tables t₀).size ∧
      m.slot t₀ i = ⟨key, 0, newCap.length⟩
  | .addSize _ _ => True
  | .won _ _ => True
  | .spin t i => t = t₀ ∧ i < (m.tables t₀).size ∧
      (m.slot t₀ i).fromAddr = key
  | .lookup pc => m.view key ≠ none ∧ pc.Relies t₀ m key
  | .got _ => True
  | _ => False

/-- The thread runs this call and relies on what holds. -/
def Thread.Relies (m : Memory) : Request → Thread → Prop
  | .lookup key, .lookup key' pc => key' = key ∧ pc.Relies t₀ m key
  | .casInsert key newCap, .casInsert key' newCap' pc =>
      key' = key ∧ newCap' = newCap ∧
        (key ∈ keys ∧ key ≠ 0 ∧ newCap.address ≠ 0) ∧
        pc.Relies t₀ m key newCap
  | _, _ => False

/-- The invariant: no two calls complete the same slot. -/
structure Served {ι : Type*} (m : Memory)
    (calls : ι → Option (Request × Thread)) : Prop where
  memory : Serving t₀ keys m
  relies : ∀ j request l, calls j = some (request, l) →
    l.Relies t₀ keys m request
  single : ∀ i j j' call call', calls j = some call → calls j' = some call' →
    call.2.writing = some i → call'.2.writing = some i → j = j'

variable {t₀ keys} {m m' : Memory}

theorem Serving.table_eq (memory : Serving t₀ keys m) :
    m.state.gTable = some (m.tables t₀) := by
  rw [Memory.state, memory.current]
  rfl

theorem Serving.view_eq_some (memory : Serving t₀ keys m) {key : Nat}
    {pair : Nat × Nat} :
    m.view key = some pair ↔ ∃ i, Published t₀ m key i pair := by
  constructor
  · intro linked
    by_cases held : ∃ i, i < (m.tables t₀).size ∧
        (m.tables t₀).key i = some key
    · obtain ⟨i, below, stored⟩ := held
      rw [Memory.view, memory.laid.ftFind_stored memory.table_eq below stored]
        at linked
      obtain ⟨mine, nonzero⟩ := Table.key_eq_some.mp stored
      unfold Slot.entry at linked
      split at linked
      · cases linked
      · rename_i shown
        cases linked
        refine ⟨i, below, ?_, nonzero, shown⟩
        rw [← mine]
        rfl
    · rw [Memory.view, memory.laid.ftFind_absent memory.table_eq] at linked
      · cases linked
      · intro i below stored
        exact held ⟨i, below, stored⟩
  · rintro ⟨i, published⟩
    have stored : (m.tables t₀).key i = some key :=
      Table.key_eq_some.mpr ⟨congrArg Slot.fromAddr published.slot,
        published.key_ne⟩
    rw [Memory.view,
      memory.laid.ftFind_stored memory.table_eq published.below stored]
    change (m.slot t₀ i).entry = some pair
    rw [published.slot]
    exact if_neg published.addr_ne

theorem Serving.view_eq_none (memory : Serving t₀ keys m) {key : Nat}
    (hidden : ∀ i, i < (m.tables t₀).size → (m.tables t₀).key i = some key →
      (m.slot t₀ i).newAddr = 0) : m.view key = none := by
  cases linked : m.view key with
  | none => rfl
  | some pair =>
      obtain ⟨i, published⟩ := memory.view_eq_some.mp linked
      have zero := hidden i published.below (Table.key_eq_some.mpr
        ⟨congrArg Slot.fromAddr published.slot, published.key_ne⟩)
      rw [published.slot] at zero
      exact absurd zero published.addr_ne

/-- An `ft_find` returns what the map holds at its last access. -/
theorem Serving.find_done (memory : Serving t₀ keys m) {key : Nat}
    {find : FindPc} (probing : find.Probing m key) (reads : find.Reads t₀ m key)
    (running : ∀ hit, find ≠ .done hit) {hit : Option (Nat × Nat)}
    (outcome : FindOutcome m key find hit) : hit = m.view key := by
  symm
  cases outcome with
  | noTable missing =>
      rw [memory.current] at missing
      cases missing
  | @free t mask j probes empty =>
      obtain rfl : t = t₀ := reads
      apply memory.view_eq_none
      intro i below stored
      have passed := probing.2.2.2.2.2
      exact absurd stored
        (memory.laid.layout.absent_of_stop passed empty i below)
  | @exhausted t mask j probes passed =>
      obtain rfl : t = t₀ := reads
      apply memory.view_eq_none
      intro i below stored
      exact absurd stored
        (memory.laid.layout.absent_of_passed_all passed i below)
  | @unpublished t j hidden =>
      obtain rfl : t = t₀ := reads
      obtain ⟨_, inside, mine⟩ := probing
      apply memory.view_eq_none
      intro i below stored
      rw [memory.laid.layout.unique below inside stored mine]
      exact hidden
  | @hit t j a =>
      obtain ⟨rfl, addr⟩ := reads
      obtain ⟨_, inside, mine, nonzero⟩ := probing
      obtain ⟨key_eq, keyNe⟩ := Table.key_eq_some.mp mine
      apply memory.view_eq_some.mpr
      refine ⟨j, inside, ?_, keyNe, nonzero⟩
      rw [← key_eq, ← addr]
      rfl
  | already => exact absurd rfl (running _)

/-- What one access does to the table. -/
inductive TableEffect (t₀ : Nat) (keys : Finset Nat) (m : Memory)
    (l : Thread) : Memory → Thread → Prop where
  | idle {l' : Thread} : l'.writing = none → TableEffect t₀ keys m l m l'
  | count {l' : Thread} : l'.writing = none →
      TableEffect t₀ keys m l { m with gSize := m.gSize + 1 } l'
  | claim {l' : Thread} {key probes : Nat} :
      l'.writing = some (probe (m.tables t₀).size (mix key) probes) →
      key ∈ keys → key ≠ 0 → probes < (m.tables t₀).size →
      Passed (m.tables t₀).size mix (m.tables t₀).key key probes →
      (m.tables t₀).key (probe (m.tables t₀).size (mix key) probes) = none →
      TableEffect t₀ keys m l
        (m.setSlot t₀ (probe (m.tables t₀).size (mix key) probes) ⟨key, 0, 0⟩)
        l'
  | write {l' : Thread} {i key len addr len' : Nat} :
      l.writing = some i → (∀ j, l'.writing = some j → j = i) →
      m.slot t₀ i = ⟨key, 0, len⟩ → key ≠ 0 →
      TableEffect t₀ keys m l (m.setSlot t₀ i ⟨key, addr, len'⟩) l'

/-- What one access of a lookup comes to: it may settle the result, which is
then what the chain leads to. -/
structure LookupPc.Serves (t₀ : Nat) (m : Memory) (key : Nat)
    (pc next : LookupPc) : Prop where
  relies : next.Relies t₀ m key
  settles : next.taken = pc.taken ∨
    pc.taken = none ∧ next.taken = some (resolve m.view key)

/-- What one access of `forward_table_cas_insert` comes to: it leaves the map
alone, or is the instant of the call. -/
structure CasPc.Serves (cheri : Intrinsics) (arenaBase : Option Cap) (t₀ : Nat)
    (keys : Finset Nat) (m : Memory) (key : Nat) (newCap : Cap) (pc : CasPc)
    (result : Memory × CasPc) : Prop where
  relies : result.2.Relies t₀ result.1 key newCap
  effect : TableEffect t₀ keys m (.casInsert key newCap pc) result.1
    (.casInsert key newCap result.2)
  settles : result.2.taken newCap = pc.taken newCap ∧
      result.1.view = m.view ∨
    pc.taken newCap = none ∧ ∃ final, result.2.taken newCap = some final ∧
      AtMap cheri arenaBase (.casInsert key newCap) m.view result.1.view
        (derived cheri arenaBase final)

theorem CasPc.Serves.idle {cheri : Intrinsics} {arenaBase : Option Cap}
    {key : Nat} {newCap : Cap} {pc pc' : CasPc}
    (relies : pc'.Relies t₀ m key newCap) (quiet : pc'.writing = none)
    (same : pc'.taken newCap = pc.taken newCap) :
    pc.Serves cheri arenaBase t₀ keys m key newCap (m, pc') :=
  ⟨relies, .idle quiet, .inl ⟨same, rfl⟩⟩

/-- Keys and published slots stay as they are. -/
structure Grown (t₀ : Nat) (m m' : Memory) : Prop where
  keysKept : KeysKept m m'
  slot_kept : ∀ i, (m.slot t₀ i).newAddr ≠ 0 → m'.slot t₀ i = m.slot t₀ i

theorem Serving.setSlot_held (memory : Serving t₀ keys m) {i key addr len : Nat}
    (held : (m.slot t₀ i).fromAddr = key) (nonzero : key ≠ 0) :
    Serving t₀ keys (m.setSlot t₀ i ⟨key, addr, len⟩) := by
  have stored : (m.tables t₀).key i = some key :=
    Table.key_eq_some.mpr ⟨held, nonzero⟩
  have sameKeys : ((m.tables t₀).setSlot i ⟨key, addr, len⟩).key =
      (m.tables t₀).key := by
    rw [Table.setSlot_key _ i ⟨key, addr, len⟩ nonzero, ← stored,
      Function.update_eq_self]
  constructor
  · exact memory.current
  · exact memory.allocated
  · rw [Memory.setSlot_tables_self]
    refine ⟨memory.laid.size_eq, memory.laid.capacity_pow, ?_⟩
    rw [sameKeys]
    exact memory.laid.layout
  · simpa using memory.room
  · intro j k jBelow jStored
    rw [Memory.setSlot_tables_self, sameKeys] at jStored
    exact memory.stored j k (by simpa using jBelow) jStored
  · intro j jBelow free
    rw [Memory.setSlot_tables_self] at free
    rw [Memory.slot, Memory.setSlot_tables_self]
    exact Table.blank_setSlot memory.blank nonzero j (by simpa using jBelow)
      free

theorem Serving.setSlot_claim (memory : Serving t₀ keys m) {key probes : Nat}
    (member : key ∈ keys) (nonzero : key ≠ 0)
    (below : probes < (m.tables t₀).size)
    (passed : Passed (m.tables t₀).size mix (m.tables t₀).key key probes)
    (free : (m.tables t₀).key (probe (m.tables t₀).size (mix key) probes) =
      none) :
    Serving t₀ keys (m.setSlot t₀ (probe (m.tables t₀).size (mix key) probes)
      ⟨key, 0, 0⟩) := by
  have newKeys := Table.setSlot_key (m.tables t₀)
    (probe (m.tables t₀).size (mix key) probes) ⟨key, 0, 0⟩ nonzero
  constructor
  · exact memory.current
  · exact memory.allocated
  · rw [Memory.setSlot_tables_self]
    refine ⟨memory.laid.size_eq, memory.laid.capacity_pow, ?_⟩
    rw [newKeys]
    exact memory.laid.layout.claim below passed free
  · simpa using memory.room
  · intro j k jBelow jStored
    rw [Memory.setSlot_tables_self, newKeys] at jStored
    by_cases here : j = probe (m.tables t₀).size (mix key) probes
    · subst here
      rw [Function.update_self] at jStored
      cases jStored
      exact member
    · rw [Function.update_of_ne here] at jStored
      exact memory.stored j k (by simpa using jBelow) jStored
  · intro j jBelow jFree
    rw [Memory.setSlot_tables_self] at jFree
    rw [Memory.slot, Memory.setSlot_tables_self]
    exact Table.blank_setSlot memory.blank nonzero j (by simpa using jBelow)
      jFree

namespace TableEffect

variable {l l' : Thread}

theorem memory (effect : TableEffect t₀ keys m l m' l')
    (serving : Serving t₀ keys m) : Serving t₀ keys m' := by
  cases effect with
  | idle _ => exact serving
  | count _ =>
      exact { serving with
        laid := ⟨serving.laid.size_eq, serving.laid.capacity_pow,
          serving.laid.layout⟩ }
  | claim _ member nonzero below passed free =>
      exact serving.setSlot_claim member nonzero below passed free
  | write _ _ content nonzero =>
      exact serving.setSlot_held (by rw [content]) nonzero

theorem grown (effect : TableEffect t₀ keys m l m' l')
    (serving : Serving t₀ keys m) : Grown t₀ m m' := by
  cases effect with
  | idle _ => exact ⟨KeysKept.refl m, fun _ _ => rfl⟩
  | count _ =>
      exact ⟨KeysKept.of_tables (Nat.le_refl _) fun _ _ => rfl, fun _ _ => rfl⟩
  | claim _ _ _ _ _ free =>
      refine ⟨KeysKept.setSlot (.inl (Table.key_eq_none.mp free)), ?_⟩
      intro i shown
      apply Memory.setSlot_slot_of_ne
      right
      rintro rfl
      rw [serving.blank _ (probe_lt _ _ serving.laid.size_pos) free] at shown
      exact shown rfl
  | write _ _ content _ =>
      refine ⟨KeysKept.setSlot (.inr (by rw [content])), ?_⟩
      intro i shown
      apply Memory.setSlot_slot_of_ne
      right
      rintro rfl
      rw [content] at shown
      exact shown rfl

theorem slot_of_ne (effect : TableEffect t₀ keys m l m' l') {i : Nat}
    (held : (m.slot t₀ i).fromAddr ≠ 0) (other : l.writing ≠ some i) :
    m'.slot t₀ i = m.slot t₀ i := by
  cases effect with
  | idle _ => rfl
  | count _ => rfl
  | claim _ _ _ _ _ free =>
      apply Memory.setSlot_slot_of_ne
      right
      rintro rfl
      exact held (Table.key_eq_none.mp free)
  | write mine _ _ _ =>
      apply Memory.setSlot_slot_of_ne
      right
      rintro rfl
      exact other mine

theorem writing_cases (effect : TableEffect t₀ keys m l m' l') {i : Nat}
    (writing : l'.writing = some i) :
    l.writing = some i ∨ (m.slot t₀ i).fromAddr = 0 := by
  cases effect with
  | idle nothing =>
      rw [nothing] at writing
      cases writing
  | count nothing =>
      rw [nothing] at writing
      cases writing
  | claim claimed _ _ _ _ free =>
      rw [claimed] at writing
      cases writing
      exact .inr (Table.key_eq_none.mp free)
  | write mine same _ _ =>
      rw [same i writing]
      exact .inl mine

end TableEffect

namespace Grown

variable {key : Nat}

theorem published (grown : Grown t₀ m m') (allocated : t₀ < m.next) {i : Nat}
    {pair : Nat × Nat} (published : Published t₀ m key i pair) :
    Published t₀ m' key i pair where
  below := by
    rw [grown.keysKept.size_eq allocated]
    exact published.below
  slot := by
    rw [grown.slot_kept i, published.slot]
    rw [published.slot]
    exact published.addr_ne
  key_ne := published.key_ne
  addr_ne := published.addr_ne

theorem find (grown : Grown t₀ m m') (allocated : t₀ < m.next) {find : FindPc}
    (probing : find.Probing m key) (reads : find.Reads t₀ m key) :
    find.Probing m' key ∧ find.Reads t₀ m' key := by
  refine ⟨probing.mono grown.keysKept, ?_⟩
  cases find with
  | loadLen t i a =>
      obtain ⟨_, _, _, nonzero⟩ := probing
      obtain ⟨here, addr⟩ := reads
      refine ⟨here, ?_⟩
      rw [grown.slot_kept i (by rwa [addr]), addr]
  | done hit =>
      cases hit with
      | none => trivial
      | some pair =>
          obtain ⟨i, shown⟩ := reads
          exact ⟨i, grown.published allocated shown⟩
  | _ => exact reads

theorem view (grown : Grown t₀ m m') (before : Serving t₀ keys m)
    (after : Serving t₀ keys m') : Extends m.view m'.view := by
  intro key pair linked
  obtain ⟨i, shown⟩ := before.view_eq_some.mp linked
  exact after.view_eq_some.mpr ⟨i, grown.published before.allocated shown⟩

theorem lookup (grown : Grown t₀ m m') (before : Serving t₀ keys m)
    (after : Serving t₀ keys m') {pc : LookupPc} (relies : pc.Relies t₀ m key) :
    pc.Relies t₀ m' key := by
  cases pc with
  | first find => exact grown.find before.allocated relies.1 relies.2
  | chase depth na nl find =>
      obtain ⟨⟨budget, resolves⟩, probing, reads⟩ := relies
      refine ⟨⟨budget, fun later more => ?_⟩,
        grown.find before.allocated probing reads⟩
      exact resolves later ((grown.view before after).trans more)
  | done final => trivial

end Grown

theorem Thread.Relies.mono {request : Request} {l l' other : Thread}
    (relies : other.Relies t₀ keys m request) (before : Serving t₀ keys m)
    (effect : TableEffect t₀ keys m l m' l')
    (distinct : ∀ i, other.writing = some i → l.writing ≠ some i) :
    other.Relies t₀ keys m' request := by
  have after := effect.memory before
  have grown := effect.grown before
  have size := grown.keysKept.size_eq before.allocated
  cases request with
  | lookup key =>
      cases other with
      | lookup key' pc => exact ⟨relies.1, grown.lookup before after relies.2⟩
      | _ => exact relies.elim
  | casInsert key newCap =>
      cases other with
      | casInsert key' newCap' pc =>
          obtain ⟨rfl, rfl, proper, pcRelies⟩ := relies
          refine ⟨rfl, rfl, proper, ?_⟩
          cases pc with
          | loadKey t mask i probes =>
              exact ⟨pcRelies.1, pcRelies.2.mono grown.keysKept⟩
          | exchange t mask i probes =>
              exact ⟨pcRelies.1, pcRelies.2.mono grown.keysKept⟩
          | storeLen t i =>
              obtain ⟨rfl, below, content⟩ := pcRelies
              refine ⟨rfl, by rwa [size], ?_⟩
              rw [effect.slot_of_ne (by rw [content]; exact proper.2.1)
                (distinct i rfl), content]
          | storeAddr t i =>
              obtain ⟨rfl, below, content⟩ := pcRelies
              refine ⟨rfl, by rwa [size], ?_⟩
              rw [effect.slot_of_ne (by rw [content]; exact proper.2.1)
                (distinct i rfl), content]
          | spin t i =>
              obtain ⟨rfl, below, mine⟩ := pcRelies
              refine ⟨rfl, by rwa [size], ?_⟩
              have kept := grown.keysKept.key_kept before.allocated
                (Table.key_eq_some.mpr ⟨mine, proper.2.1⟩)
              exact (Table.key_eq_some.mp kept).1
          | lookup pc =>
              obtain ⟨linked, lookupRelies⟩ := pcRelies
              refine ⟨?_, grown.lookup before after lookupRelies⟩
              obtain ⟨pair, link⟩ := Option.ne_none_iff_exists'.mp linked
              rw [grown.view before after link]
              exact Option.some_ne_none _
          | _ => exact pcRelies
      | _ => exact relies.elim

theorem Serving.find_step (memory : Serving t₀ keys m) {key : Nat}
    {find : FindPc} (probing : find.Probing m key)
    (reads : find.Reads t₀ m key) (running : ∀ hit, find ≠ .done hit) :
    ((findStep m key find).Probing m key ∧
      (findStep m key find).Reads t₀ m key) ∧
      ∀ hit, findStep m key find = .done hit → hit = m.view key := by
  obtain ⟨next, outcome⟩ := probing.step
    (fun t current => by
      rw [memory.current] at current
      cases current
      exact memory.allocated)
    (fun t loading => by
      subst loading
      obtain rfl : t = t₀ := reads
      exact ⟨memory.laid.size_eq.symm, memory.laid.capacity_pow⟩)
  refine ⟨⟨next, ?_⟩, fun hit done =>
    memory.find_done probing reads running (outcome hit done)⟩
  cases find with
  | loadTable =>
      simp only [findStep, memory.current]
      rfl
  | loadCapacity t => exact reads
  | loadKey t mask i probes =>
      simp only [findStep]
      repeat' split
      all_goals first | exact reads | trivial
  | loadAddr t i =>
      simp only [findStep]
      split
      · trivial
      · exact ⟨reads, by rw [← reads]⟩
  | loadLen t i a =>
      obtain ⟨_, below, stored, nonzero⟩ := probing
      obtain ⟨rfl, addr⟩ := reads
      obtain ⟨mine, keyNe⟩ := Table.key_eq_some.mp stored
      refine ⟨i, below, ?_, keyNe, nonzero⟩
      change m.slot t i = ⟨key, a, (m.slot t i).newLen⟩
      rw [← addr, ← mine]
      rfl
  | done hit => exact absurd rfl (running hit)

section Chase

variable {map : Nat → Option (Nat × Nat)} {key depth na nl : Nat}

theorem Chasing.start (linked : map key = some (na, nl)) :
    Chasing map key 0 na nl := by
  refine ⟨by decide, fun later more => ?_⟩
  rw [resolve, more linked]
  rfl

theorem Chasing.fuel (chasing : Chasing map key depth na nl) :
    chaseMax - depth = chaseMax - (depth + 1) + 1 := by
  have budget := chasing.1
  omega

theorem Chasing.resolve (chasing : Chasing map key depth na nl) :
    resolve map key = chase map (chaseMax - depth) na nl :=
  chasing.2 map (Extends.refl map)

theorem Chasing.stop (chasing : Chasing map key depth na nl)
    (ended : map na = none) :
    ForwardTable.resolve map key = some (na, nl) := by
  rw [chasing.resolve, chasing.fuel]
  exact chase_terminal (.inl ended) _

theorem Chasing.selfMapped (chasing : Chasing map key depth na nl) {nnl : Nat}
    (linked : map na = some (na, nnl)) :
    ForwardTable.resolve map key = some (na, nl) := by
  rw [chasing.resolve, chasing.fuel]
  exact chase_terminal (.inr ⟨nnl, linked⟩) _

/-- One more link, within the budget or beyond it. -/
theorem Chasing.next (chasing : Chasing map key depth na nl) {nna nnl : Nat}
    (linked : map na = some (nna, nnl)) (other : nna ≠ na) :
    (chaseMax ≤ depth + 1 → ForwardTable.resolve map key = none) ∧
      (¬ chaseMax ≤ depth + 1 → Chasing map key (depth + 1) nna nnl) := by
  have step : ∀ later, Extends map later →
      ForwardTable.resolve later key =
        chase later (chaseMax - (depth + 1)) nna nnl := by
    intro later more
    rw [chasing.2 later more, chasing.fuel, chase, more linked]
    exact if_neg other
  constructor
  · intro spent
    rw [step map (Extends.refl map), Nat.sub_eq_zero_of_le spent]
    rfl
  · intro more
    exact ⟨by omega, step⟩

end Chase

theorem Serving.first_step (memory : Serving t₀ keys m) {key : Nat}
    {find : FindPc} (running : ∀ hit, find ≠ .done hit)
    (relies : (LookupPc.first find).Relies t₀ m key) :
    (LookupPc.first find).Serves t₀ m key (.first (findStep m key find)) := by
  obtain ⟨next, done⟩ := memory.find_step relies.1 relies.2 running
  have pending : (LookupPc.first find).taken = none := by
    cases find with
    | done hit => exact absurd rfl (running hit)
    | _ => rfl
  refine ⟨next, ?_⟩
  cases reached : findStep m key find with
  | done hit =>
      cases hit with
      | none =>
          right
          refine ⟨pending, ?_⟩
          change some none = _
          rw [resolve, ← done none reached]
      | some pair => exact .inl pending.symm
  | _ => exact .inl pending.symm

theorem Serving.chase_step (memory : Serving t₀ keys m)
    {key depth na nl : Nat} {find : FindPc} (running : ∀ hit, find ≠ .done hit)
    (relies : (LookupPc.chase depth na nl find).Relies t₀ m key) :
    (LookupPc.chase depth na nl find).Serves t₀ m key
      (.chase depth na nl (findStep m na find)) := by
  obtain ⟨chasing, probing, reads⟩ := relies
  obtain ⟨next, done⟩ := memory.find_step probing reads running
  have pending : (LookupPc.chase depth na nl find).taken = none := by
    cases find with
    | done hit => exact absurd rfl (running hit)
    | _ => rfl
  refine ⟨⟨chasing, next⟩, ?_⟩
  cases reached : findStep m na find with
  | done hit =>
      have seen := done hit reached
      cases hit with
      | none =>
          exact .inr ⟨pending, congrArg some (chasing.stop seen.symm).symm⟩
      | some pair =>
          obtain ⟨nna, nnl⟩ := pair
          simp only [LookupPc.taken]
          by_cases same : nna = na
          · subst same
            rw [if_pos rfl]
            exact .inr ⟨pending,
              congrArg some (chasing.selfMapped seen.symm).symm⟩
          · rw [if_neg same]
            obtain ⟨beyond, _⟩ := chasing.next seen.symm same
            by_cases spent : chaseMax ≤ depth + 1
            · rw [if_pos spent]
              exact .inr ⟨pending, congrArg some (beyond spent).symm⟩
            · rw [if_neg spent]
              exact .inl pending.symm
  | _ => exact .inl pending.symm

/-- The loop of the chase between two calls of `ft_find`. -/
theorem Serving.chase_next (memory : Serving t₀ keys m)
    {key depth na nl : Nat} {pair : Nat × Nat}
    (relies : (LookupPc.chase depth na nl (.done (some pair))).Relies t₀ m
      key) :
    (LookupPc.chase depth na nl (.done (some pair))).Serves t₀ m key
      (lookupStep m key (.chase depth na nl (.done (some pair)))) := by
  obtain ⟨chasing, _, reads⟩ := relies
  obtain ⟨nna, nnl⟩ := pair
  have linked := memory.view_eq_some.mpr reads
  by_cases same : nna = na
  · simp only [lookupStep, if_pos same]
    refine ⟨trivial, .inl ?_⟩
    simp only [LookupPc.taken, if_pos same]
  · obtain ⟨_, more⟩ := chasing.next linked same
    simp only [lookupStep, if_neg same]
    by_cases spent : chaseMax ≤ depth + 1
    · rw [if_pos spent]
      refine ⟨trivial, .inl ?_⟩
      simp only [LookupPc.taken, if_neg same, if_pos spent]
    · rw [if_neg spent]
      refine ⟨⟨more spent, trivial, trivial⟩, .inl ?_⟩
      simp only [LookupPc.taken, if_neg same, if_neg spent]

theorem LookupPc.Relies.step (memory : Serving t₀ keys m) {key : Nat}
    {pc : LookupPc} (relies : pc.Relies t₀ m key) :
    pc.Serves t₀ m key (lookupStep m key pc) := by
  cases pc with
  | first find =>
      rcases find.done_or_running with ⟨hit, rfl⟩ | running
      · cases hit with
        | none => exact ⟨trivial, .inl rfl⟩
        | some pair =>
            have linked := memory.view_eq_some.mpr relies.2
            exact ⟨⟨Chasing.start linked, trivial, trivial⟩, .inl rfl⟩
      · rw [lookupStep_first m key running]
        exact memory.first_step running relies
  | chase depth na nl find =>
      rcases find.done_or_running with ⟨hit, rfl⟩ | running
      · cases hit with
        | none => exact ⟨trivial, .inl rfl⟩
        | some pair =>
            exact memory.chase_next relies
      · rw [lookupStep_chase m key depth na nl running]
        exact memory.chase_step running relies
  | done final => exact ⟨trivial, .inl rfl⟩

theorem Serving.view_hidden (memory : Serving t₀ keys m) {i : Nat}
    {content : Slot} (after : Serving t₀ keys (m.setSlot t₀ i content))
    (before : (m.slot t₀ i).newAddr = 0) (still : content.newAddr = 0) :
    (m.setSlot t₀ i content).view = m.view := by
  have same : ∀ k j pair,
      Published t₀ (m.setSlot t₀ i content) k j pair ↔
        Published t₀ m k j pair := by
    intro k j pair
    by_cases here : j = i
    · subst here
      constructor
      · intro shown
        have slot := shown.slot
        rw [Memory.setSlot_slot_self] at slot
        rw [slot] at still
        exact absurd still shown.addr_ne
      · intro shown
        rw [shown.slot] at before
        exact absurd before shown.addr_ne
    · have slot := Memory.setSlot_slot_of_ne m t₀ i (u := t₀) content (.inr here)
      constructor
      · intro shown
        exact ⟨by simpa using shown.below, slot.symm.trans shown.slot,
          shown.key_ne, shown.addr_ne⟩
      · intro shown
        exact ⟨by simpa using shown.below, slot.trans shown.slot,
          shown.key_ne, shown.addr_ne⟩
  funext k
  apply Option.ext
  intro pair
  rw [after.view_eq_some, memory.view_eq_some]
  exact exists_congr fun j => same k j pair

theorem Serving.view_shown (memory : Serving t₀ keys m) {i key len addr : Nat}
    (after : Serving t₀ keys (m.setSlot t₀ i ⟨key, addr, len⟩))
    (below : i < (m.tables t₀).size) (before : m.slot t₀ i = ⟨key, 0, len⟩)
    (nonzero : key ≠ 0) (shown : addr ≠ 0) :
    m.view key = none ∧
      (m.setSlot t₀ i ⟨key, addr, len⟩).view =
        Function.update m.view key (some (addr, len)) := by
  have mine : (m.tables t₀).key i = some key :=
    Table.key_eq_some.mpr ⟨congrArg Slot.fromAddr before, nonzero⟩
  have hidden : m.view key = none := by
    apply memory.view_eq_none
    intro j inside stored
    rw [memory.laid.layout.unique inside below stored mine, before]
  refine ⟨hidden, ?_⟩
  funext k
  by_cases here : k = key
  · subst here
    rw [Function.update_self, after.view_eq_some]
    exact ⟨i, by simpa using below, Memory.setSlot_slot_self _ _ _ _, nonzero,
      shown⟩
  · rw [Function.update_of_ne here]
    apply Option.ext
    intro pair
    rw [after.view_eq_some, memory.view_eq_some]
    apply exists_congr
    intro j
    have elsewhere : ∀ {m' : Memory}, (m'.slot t₀ i).fromAddr = key →
        Published t₀ m' k j pair → j ≠ i := by
      rintro m' held published rfl
      rw [published.slot] at held
      exact here held
    constructor
    · intro published
      have other := elsewhere (by rw [Memory.setSlot_slot_self]) published
      have slot := published.slot
      rw [Memory.setSlot_slot_of_ne _ _ _ _ (.inr other)] at slot
      exact ⟨by simpa using published.below, slot, published.key_ne,
        published.addr_ne⟩
    · intro published
      have other := elsewhere (by rw [before]) published
      refine ⟨by simpa using published.below, ?_, published.key_ne,
        published.addr_ne⟩
      rw [Memory.setSlot_slot_of_ne _ _ _ _ (.inr other), published.slot]

/-- The end of a loop body: the table cannot be full of other keys. -/
theorem Serving.advance (memory : Serving t₀ keys m) {key : Nat}
    (newCap : Cap) (member : key ∈ keys) {mask i probes : Nat}
    (passed : Passed (m.tables t₀).size mix (m.tables t₀).key key (probes + 1))
    (more : probes + 1 ≤ mask ∧ (FindPc.loadKey t₀ mask ((i + 1) &&& mask)
        (probes + 1)).Probing m key ∨
      ¬ probes + 1 ≤ mask ∧ probes + 1 = (m.tables t₀).size) :
    (CasPc.advance t₀ mask i probes).Relies t₀ m key newCap ∧
      (CasPc.advance t₀ mask i probes).writing = none ∧
      (CasPc.advance t₀ mask i probes).taken newCap = none := by
  rcases more with ⟨next, further⟩ | ⟨_, whole⟩
  · rw [CasPc.advance, if_pos next]
    exact ⟨⟨rfl, further⟩, rfl, rfl⟩
  · rw [whole] at passed
    exact absurd passed
      (memory.laid.layout.not_passed_all member memory.room memory.stored)

section Accesses

variable {cheri : Intrinsics} {arenaBase : Option Cap}
  {key i mask probes : Nat} {newCap : Cap} (granted : Bool)

theorem Serving.loadKey_step (memory : Serving t₀ keys m)
    (member : key ∈ keys) (nonzero : key ≠ 0)
    (probing : (FindPc.loadKey t₀ mask i probes).Probing m key) :
    (CasPc.loadKey t₀ mask i probes).Serves cheri arenaBase t₀ keys m key newCap
      (casInsertStep granted key newCap m (.loadKey t₀ mask i probes)) := by
  simp only [casInsertStep]
  rcases probing.loadKey_cases with ⟨free, _⟩ | ⟨_, mine, below, _⟩ |
    ⟨taken, other, passed, more⟩
  · rw [if_neg (by rw [free]; exact nonzero.symm), if_pos free]
    exact .idle ⟨rfl, probing⟩ rfl rfl
  · rw [if_pos mine]
    exact .idle ⟨rfl, below, mine⟩ rfl rfl
  · rw [if_neg other, if_neg taken]
    obtain ⟨next, quiet, pending⟩ := memory.advance newCap member passed more
    exact .idle next quiet pending

/-- The exchange claims a slot that is still free, which shows no link. -/
theorem Serving.exchange_step (memory : Serving t₀ keys m)
    (member : key ∈ keys) (nonzero : key ≠ 0)
    (probing : (FindPc.loadKey t₀ mask i probes).Probing m key) :
    (CasPc.exchange t₀ mask i probes).Serves cheri arenaBase t₀ keys m key
      newCap
      (casInsertStep granted key newCap m (.exchange t₀ mask i probes)) := by
  obtain ⟨_, _, _, below, here, passed⟩ := id probing
  simp only [casInsertStep]
  rcases probing.loadKey_cases with ⟨free, empty⟩ | ⟨taken, mine, inside, _⟩ |
    ⟨taken, other, passed, more⟩
  · rw [if_pos free]
    have inside : i < (m.tables t₀).size := by
      rw [here]
      exact probe_lt _ _ memory.laid.size_pos
    have blank := memory.blank i inside empty
    have swapped : m.storeKey t₀ i key = m.setSlot t₀ i ⟨key, 0, 0⟩ := by
      rw [Memory.storeKey, blank]
    rw [swapped]
    refine ⟨⟨rfl, by simpa using inside, Memory.setSlot_slot_self _ _ _ _⟩,
      ?_, .inl ⟨rfl, ?_⟩⟩
    · subst here
      exact .claim rfl member nonzero below passed empty
    · apply memory.view_hidden ?_ (by rw [blank]) rfl
      subst here
      exact memory.setSlot_claim member nonzero below passed empty
  · rw [if_neg taken, if_pos mine]
    exact .idle ⟨rfl, inside, mine⟩ rfl rfl
  · rw [if_neg taken, if_neg other]
    obtain ⟨next, quiet, pending⟩ := memory.advance newCap member passed more
    exact .idle next quiet pending

theorem Serving.storeLen_step (memory : Serving t₀ keys m) (nonzero : key ≠ 0)
    (below : i < (m.tables t₀).size) (content : m.slot t₀ i = ⟨key, 0, 0⟩) :
    (CasPc.storeLen t₀ i).Serves cheri arenaBase t₀ keys m key newCap
      (casInsertStep granted key newCap m (.storeLen t₀ i)) := by
  simp only [casInsertStep, Memory.storeLen, content]
  refine ⟨⟨rfl, by simpa using below, Memory.setSlot_slot_self _ _ _ _⟩,
    .write rfl ?_ content nonzero, .inl ⟨rfl, ?_⟩⟩
  · rintro j ⟨⟩
    rfl
  · exact memory.view_hidden
      (memory.setSlot_held (by rw [content]) nonzero) (by rw [content]) rfl

/-- The store that publishes the address is the instant of a winning
insertion. -/
theorem Serving.storeAddr_step (memory : Serving t₀ keys m) (nonzero : key ≠ 0)
    (addrNe : newCap.address ≠ 0) (below : i < (m.tables t₀).size)
    (content : m.slot t₀ i = ⟨key, 0, newCap.length⟩) :
    (CasPc.storeAddr t₀ i).Serves cheri arenaBase t₀ keys m key newCap
      (casInsertStep granted key newCap m (.storeAddr t₀ i)) := by
  simp only [casInsertStep, Memory.storeAddr, content]
  have after : Serving t₀ keys
      (m.setSlot t₀ i ⟨key, newCap.address, newCap.length⟩) :=
    memory.setSlot_held (by rw [content]) nonzero
  obtain ⟨absent, shown⟩ :=
    memory.view_shown after below content nonzero addrNe
  refine ⟨trivial, .write rfl ?_ content nonzero, .inr ⟨rfl, _, rfl, ?_⟩⟩
  · rintro j ⟨⟩
  · rw [shown]
    exact .inserted newCap absent

theorem Serving.spin_step (memory : Serving t₀ keys m) (nonzero : key ≠ 0)
    (below : i < (m.tables t₀).size) (mine : (m.slot t₀ i).fromAddr = key) :
    (CasPc.spin t₀ i).Serves cheri arenaBase t₀ keys m key newCap
      (casInsertStep granted key newCap m (.spin t₀ i)) := by
  simp only [casInsertStep]
  by_cases hidden : (m.slot t₀ i).newAddr = 0
  · rw [if_pos hidden]
    exact .idle ⟨rfl, below, mine⟩ rfl rfl
  · rw [if_neg hidden]
    have linked : m.view key =
        some ((m.slot t₀ i).newAddr, (m.slot t₀ i).newLen) := by
      apply memory.view_eq_some.mpr
      refine ⟨i, below, ?_, nonzero, hidden⟩
      rw [← mine]
    refine .idle ⟨?_, trivial, trivial⟩ rfl rfl
    rw [linked]
    exact Option.some_ne_none _

/-- A losing insertion takes effect with its lookup. -/
theorem Serving.lookup_step (memory : Serving t₀ keys m) {pc : LookupPc}
    (linked : m.view key ≠ none) (relies : pc.Relies t₀ m key) :
    (CasPc.lookup pc).Serves cheri arenaBase t₀ keys m key newCap
      (casInsertStep granted key newCap m (.lookup pc)) := by
  obtain ⟨next, settled⟩ := relies.step memory
  have shows : (lookupStep m key pc).taken = pc.taken ∧ m.view = m.view ∨
      pc.taken = none ∧ ∃ final, (lookupStep m key pc).taken = some final ∧
        AtMap cheri arenaBase (.casInsert key newCap) m.view m.view
          (derived cheri arenaBase final) := by
    rcases settled with same | ⟨pending, done⟩
    · exact .inl ⟨same, rfl⟩
    · exact .inr ⟨pending, _, done, .present newCap linked⟩
  cases pc with
  | done final => exact .idle trivial rfl rfl
  | first find => exact ⟨⟨linked, next⟩, .idle rfl, shows⟩
  | chase depth na nl find => exact ⟨⟨linked, next⟩, .idle rfl, shows⟩

theorem CasPc.Relies.step (memory : Serving t₀ keys m) {pc : CasPc}
    (relies : pc.Relies t₀ m key newCap)
    (proper : (Request.casInsert key newCap).Proper keys) :
    pc.Serves cheri arenaBase t₀ keys m key newCap
      (casInsertStep granted key newCap m pc) := by
  obtain ⟨member, nonzero, addrNe⟩ := proper
  cases pc with
  | loadTable =>
      have loaded : casInsertStep granted key newCap m .loadTable =
          (m, .loadCapacity t₀) := by
        simp only [casInsertStep, memory.current]
      rw [loaded]
      exact .idle rfl rfl rfl
  | loadCapacity t =>
      obtain rfl : t = t₀ := relies
      have allocated : (FindPc.loadCapacity t).Probing m key := memory.allocated
      have loading : (findStep m key (.loadCapacity t)).Probing m key :=
        (memory.find_step allocated rfl (by rintro _ ⟨⟩)).1.1
      exact .idle ⟨rfl, loading⟩ rfl rfl
  | loadKey t mask i probes =>
      obtain ⟨rfl, probing⟩ := relies
      exact memory.loadKey_step granted member nonzero probing
  | exchange t mask i probes =>
      obtain ⟨rfl, probing⟩ := relies
      exact memory.exchange_step granted member nonzero probing
  | storeLen t i =>
      obtain ⟨rfl, below, content⟩ := relies
      exact memory.storeLen_step granted nonzero below content
  | storeAddr t i =>
      obtain ⟨rfl, below, content⟩ := relies
      exact memory.storeAddr_step granted nonzero addrNe below content
  | addSize t i => exact ⟨trivial, .count rfl, .inl ⟨rfl, rfl⟩⟩
  | spin t i =>
      obtain ⟨rfl, below, mine⟩ := relies
      exact memory.spin_step granted nonzero below mine
  | lookup pc =>
      obtain ⟨linked, lookupRelies⟩ := relies
      exact memory.lookup_step granted linked lookupRelies
  | won t i => exact .idle trivial rfl rfl
  | got final => exact .idle trivial rfl rfl
  | _ => exact relies.elim

end Accesses

section Calls

variable {cheri : Intrinsics} {arenaBase : Option Cap}

theorem Thread.Relies.step (cheri : Intrinsics) (arenaBase : Option Cap)
    (memory : Serving t₀ keys m) {request : Request} {l l' : Thread}
    (relies : l.Relies t₀ keys m request) (stepped : ThreadStep m l m' l') :
    l'.Relies t₀ keys m' request ∧ TableEffect t₀ keys m l m' l' ∧
      (l'.taken = l.taken ∧ m'.view = m.view ∨
        l.taken = none ∧ ∃ final, l'.taken = some final ∧
          AtMap cheri arenaBase request m.view m'.view
            (derived cheri arenaBase final)) := by
  cases request with
  | lookup key =>
      cases stepped with
      | lookup =>
          obtain ⟨rfl, pcRelies⟩ := relies
          obtain ⟨next, same | ⟨pending, done⟩⟩ := pcRelies.step memory
          · exact ⟨⟨rfl, next⟩, .idle rfl, .inl ⟨same, rfl⟩⟩
          · exact ⟨⟨rfl, next⟩, .idle rfl,
              .inr ⟨pending, _, done, .lookup _ _⟩⟩
      | _ => exact relies.elim
  | casInsert key newCap =>
      cases stepped with
      | casInsert granted =>
          obtain ⟨rfl, rfl, proper, pcRelies⟩ := relies
          obtain ⟨next, effect, shows⟩ :=
            pcRelies.step granted memory proper
          exact ⟨⟨rfl, rfl, proper, next⟩, effect, shows⟩
      | _ => exact relies.elim

theorem Thread.Relies.enter {request : Request}
    (proper : request.Proper keys) :
    (Request.enter request).Relies t₀ keys m request := by
  cases request with
  | lookup key => exact ⟨rfl, trivial, trivial⟩
  | casInsert key newCap => exact ⟨rfl, rfl, proper, trivial⟩

theorem Thread.Relies.returned {request : Request} {l : Thread}
    (relies : l.Relies t₀ keys m request) {result : Option Cap}
    (back : l.returned cheri arenaBase = some result) :
    l.taken.map (derived cheri arenaBase) = some result := by
  cases l with
  | lookup key pc =>
      cases pc with
      | done final => exact back
      | _ => cases back
  | casInsert key newCap pc =>
      cases pc with
      | won t i => exact back
      | got final =>
          cases final with
          | none => exact back
          | some pair => exact back
      | full =>
          cases request with
          | lookup key => exact relies.elim
          | casInsert key newCap => exact relies.2.2.2.elim
      | _ => cases back
  | inserts before key newCap pc after => cases back
  | grow pc => cases back

variable {ι : Type*} [DecidableEq ι] {calls : ι → Option (Request × Thread)}

theorem Served.step (served : Served t₀ keys m calls) {i : ι}
    {request : Request} {l l' : Thread} (running : calls i = some (request, l))
    (effect : TableEffect t₀ keys m l m' l')
    (relies : l'.Relies t₀ keys m' request) :
    Served t₀ keys m' (Function.update calls i (some (request, l'))) := by
  -- the slot that the thread goes on with belongs to nobody else
  have mine : ∀ j other k, j ≠ i → calls j = some other →
      l'.writing = some k → other.2.writing ≠ some k := by
    intro j other k different theirs ours writing
    rcases effect.writing_cases ours with before | free
    · exact different (served.single k j i other (request, l) theirs running
        writing before)
    · obtain ⟨theirRequest, theirThread⟩ := other
      have held := served.relies j _ _ theirs
      cases theirThread with
      | casInsert key newCap pc =>
          cases theirRequest with
          | lookup key' => exact held
          | casInsert key' newCap' =>
              obtain ⟨rfl, rfl, proper, pcRelies⟩ := held
              cases pc with
              | storeLen t k' =>
                  cases writing
                  rw [pcRelies.2.2] at free
                  exact proper.2.1 free
              | storeAddr t k' =>
                  cases writing
                  rw [pcRelies.2.2] at free
                  exact proper.2.1 free
              | _ => cases writing
      | _ => cases writing
  refine ⟨effect.memory served.memory, ?_, ?_⟩
  · intro j other lj theirs
    by_cases here : j = i
    · subst here
      rw [Function.update_self] at theirs
      cases theirs
      exact relies
    · rw [Function.update_of_ne here] at theirs
      refine (served.relies j _ _ theirs).mono served.memory effect ?_
      intro k writing ours
      exact here (served.single k j i _ _ theirs running writing ours)
  · intro k j j' call call' first second writing writing'
    by_cases here : j = i
    · subst here
      rw [Function.update_self] at first
      cases first
      by_contra different
      have other : j' ≠ j := fun same => different same.symm
      rw [Function.update_of_ne other] at second
      exact mine j' call' k other second writing writing'
    · rw [Function.update_of_ne here] at first
      by_cases here' : j' = i
      · subst here'
        rw [Function.update_self] at second
        cases second
        exact absurd writing (mine j call k here first writing')
      · rw [Function.update_of_ne here'] at second
        exact served.single k j j' call call' first second writing writing'

/-- A call that writes nothing may start, and any call may end. -/
theorem Served.replace (served : Served t₀ keys m calls) (i : ι)
    {call : Option (Request × Thread)}
    (relies : ∀ request l, call = some (request, l) →
      l.Relies t₀ keys m request ∧ l.writing = none) :
    Served t₀ keys m (Function.update calls i call) := by
  refine ⟨served.memory, ?_, ?_⟩
  · exact each_update served.relies i fun request l running =>
      (relies request l running).1
  · have writes : ∀ j other k,
        Function.update calls i call j = some other →
        other.2.writing = some k → calls j = some other := by
      intro j other k running writing
      by_cases here : j = i
      · subst here
        rw [Function.update_self] at running
        rw [(relies other.1 other.2 running).2] at writing
        cases writing
      · rwa [Function.update_of_ne here] at running
    intro k j j' first second running running' writing writing'
    exact served.single k j j' first second (writes j first k running writing)
      (writes j' second k running' writing') writing writing'

theorem table_simulates (cheri : Intrinsics) (arenaBase : Option Cap)
    (ι : Type*) [DecidableEq ι] (t₀ : Nat) (keys : Finset Nat) :
    Simulation (ι := ι) (table cheri arenaBase) (AtMap cheri arenaBase)
      (Request.Proper keys) (Served t₀ keys) Memory.view
      fun _ l => l.taken.map (derived cheri arenaBase) where
  enter := by
    intro m calls i request served _ proper
    constructor
    · apply served.replace i
      rintro _ _ ⟨⟩
      refine ⟨Thread.Relies.enter proper, ?_⟩
      cases request <;> rfl
    · cases request <;> rfl
  access := by
    intro m calls i request l m' l' served running stepped
    obtain ⟨next, effect, shows⟩ :=
      (served.relies i _ _ running).step cheri arenaBase served.memory stepped
    refine ⟨served.step running effect next, ?_⟩
    rcases shows with ⟨same, kept⟩ | ⟨pending, final, done, effected⟩
    · exact .inl ⟨by rw [same], kept⟩
    · exact .inr ⟨by rw [pending]; rfl, _, by rw [done]; rfl, effected⟩
  leave := by
    intro m calls i request l result served running back
    constructor
    · apply served.replace i
      rintro _ _ ⟨⟩
    · exact (served.relies i _ _ running).returned back

end Calls

end Invariant

/-- An initialised table with room for all keys. -/
structure Room (m : Memory) (t₀ : Nat) (keys : Finset Nat) : Prop where
  ready : Initialised m t₀
  stored : ∀ i k, i < (m.tables t₀).size → (m.tables t₀).key i = some k →
    k ∈ keys
  room : keys.card ≤ m.gCapacity

theorem Room.served {ι : Type*} {m : Memory} {t₀ : Nat} {keys : Finset Nat}
    (room : Room m t₀ keys) : Served t₀ keys m fun _ : ι => none := by
  have shape := room.ready.shape
  refine ⟨⟨room.ready.current, room.ready.allocated,
    ⟨shape.size_eq, shape.capacity_pow, shape.layout⟩, ?_, room.stored,
    shape.blank⟩, ?_, ?_⟩
  · rw [shape.size_eq]
    exact room.room
  · rintro _ _ _ ⟨⟩
  · rintro _ _ _ _ _ ⟨⟩

/-- Over the table of `forward_table_lookup` and `forward_table_cas_insert`,
run one atomic access at a time, every program that inserts only the given keys
does what it can do over a map on which each call happens at one instant. -/
theorem forwardTable_atomic {ι γ ρ : Type*} [DecidableEq ι]
    {cheri : Intrinsics} {arenaBase : Option Cap}
    {client : Client ι γ ρ Request (Option Cap)}
    {start c : Interleaving.Config ι (γ × Memory)
      (ρ × Option (Request × Thread))} {t₀ : Nat} {keys : Finset Nat}
    (room : Room start.shared.2 t₀ keys)
    (idle : ∀ i, (start.locals i).2 = none)
    (proper : ∀ a, AtomicReachable client (AtMap cheri arenaBase)
        (atomicStart Memory.view start) a →
      ∀ i request, client.call (a.locals i).1 = some request →
        request.Proper keys)
    (reachable : ConcreteReachable client (table cheri arenaBase) start c) :
    ∃ a, AtomicReachable client (AtMap cheri arenaBase)
        (atomicStart Memory.view start) a ∧
      Matches client Memory.view
        (fun _ l => l.taken.map (derived cheri arenaBase)) c a := by
  obtain ⟨a, ran, matched, _⟩ :=
    (table_simulates cheri arenaBase ι t₀ keys).refines idle room.served proper
      reachable
  exact ⟨a, ran, matched⟩

section Example

/-- One call after the other, in a process that makes a list of them. -/
def scriptNext (cheri : Intrinsics) (arenaBase : Option Cap) :
    (Unit × Memory) × ((List Request × List (Option Cap)) ×
      Option (Request × Thread)) →
    (Unit × Memory) × ((List Request × List (Option Cap)) ×
      Option (Request × Thread)) :=
  follow (scripted Bool Request (Option Cap)) (table cheri arenaBase) Prod.mk
    fun _ m l => Thread.next (m, l)

theorem scriptNext_steps (cheri : Intrinsics) (arenaBase : Option Cap)
    (i : Bool) (x : (Unit × Memory) × ((List Request × List (Option Cap)) ×
      Option (Request × Thread))) :
    Relation.ReflTransGen (fun before after =>
        ConcreteStep (scripted Bool Request (Option Cap)) (table cheri arenaBase)
          i before.1 before.2 after.1 after.2) x
      (scriptNext cheri arenaBase x) :=
  follow_steps i (fun _ _ => .inl rfl) (fun _ m l _ => .inr (Thread.next_step m l))
    x

/-- The first process forwards an object twice and looks it up, the second
one tries to forward it elsewhere. -/
def forwardingTwice : Interleaving.Config Bool (Unit × Memory)
    ((List Request × List (Option Cap)) × Option (Request × Thread)) :=
  { shared := ((), Memory.ready)
    locals := fun second =>
      if second then (([.casInsert 16 (racingCap 128)], []), none)
      else (([.casInsert 16 (racingCap 64), .casInsert 64 (racingCap 96),
        .lookup 16], []), none) }

theorem forwardingTwice_room : Room Memory.ready 0 {16, 64} where
  ready :=
    { current := rfl
      allocated := by decide
      shape := shape_zeroed (e := 16) rfl (by decide) _ }
  stored := by
    intro i k _ stored
    change (Table.zeroed initialCap).key i = some k at stored
    rw [Table.zeroed_key] at stored
    cases stored
  room := by decide

theorem forwardingTwice_proper {effect : Request → (Nat → Option (Nat × Nat)) →
      (Nat → Option (Nat × Nat)) → Option Cap → Prop} :
    ∀ a, AtomicReachable (scripted Bool Request (Option Cap)) effect
        (atomicStart Memory.view forwardingTwice) a →
      ∀ i request, (scripted Bool Request (Option Cap)).call (a.locals i).1 =
        some request → request.Proper {16, 64} := by
  intro a ran i request asked
  have member := scripted_calls ran i (List.mem_of_head? asked)
  cases i <;> simp [forwardingTwice, atomicStart] at member
  · rcases member with rfl | rfl | rfl
    · exact ⟨by decide, by decide, by decide⟩
    · exact ⟨by decide, by decide, by decide⟩
    · trivial
  · subst member
    exact ⟨by decide, by decide, by decide⟩

/-- Both find the last copy. -/
theorem forwardTable_atomic_twice :
    ∃ c a, ConcreteReachable (scripted Bool Request (Option Cap))
        (table Intrinsics.exact (some (racingCap 0))) forwardingTwice c ∧
      (c.locals false).1.2[2]? =
        some (ftDerive Intrinsics.exact (some (racingCap 0)) 96 32) ∧
      (c.locals true).1.2 =
        [ftDerive Intrinsics.exact (some (racingCap 0)) 96 32] ∧
      AtomicReachable (scripted Bool Request (Option Cap))
        (AtMap Intrinsics.exact (some (racingCap 0)))
        (atomicStart Memory.view forwardingTwice) a ∧
      ∀ i, (a.locals i).1 = (c.locals i).1 := by
  have first : ConcreteReachable (scripted Bool Request (Option Cap))
      (table Intrinsics.exact (some (racingCap 0))) forwardingTwice _ :=
    Interleaving.Reachable.repeated false 60 (scriptNext_steps _ _ false)
  have second := first.trans
    (Interleaving.Reachable.repeated true 40 (scriptNext_steps _ _ true))
  generalize reached : Interleaving.Config.advance _ true _ _ = c at second
  obtain ⟨a, ran, matched⟩ := forwardTable_atomic forwardingTwice_room
    (by intro i; cases i <;> rfl) forwardingTwice_proper second
  refine ⟨c, a, second, ?_, ?_, ran, matched.own⟩
  · rw [← reached]
    decide +kernel
  · rw [← reached]
    decide +kernel

end Example

end ForwardTable

end StoplessGC
