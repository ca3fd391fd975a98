import StoplessGC.ForwardTableSteps
import Mathlib.Data.Fintype.Card

/-!
# Insert-or-get has a single winner

Any number of `forward_table_cas_insert` and `forward_table_lookup` calls run
over one table that is neither resized nor cleared.  A call that swaps its key
into a free slot owns that slot: it is the only thread that writes the slot
afterwards, and once the address is published nobody does.  Losers wait for
the address and read the winner's pair back.
-/

namespace StoplessGC

namespace ForwardTable

open OpenAddressing Interleaving

/-- The slot a winning call has claimed. -/
def CasPc.claimed : CasPc → Option (Nat × Nat)
  | .storeLen t i => some (t, i)
  | .storeAddr t i => some (t, i)
  | .addSize t i => some (t, i)
  | .won t i => some (t, i)
  | _ => none

/-- What the winner has written into its slot so far. -/
def CasPc.written (key : Nat) (newCap : Cap) : CasPc → Slot
  | .storeLen _ _ => ⟨key, 0, 0⟩
  | .storeAddr _ _ => ⟨key, 0, newCap.length⟩
  | _ => ⟨key, newCap.address, newCap.length⟩

namespace Thread

/-- The key and the capability of a `forward_table_cas_insert` call. -/
def casCall : Thread → Option (Nat × Cap)
  | .casInsert key newCap _ => some (key, newCap)
  | _ => none

def claimed : Thread → Option (Nat × Nat)
  | .casInsert _ _ pc => pc.claimed
  | _ => none

/-- The call has swapped its key in and returned. -/
def won : Thread → Bool
  | .casInsert _ _ (.won _ _) => true
  | _ => false

/-- What a `forward_table_cas_insert` call has returned. -/
def casResult (cheri : Intrinsics) (arenaBase : Option Cap) :
    Thread → Option (Option Cap)
  | .casInsert _ newCap (.won _ _) =>
      some (ftDerive cheri arenaBase newCap.address newCap.length)
  | .casInsert _ _ (.got none) => some none
  | .casInsert _ _ (.got (some (addr, len))) =>
      some (ftDerive cheri arenaBase addr len)
  | .casInsert _ _ .full => some none
  | _ => none

end Thread

theorem CasPc.written_fromAddr (key : Nat) (newCap : Cap) (pc : CasPc) :
    (pc.written key newCap).fromAddr = key := by
  cases pc <;> rfl

theorem CasPc.written_of_published {key : Nat} {newCap : Cap} {pc : CasPc}
    (published : (pc.written key newCap).newAddr ≠ 0) :
    pc.written key newCap = ⟨key, newCap.address, newCap.length⟩ := by
  cases pc <;> first | rfl | exact absurd rfl published

theorem Thread.casInsert_of_casCall {l : Thread} {key : Nat} {newCap : Cap}
    (call : l.casCall = some (key, newCap)) :
    ∃ pc, l = .casInsert key newCap pc := by
  cases l <;> cases call
  exact ⟨_, rfl⟩

theorem Thread.casInsert_of_claimed {l : Thread} {place : Nat × Nat}
    (claimed : l.claimed = some place) :
    ∃ key newCap pc, l = .casInsert key newCap pc ∧
      pc.claimed = some place := by
  cases l with
  | casInsert key newCap pc => exact ⟨key, newCap, pc, rfl, claimed⟩
  | _ => cases claimed

/-- A table that has been initialised: what every sequence of calls leaves
behind. -/
structure Initialised (m : Memory) (t : Nat) : Prop where
  current : m.gTable = some t
  allocated : t < m.next
  shape : Shape ⟨some (m.tables t), m.gCapacity, m.gSize⟩ (m.tables t)

section Invariant

variable (m₀ : Memory) (t₀ : Nat) (keys : Finset Nat)

/-- What holds of the shared memory throughout. -/
structure CasMemory (m : Memory) : Prop where
  current : m.gTable = some t₀
  allocated : t₀ < m.next
  capacity : m.gCapacity = (m.tables t₀).size
  size : (m.tables t₀).size = (m₀.tables t₀).size
  power : ∃ e, (m.tables t₀).size = 2 ^ e
  layout : Layout (m.tables t₀).size mix (m.tables t₀).key
  stored : ∀ i k, i < (m.tables t₀).size → (m.tables t₀).key i = some k →
    k ∈ keys
  old : ∀ i, (m₀.tables t₀).key i ≠ none → m.slot t₀ i = m₀.slot t₀ i
  blank : ∀ i, i < (m.tables t₀).size → (m.tables t₀).key i = none →
    m.slot t₀ i = ⟨0, 0, 0⟩
  apart : ∀ i, i < (m.tables t₀).size → (m.slot t₀ i).newAddr ≠ 0 →
    (m.slot t₀ i).newAddr ∉ keys

/-- Slot `i` holds the key together with a published pair. -/
structure Published (m : Memory) (key i : Nat) (pair : Nat × Nat) : Prop where
  below : i < (m.tables t₀).size
  slot : m.slot t₀ i = ⟨key, pair.1, pair.2⟩
  key_ne : key ≠ 0
  addr_ne : pair.1 ≠ 0

/-- What an `ft_find` knows. -/
def FindPc.Reads (m : Memory) (key : Nat) : FindPc → Prop
  | .loadTable => True
  | .loadCapacity t => t = t₀
  | .loadKey t _ _ _ => t = t₀
  | .loadAddr t _ => t = t₀
  | .loadLen t i a => t = t₀ ∧ (m.slot t₀ i).newAddr = a
  | .done none => True
  | .done (some pair) => ∃ i, Published t₀ m key i pair

def LookupPc.Reads (m : Memory) (key : Nat) (pc : LookupPc) : Prop :=
  ∀ k find, pc.current key = some (k, find) →
    find.Probing m k ∧ find.Reads t₀ m k

/-- A lookup for a caller that has seen its key published with `pair`. -/
def LookupPc.Reading (pair : Nat × Nat) : LookupPc → Prop
  | .first find => ∀ hit, find = .done hit → hit = some pair
  | .chase _ na nl _ => (na, nl) = pair
  | .done final => final = some pair

/-- What a `forward_table_cas_insert` call knows. -/
def CasPc.Knows (m : Memory) (key : Nat) (newCap : Cap) : CasPc → Prop
  | .loadTable => True
  | .loadCapacity t => t = t₀
  | .loadKey t mask i probes =>
      t = t₀ ∧ (FindPc.loadKey t mask i probes).Probing m key
  | .exchange t mask i probes =>
      t = t₀ ∧ (FindPc.loadKey t mask i probes).Probing m key
  | .spin t i => t = t₀ ∧ i < (m.tables t₀).size ∧
      (m.slot t₀ i).fromAddr = key
  | .lookup pc => ∃ i pair, Published t₀ m key i pair ∧
      pc.Reads t₀ m key ∧ pc.Reading pair
  | .got final => ∃ i pair, Published t₀ m key i pair ∧ final = some pair
  | pc => ∃ i, pc.claimed = some (t₀, i) ∧ i < (m.tables t₀).size ∧
      (m₀.tables t₀).key i = none ∧ m.slot t₀ i = pc.written key newCap

/-- The calls the property is about. -/
def Thread.Proper : Thread → Prop
  | .lookup _ _ => True
  | .casInsert key newCap _ =>
      key ∈ keys ∧ key ≠ 0 ∧ newCap.address ≠ 0 ∧ newCap.address ∉ keys
  | _ => False

def Thread.Knows (m : Memory) : Thread → Prop
  | .lookup key pc => pc.Reads t₀ m key
  | .casInsert key newCap pc => pc.Knows m₀ t₀ m key newCap
  | _ => False

/-- What one step does to the table. -/
inductive CasEffect (m : Memory) (l : Thread) : Memory → Thread → Prop where
  | idle {l' : Thread} : l'.claimed = l.claimed → l'.won = l.won →
      CasEffect m l m l'
  | count {l' : Thread} : l'.claimed = l.claimed → l.won = false →
      l'.won = true → CasEffect m l { m with gSize := m.gSize + 1 } l'
  | claim {l' : Thread} {key probes : Nat} :
      l.claimed = none → l.won = false → l'.won = false →
      l'.claimed =
        some (t₀, probe (m.tables t₀).size (mix key) probes) →
      key ∈ keys → key ≠ 0 → probes < (m.tables t₀).size →
      Passed (m.tables t₀).size mix (m.tables t₀).key key probes →
      (m.tables t₀).key (probe (m.tables t₀).size (mix key) probes) = none →
      CasEffect m l
        (m.setSlot t₀ (probe (m.tables t₀).size (mix key) probes) ⟨key, 0, 0⟩)
        l'
  | write {l' : Thread} {i key addr len : Nat} :
      l.claimed = some (t₀, i) → l'.claimed = some (t₀, i) →
      l.won = false → l'.won = false →
      i < (m.tables t₀).size → (m₀.tables t₀).key i = none →
      (m.slot t₀ i).fromAddr = key → key ≠ 0 → (m.slot t₀ i).newAddr = 0 →
      (addr ≠ 0 → addr ∉ keys) →
      CasEffect m l (m.setSlot t₀ i ⟨key, addr, len⟩) l'

/-- What one access of `forward_table_cas_insert` comes to. -/
structure CasPc.Advances (m : Memory) (key : Nat) (newCap : Cap) (pc : CasPc)
    (result : Memory × CasPc) : Prop where
  knows : result.2.Knows m₀ t₀ result.1 key newCap
  effect : CasEffect m₀ t₀ keys m (.casInsert key newCap pc) result.1
    (.casInsert key newCap result.2)

variable {m₀ t₀ keys} {m m' : Memory} {l l' : Thread}

namespace CasEffect

theorem slot_kept (effect : CasEffect m₀ t₀ keys m l m' l') {i : Nat}
    (memory : CasMemory m₀ t₀ keys m) (published : (m.slot t₀ i).newAddr ≠ 0) :
    m'.slot t₀ i = m.slot t₀ i := by
  cases effect with
  | idle _ _ => rfl
  | count _ _ _ => rfl
  | claim _ _ _ _ _ _ below _ free =>
      apply Memory.setSlot_slot_of_ne
      right
      rintro rfl
      have positive : 0 < (m.tables t₀).size := by omega
      rw [memory.blank _ (probe_lt _ _ positive) free] at published
      exact published rfl
  | write _ _ _ _ _ _ _ _ hidden _ =>
      apply Memory.setSlot_slot_of_ne
      right
      rintro rfl
      exact published hidden

theorem keysKept (effect : CasEffect m₀ t₀ keys m l m' l') : KeysKept m m' := by
  cases effect with
  | idle _ _ => exact KeysKept.refl m
  | count _ _ _ => exact KeysKept.of_tables (Nat.le_refl _) (fun _ _ => rfl)
  | claim _ _ _ _ _ _ _ _ free =>
      exact KeysKept.setSlot (.inl (Table.key_eq_none.mp free))
  | write _ _ _ _ _ _ same _ _ _ => exact KeysKept.setSlot (.inr same.symm)

theorem size_eq (effect : CasEffect m₀ t₀ keys m l m' l')
    (memory : CasMemory m₀ t₀ keys m) :
    (m'.tables t₀).size = (m.tables t₀).size :=
  effect.keysKept.size_eq memory.allocated

theorem slot_of_claimed (effect : CasEffect m₀ t₀ keys m l m' l') {i : Nat}
    (held : (m.slot t₀ i).fromAddr ≠ 0) (other : l.claimed ≠ some (t₀, i)) :
    m'.slot t₀ i = m.slot t₀ i := by
  cases effect with
  | idle _ _ => rfl
  | count _ _ _ => rfl
  | claim _ _ _ _ _ _ _ _ free =>
      apply Memory.setSlot_slot_of_ne
      right
      rintro rfl
      exact held (Table.key_eq_none.mp free)
  | write mine _ _ _ _ _ _ _ _ _ =>
      apply Memory.setSlot_slot_of_ne
      right
      rintro rfl
      exact other mine

end CasEffect

theorem Published.mono {key i : Nat} {pair : Nat × Nat}
    (published : Published t₀ m key i pair)
    (memory : CasMemory m₀ t₀ keys m)
    (effect : CasEffect m₀ t₀ keys m l m' l') :
    Published t₀ m' key i pair where
  below := by
    rw [effect.size_eq memory]
    exact published.below
  slot := by
    rw [effect.slot_kept memory, published.slot]
    rw [published.slot]
    exact published.addr_ne
  key_ne := published.key_ne
  addr_ne := published.addr_ne

theorem FindPc.Reads.mono {key : Nat} {find : FindPc}
    (reads : find.Probing m key ∧ find.Reads t₀ m key)
    (memory : CasMemory m₀ t₀ keys m)
    (effect : CasEffect m₀ t₀ keys m l m' l') :
    find.Probing m' key ∧ find.Reads t₀ m' key := by
  refine ⟨reads.1.mono effect.keysKept, ?_⟩
  cases find with
  | loadLen t i a =>
      obtain ⟨⟨_, _, _, nonzero⟩, here, addr⟩ := reads
      refine ⟨here, ?_⟩
      rw [effect.slot_kept memory (by rwa [addr]), addr]
  | done hit =>
      cases hit with
      | none => trivial
      | some pair =>
          obtain ⟨_, i, published⟩ := reads
          exact ⟨i, published.mono memory effect⟩
  | _ => exact reads.2

theorem LookupPc.Reads.mono {key : Nat} {pc : LookupPc}
    (reads : pc.Reads t₀ m key) (memory : CasMemory m₀ t₀ keys m)
    (effect : CasEffect m₀ t₀ keys m l m' l') : pc.Reads t₀ m' key :=
  fun k find current => FindPc.Reads.mono (reads k find current) memory effect

theorem CasPc.Knows.mono {key : Nat} {newCap : Cap} {pc : CasPc}
    (knows : pc.Knows m₀ t₀ m key newCap) (nonzero : key ≠ 0)
    (memory : CasMemory m₀ t₀ keys m)
    (effect : CasEffect m₀ t₀ keys m l m' l')
    (other : ∀ i, pc.claimed = some (t₀, i) → l.claimed ≠ some (t₀, i)) :
    pc.Knows m₀ t₀ m' key newCap := by
  have owned : (∃ i, pc.claimed = some (t₀, i) ∧ i < (m.tables t₀).size ∧
        (m₀.tables t₀).key i = none ∧ m.slot t₀ i = pc.written key newCap) →
      ∃ i, pc.claimed = some (t₀, i) ∧ i < (m'.tables t₀).size ∧
        (m₀.tables t₀).key i = none ∧ m'.slot t₀ i = pc.written key newCap := by
    rintro ⟨i, mine, below, fresh, content⟩
    refine ⟨i, mine, by rwa [effect.size_eq memory], fresh, ?_⟩
    rw [effect.slot_of_claimed ?_ (other i mine), content]
    rw [content]
    cases pc <;> exact nonzero
  cases pc with
  | loadTable => trivial
  | loadCapacity t => exact knows
  | loadKey t mask i probes => exact ⟨knows.1, knows.2.mono effect.keysKept⟩
  | exchange t mask i probes => exact ⟨knows.1, knows.2.mono effect.keysKept⟩
  | spin t i =>
      obtain ⟨here, below, mine⟩ := knows
      refine ⟨here, by rwa [effect.size_eq memory], ?_⟩
      have kept := effect.keysKept.key_kept memory.allocated
        (Table.key_eq_some.mpr ⟨mine, nonzero⟩)
      exact (Table.key_eq_some.mp kept).1
  | lookup pc =>
      obtain ⟨i, pair, published, reads, reading⟩ := knows
      exact ⟨i, pair, published.mono memory effect, reads.mono memory effect,
        reading⟩
  | got final =>
      obtain ⟨i, pair, published, final⟩ := knows
      exact ⟨i, pair, published.mono memory effect, final⟩
  | _ => exact owned knows

theorem CasPc.Knows.slot_of_claimed {key i : Nat} {newCap : Cap} {pc : CasPc}
    (knows : pc.Knows m₀ t₀ m key newCap) (claimed : pc.claimed = some (t₀, i)) :
    m.slot t₀ i = pc.written key newCap := by
  cases pc <;> cases claimed <;> obtain ⟨_, ⟨⟩, _, _, content⟩ := knows <;>
    exact content

theorem CasMemory.fresh (memory : CasMemory m₀ t₀ keys m) {i : Nat}
    (free : (m.tables t₀).key i = none) : (m₀.tables t₀).key i = none := by
  by_contra held
  have same := memory.old i held
  rw [Table.key_eq_none] at free held
  exact held ((congrArg Slot.fromAddr same).symm.trans free)

/-- A write for one of the keys, in a slot that was free at the start, keeps the
invariant when it keeps the layout and its pair leads out of the keys. -/
theorem CasMemory.setSlot (memory : CasMemory m₀ t₀ keys m) {i : Nat}
    {content : Slot} (nonzero : content.fromAddr ≠ 0)
    (member : content.fromAddr ∈ keys) (fresh : (m₀.tables t₀).key i = none)
    (layout : Layout (m.tables t₀).size mix
      (Function.update (m.tables t₀).key i (some content.fromAddr)))
    (distinct : content.newAddr ≠ 0 → content.newAddr ∉ keys) :
    CasMemory m₀ t₀ keys (m.setSlot t₀ i content) where
  current := memory.current
  allocated := memory.allocated
  capacity := by simpa using memory.capacity
  size := by simpa using memory.size
  power := by simpa using memory.power
  layout := by
    rw [Memory.setSlot_tables_self, Table.setSlot_key _ i content nonzero]
    exact layout
  stored := by
    intro j k jBelow stored
    rw [Memory.setSlot_tables_self, Table.setSlot_key _ i content nonzero]
      at stored
    by_cases same : j = i
    · subst same
      rw [Function.update_self] at stored
      cases stored
      exact member
    · rw [Function.update_of_ne same] at stored
      exact memory.stored j k (by simpa using jBelow) stored
  old := by
    intro j held
    rw [Memory.setSlot_slot_of_ne _ _ _ _ (.inr ?_)]
    · exact memory.old j held
    · rintro rfl
      exact held fresh
  blank := by
    intro j jBelow empty
    rw [Memory.slot, Memory.setSlot_tables_self] at *
    exact Table.blank_setSlot memory.blank nonzero j
      (by simpa using jBelow) empty
  apart := by
    intro j jBelow published
    by_cases same : j = i
    · subst same
      rw [Memory.setSlot_slot_self] at published ⊢
      exact distinct published
    · rw [Memory.setSlot_slot_of_ne _ _ _ _ (.inr same)] at published ⊢
      exact memory.apart j (by simpa using jBelow) published

theorem CasEffect.memory (effect : CasEffect m₀ t₀ keys m l m' l')
    (memory : CasMemory m₀ t₀ keys m) : CasMemory m₀ t₀ keys m' := by
  cases effect with
  | idle _ _ => exact memory
  | count _ _ _ => exact { memory with }
  | claim _ _ _ _ member nonzero below passed free =>
      exact memory.setSlot nonzero member (memory.fresh free)
        (memory.layout.claim below passed free) (fun hidden => absurd rfl hidden)
  | @write _ i key addr len _ _ _ _ below fresh mine nonzero hidden distinct =>
      have stored : (m.tables t₀).key i = some key :=
        Table.key_eq_some.mpr ⟨mine, nonzero⟩
      refine memory.setSlot nonzero (memory.stored i key below stored) fresh ?_
        distinct
      rw [← stored, Function.update_eq_self]
      exact memory.layout

theorem CasMemory.find_step (memory : CasMemory m₀ t₀ keys m) {key : Nat}
    {find : FindPc} (reads : find.Probing m key ∧ find.Reads t₀ m key) :
    ((findStep m key find).Probing m key ∧
      (findStep m key find).Reads t₀ m key) ∧
      ∀ hit, findStep m key find = .done hit →
        FindOutcome m key find hit := by
  obtain ⟨probing, here⟩ := reads
  have stepped := probing.step
    (fun t current => by
      rw [memory.current] at current
      cases current
      exact memory.allocated)
    (fun t loading => by
      subst loading
      subst here
      obtain ⟨e, power⟩ := memory.power
      exact ⟨memory.capacity, e, memory.capacity.trans power⟩)
  refine ⟨⟨stepped.1, ?_⟩, stepped.2⟩
  cases find with
  | loadTable =>
      simp only [findStep, memory.current]
      rfl
  | loadCapacity t => exact here
  | loadKey t mask i probes =>
      simp only [findStep]
      repeat' split
      all_goals first | exact here | trivial
  | loadAddr t i =>
      simp only [findStep]
      split
      · trivial
      · exact ⟨here, by rw [← here]⟩
  | loadLen t i a =>
      obtain ⟨_, below, stored, nonzero⟩ := probing
      obtain ⟨rfl, addr⟩ := here
      obtain ⟨mine, keyNe⟩ := Table.key_eq_some.mp stored
      refine ⟨i, below, ?_, keyNe, nonzero⟩
      change m.slot t i = ⟨key, a, (m.slot t i).newLen⟩
      rw [← addr, ← mine]
      rfl
  | done hit => exact here

/-- Once the key is published, `ft_find` cannot miss it. -/
theorem Published.find_hit (memory : CasMemory m₀ t₀ keys m) {key i : Nat}
    {pair : Nat × Nat} (published : Published t₀ m key i pair) {find : FindPc}
    (reads : find.Probing m key ∧ find.Reads t₀ m key)
    (reading : ∀ hit, find = .done hit → hit = some pair) {hit : Option (Nat × Nat)}
    (done : findStep m key find = .done hit) : hit = some pair := by
  have stored : (m.tables t₀).key i = some key :=
    Table.key_eq_some.mpr ⟨by
      change (m.slot t₀ i).fromAddr = key
      rw [published.slot], published.key_ne⟩
  have outcome := (memory.find_step reads).2 hit done
  obtain ⟨probing, here⟩ := reads
  cases outcome with
  | noTable missing =>
      rw [memory.current] at missing
      cases missing
  | @free t mask j probes free =>
      subst here
      have passed := probing.2.2.2.2.2
      exact absurd stored
        (memory.layout.absent_of_stop passed free i published.below)
  | @exhausted t mask j probes passed =>
      subst here
      exact absurd stored
        (memory.layout.absent_of_passed_all passed i published.below)
  | @unpublished t j hidden =>
      subst here
      obtain ⟨_, below, mine⟩ := probing
      have same := memory.layout.unique below published.below mine stored
      subst same
      rw [published.slot] at hidden
      exact absurd hidden published.addr_ne
  | @hit t j a =>
      obtain ⟨rfl, addr⟩ := here
      obtain ⟨_, below, mine, _⟩ := probing
      have same := memory.layout.unique below published.below mine stored
      subst same
      rw [← addr, published.slot]
  | already => exact reading hit rfl

theorem LookupPc.Reads.step (memory : CasMemory m₀ t₀ keys m) {key : Nat}
    {pc : LookupPc} (reads : pc.Reads t₀ m key) :
    (lookupStep m key pc).Reads t₀ m key := by
  intro k next running
  rcases lookupStep_current m key pc running with rfl | ⟨before, current, rfl⟩
  · exact ⟨trivial, trivial⟩
  · exact (memory.find_step (reads k before current)).1

/-- A lookup for a published key returns the published pair: the first
`ft_find` hits, and the destination is nobody's key. -/
theorem LookupPc.Reading.step (memory : CasMemory m₀ t₀ keys m) {key i : Nat}
    {pair : Nat × Nat} (published : Published t₀ m key i pair) {pc : LookupPc}
    (reads : pc.Reads t₀ m key) (reading : pc.Reading pair) :
    (lookupStep m key pc).Reading pair := by
  cases pc with
  | first find =>
      rcases find.done_or_running with ⟨hit, rfl⟩ | searching
      · cases reading hit rfl
        rfl
      · rw [lookupStep_first m key searching]
        intro hit done
        exact published.find_hit memory (reads key find rfl) reading done
  | chase depth na nl find =>
      rcases find.done_or_running with ⟨hit, rfl⟩ | searching
      · cases hit with
        | none => exact congrArg some reading
        | some beyond =>
            obtain ⟨_, j, other⟩ := reads na (.done (some beyond)) rfl
            have member : na ∈ keys := by
              apply memory.stored j na other.below
              refine Table.key_eq_some.mpr ⟨?_, other.key_ne⟩
              change (m.slot t₀ j).fromAddr = na
              rw [other.slot]
            have outside := memory.apart i published.below
              (by rw [published.slot]; exact published.addr_ne)
            rw [published.slot, ← reading] at outside
            exact absurd member outside
      · rw [lookupStep_chase m key depth na nl searching]
        exact reading
  | done final => exact reading

/-- The end of a loop body: there is a next probe, because the table cannot be
full of other keys. -/
theorem CasMemory.advance (memory : CasMemory m₀ t₀ keys m) {key : Nat}
    (newCap : Cap) (member : key ∈ keys)
    (room : keys.card ≤ (m.tables t₀).size) {mask i probes : Nat}
    (passed : Passed (m.tables t₀).size mix (m.tables t₀).key key (probes + 1))
    (more : probes + 1 ≤ mask ∧ (FindPc.loadKey t₀ mask ((i + 1) &&& mask)
        (probes + 1)).Probing m key ∨
      ¬ probes + 1 ≤ mask ∧ probes + 1 = (m.tables t₀).size) :
    (CasPc.advance t₀ mask i probes).Knows m₀ t₀ m key newCap ∧
      (CasPc.advance t₀ mask i probes).claimed = none ∧
      (Thread.casInsert key newCap (CasPc.advance t₀ mask i probes)).won =
        false := by
  rcases more with ⟨next, further⟩ | ⟨_, whole⟩
  · rw [CasPc.advance, if_pos next]
    exact ⟨⟨rfl, further⟩, rfl, rfl⟩
  · rw [whole] at passed
    exact absurd passed
      (memory.layout.not_passed_all member room memory.stored)

section Accesses

variable {key i mask probes : Nat} {newCap : Cap} (granted : Bool)

theorem CasMemory.loadKey_step (memory : CasMemory m₀ t₀ keys m)
    (member : key ∈ keys) (nonzero : key ≠ 0)
    (room : keys.card ≤ (m.tables t₀).size)
    (probing : (FindPc.loadKey t₀ mask i probes).Probing m key) :
    (CasPc.loadKey t₀ mask i probes).Advances m₀ t₀ keys m key newCap
      (casInsertStep granted key newCap m (.loadKey t₀ mask i probes)) := by
  simp only [casInsertStep]
  rcases probing.loadKey_cases with ⟨free, _⟩ | ⟨_, mine, below, _⟩ |
    ⟨taken, other, passed, more⟩
  · rw [if_neg (by rw [free]; exact nonzero.symm), if_pos free]
    exact ⟨⟨rfl, probing⟩, .idle rfl rfl⟩
  · rw [if_pos mine]
    exact ⟨⟨rfl, below, mine⟩, .idle rfl rfl⟩
  · rw [if_neg other, if_neg taken]
    obtain ⟨next, unclaimed, notWon⟩ :=
      memory.advance newCap member room passed more
    exact ⟨next, .idle unclaimed notWon⟩

/-- The exchange claims a slot that is still free, and otherwise goes on as
the load would. -/
theorem CasMemory.exchange_step (memory : CasMemory m₀ t₀ keys m)
    (member : key ∈ keys) (nonzero : key ≠ 0)
    (room : keys.card ≤ (m.tables t₀).size)
    (probing : (FindPc.loadKey t₀ mask i probes).Probing m key) :
    (CasPc.exchange t₀ mask i probes).Advances m₀ t₀ keys m key newCap
      (casInsertStep granted key newCap m (.exchange t₀ mask i probes)) := by
  obtain ⟨_, _, _, below, here, passed⟩ := id probing
  simp only [casInsertStep]
  rcases probing.loadKey_cases with ⟨free, empty⟩ | ⟨taken, mine, inside, _⟩ |
    ⟨taken, other, passed, more⟩
  · rw [if_pos free]
    have positive : 0 < (m.tables t₀).size := by omega
    have inside : i < (m.tables t₀).size := by
      rw [here]
      exact probe_lt _ _ positive
    have swapped : m.storeKey t₀ i key = m.setSlot t₀ i ⟨key, 0, 0⟩ := by
      rw [Memory.storeKey, memory.blank i inside empty]
    rw [swapped]
    refine ⟨⟨i, rfl, by simpa using inside, memory.fresh empty,
      Memory.setSlot_slot_self _ _ _ _⟩, ?_⟩
    subst here
    exact .claim rfl rfl rfl rfl member nonzero below passed empty
  · rw [if_neg taken, if_pos mine]
    exact ⟨⟨rfl, inside, mine⟩, .idle rfl rfl⟩
  · rw [if_neg taken, if_neg other]
    obtain ⟨next, unclaimed, notWon⟩ :=
      memory.advance newCap member room passed more
    exact ⟨next, .idle unclaimed notWon⟩

theorem CasPc.Knows.storeLen_step (nonzero : key ≠ 0) {t : Nat}
    (knows : (CasPc.storeLen t i).Knows m₀ t₀ m key newCap) :
    (CasPc.storeLen t i).Advances m₀ t₀ keys m key newCap
      (casInsertStep granted key newCap m (.storeLen t i)) := by
  obtain ⟨_, owned, below, fresh, content⟩ := knows
  cases owned
  simp only [CasPc.written] at content
  simp only [casInsertStep, Memory.storeLen, content]
  refine ⟨⟨i, rfl, by simpa using below, fresh,
    Memory.setSlot_slot_self _ _ _ _⟩, ?_⟩
  exact .write rfl rfl rfl rfl below fresh (by rw [content]) nonzero
    (by rw [content]) (fun impossible => absurd rfl impossible)

theorem CasPc.Knows.storeAddr_step (nonzero : key ≠ 0)
    (outside : newCap.address ∉ keys) {t : Nat}
    (knows : (CasPc.storeAddr t i).Knows m₀ t₀ m key newCap) :
    (CasPc.storeAddr t i).Advances m₀ t₀ keys m key newCap
      (casInsertStep granted key newCap m (.storeAddr t i)) := by
  obtain ⟨_, owned, below, fresh, content⟩ := knows
  cases owned
  simp only [CasPc.written] at content
  simp only [casInsertStep, Memory.storeAddr, content]
  refine ⟨⟨i, rfl, by simpa using below, fresh,
    Memory.setSlot_slot_self _ _ _ _⟩, ?_⟩
  exact .write rfl rfl rfl rfl below fresh (by rw [content]) nonzero
    (by rw [content]) (fun _ => outside)

theorem CasPc.Knows.spin_step (nonzero : key ≠ 0) {t : Nat}
    (knows : (CasPc.spin t i).Knows m₀ t₀ m key newCap) :
    (CasPc.spin t i).Advances m₀ t₀ keys m key newCap
      (casInsertStep granted key newCap m (.spin t i)) := by
  obtain ⟨rfl, below, mine⟩ := knows
  simp only [casInsertStep]
  by_cases hidden : (m.slot t i).newAddr = 0
  · rw [if_pos hidden]
    exact ⟨⟨rfl, below, mine⟩, .idle rfl rfl⟩
  · rw [if_neg hidden]
    refine ⟨⟨i, ((m.slot t i).newAddr, (m.slot t i).newLen),
      ⟨below, ?_, nonzero, hidden⟩, ?_, ?_⟩, .idle rfl rfl⟩
    · rw [← mine]
    · rintro k find ⟨⟩
      exact ⟨trivial, trivial⟩
    · rintro hit ⟨⟩

theorem CasMemory.lookup_step (memory : CasMemory m₀ t₀ keys m) {pc : LookupPc}
    (knows : (CasPc.lookup pc).Knows m₀ t₀ m key newCap) :
    (CasPc.lookup pc).Advances m₀ t₀ keys m key newCap
      (casInsertStep granted key newCap m (.lookup pc)) := by
  obtain ⟨i, pair, published, reads, reading⟩ := knows
  have next : (lookupStep m key pc).Reads t₀ m key ∧
      (lookupStep m key pc).Reading pair :=
    ⟨reads.step memory, reading.step memory published reads⟩
  cases pc with
  | done final => exact ⟨⟨i, pair, published, reading⟩, .idle rfl rfl⟩
  | first find => exact ⟨⟨i, pair, published, next⟩, .idle rfl rfl⟩
  | chase depth na nl find =>
      exact ⟨⟨i, pair, published, next⟩, .idle rfl rfl⟩

theorem CasPc.Knows.step (memory : CasMemory m₀ t₀ keys m) {pc : CasPc}
    (knows : pc.Knows m₀ t₀ m key newCap)
    (proper : (Thread.casInsert key newCap pc).Proper keys)
    (room : keys.card ≤ (m.tables t₀).size) :
    pc.Advances m₀ t₀ keys m key newCap
      (casInsertStep granted key newCap m pc) := by
  obtain ⟨member, nonzero, _, outside⟩ := proper
  cases pc with
  | loadTable =>
      simp only [casInsertStep, memory.current]
      exact ⟨rfl, .idle rfl rfl⟩
  | loadCapacity t =>
      have allocated := memory.allocated
      obtain rfl : t = t₀ := knows
      have loading : (FindPc.loadCapacity t).Probing m key ∧
          (FindPc.loadCapacity t).Reads t m key := ⟨allocated, rfl⟩
      exact ⟨⟨rfl, (memory.find_step loading).1.1⟩, .idle rfl rfl⟩
  | loadKey t mask i probes =>
      obtain ⟨rfl, probing⟩ := knows
      exact memory.loadKey_step granted member nonzero room probing
  | exchange t mask i probes =>
      obtain ⟨rfl, probing⟩ := knows
      exact memory.exchange_step granted member nonzero room probing
  | storeLen t i => exact knows.storeLen_step granted nonzero
  | storeAddr t i => exact knows.storeAddr_step granted nonzero outside
  | addSize t i => exact ⟨knows, .count rfl rfl rfl⟩
  | spin t i => exact knows.spin_step granted nonzero
  | lookup pc => exact memory.lookup_step granted knows
  | won t i => exact ⟨knows, .idle rfl rfl⟩
  | got final => exact ⟨knows, .idle rfl rfl⟩
  | _ =>
      -- the initialisation and the failures: the table is there and has room
      obtain ⟨_, impossible, _⟩ := knows
      cases impossible

end Accesses

theorem Thread.Knows.step (memory : CasMemory m₀ t₀ keys m)
    (knows : l.Knows m₀ t₀ m) (proper : l.Proper keys)
    (room : keys.card ≤ (m.tables t₀).size) (taken : ThreadStep m l m' l') :
    l'.Knows m₀ t₀ m' ∧ l'.Proper keys ∧ l'.casCall = l.casCall ∧
      CasEffect m₀ t₀ keys m l m' l' := by
  cases taken with
  | lookup => exact ⟨LookupPc.Reads.step memory knows, trivial, rfl, .idle rfl rfl⟩
  | casInsert granted =>
      obtain ⟨next, effect⟩ := CasPc.Knows.step granted memory knows proper room
      exact ⟨next, proper, rfl, effect⟩
  | insert _ => exact proper.elim
  | nextInsert => exact proper.elim
  | grow _ => exact proper.elim

theorem Thread.Knows.mono {other : Thread} (knows : other.Knows m₀ t₀ m)
    (proper : other.Proper keys) (memory : CasMemory m₀ t₀ keys m)
    (effect : CasEffect m₀ t₀ keys m l m' l')
    (distinct : ∀ i, other.claimed = some (t₀, i) → l.claimed ≠ some (t₀, i)) :
    other.Knows m₀ t₀ m' := by
  cases other with
  | lookup key pc => exact LookupPc.Reads.mono knows memory effect
  | casInsert key newCap pc =>
      exact CasPc.Knows.mono knows proper.2.1 memory effect distinct
  | inserts before key newCap pc after => exact proper.elim
  | grow pc => exact proper.elim

end Invariant

section Runs

variable {ι : Type*} [Fintype ι]

/-- The calls that have swapped their key in and returned. -/
def winners (c : System ι) : Finset ι :=
  Finset.univ.filter (fun j => (c.locals j).won = true)

/-- Call `j` has swapped `key` into a free slot, for `newCap`. -/
def Wins (c : System ι) (j : ι) (key : Nat) (newCap : Cap) : Prop :=
  (c.locals j).casCall = some (key, newCap) ∧ (c.locals j).claimed ≠ none

/-- The calls start on an initialised table that has room for all keys, and no
destination address is a key. -/
structure CasSetting (start : System ι) (t₀ : Nat) (keys : Finset Nat) :
    Prop where
  ready : Initialised start.shared t₀
  stored : ∀ i k, i < (start.shared.tables t₀).size →
    (start.shared.tables t₀).key i = some k → k ∈ keys
  room : keys.card ≤ start.shared.gCapacity
  apart : ∀ i, i < (start.shared.tables t₀).size →
    (start.shared.slot t₀ i).newAddr ≠ 0 →
    (start.shared.slot t₀ i).newAddr ∉ keys
  starting : ∀ j, (∃ key, start.locals j = .lookup key (.first .loadTable)) ∨
    ∃ key newCap, start.locals j = .casInsert key newCap .loadTable ∧
      key ∈ keys ∧ key ≠ 0 ∧ newCap.address ≠ 0 ∧ newCap.address ∉ keys

/-- The invariant of all configurations. -/
structure SingleWinner (start : System ι) (t₀ : Nat) (keys : Finset Nat)
    (c : System ι) : Prop where
  memory : CasMemory start.shared t₀ keys c.shared
  knows : ∀ j, (c.locals j).Knows start.shared t₀ c.shared
  proper : ∀ j, (c.locals j).Proper keys
  calls : ∀ j, (c.locals j).casCall = (start.locals j).casCall
  owner : ∀ i, i < (c.shared.tables t₀).size →
    (start.shared.tables t₀).key i = none →
    (c.shared.tables t₀).key i ≠ none →
    ∃ j, (c.locals j).claimed = some (t₀, i)
  single : ∀ i j j', (c.locals j).claimed = some (t₀, i) →
    (c.locals j').claimed = some (t₀, i) → j = j'
  count : c.shared.gSize = start.shared.gSize + (winners c).card

variable {start c : System ι} {t₀ : Nat} {keys : Finset Nat}

theorem CasSetting.initially (setting : CasSetting start t₀ keys) :
    SingleWinner start t₀ keys start := by
  have shape := setting.ready.shape
  have unclaimed : ∀ j, (start.locals j).claimed = none ∧
      (start.locals j).won = false := by
    intro j
    rcases setting.starting j with ⟨key, here⟩ | ⟨key, newCap, here, _⟩ <;>
      rw [here] <;> exact ⟨rfl, rfl⟩
  refine ⟨?_, ?_, ?_, fun _ => rfl, ?_, ?_, ?_⟩
  · refine ⟨setting.ready.current, setting.ready.allocated,
      shape.size_eq.symm, rfl, ?_, shape.layout, setting.stored,
      fun _ _ => rfl, shape.blank, setting.apart⟩
    obtain ⟨e, power⟩ := shape.capacity_pow
    exact ⟨e, shape.size_eq.trans power⟩
  · intro j
    rcases setting.starting j with ⟨key, here⟩ | ⟨key, newCap, here, _⟩ <;>
      rw [here]
    · rintro k find ⟨⟩
      exact ⟨trivial, trivial⟩
    · trivial
  · intro j
    rcases setting.starting j with ⟨key, here⟩ | ⟨key, newCap, here, proper⟩ <;>
      rw [here]
    · trivial
    · exact proper
  · intro i _ free held
    exact absurd free held
  · intro i j _ claimed
    rw [(unclaimed j).1] at claimed
    cases claimed
  · have nobody : winners start = ∅ := by
      apply Finset.filter_false_of_mem
      intro j _
      simp [(unclaimed j).2]
    rw [nobody, Finset.card_empty, Nat.add_zero]

variable [DecidableEq ι]

theorem winners_advance (j : ι) (m' : Memory) (l' : Thread) :
    (l'.won = (c.locals j).won →
      (winners (c.advance j m' l')).card = (winners c).card) ∧
    ((c.locals j).won = false → l'.won = true →
      (winners (c.advance j m' l')).card = (winners c).card + 1) := by
  have elsewhere : ∀ k, k ≠ j →
      (k ∈ winners (c.advance j m' l') ↔ k ∈ winners c) := by
    intro k other
    simp [winners, Config.advance_locals_of_ne _ _ _ other]
  have here : j ∈ winners (c.advance j m' l') ↔ l'.won = true := by
    simp [winners]
  have before : j ∈ winners c ↔ (c.locals j).won = true := by
    simp [winners]
  constructor
  · intro same
    congr 1
    ext k
    by_cases mine : k = j
    · subst mine
      rw [here, before, same]
    · exact elsewhere k mine
  · intro lost won
    have grown : winners (c.advance j m' l') = insert j (winners c) := by
      ext k
      rw [Finset.mem_insert]
      by_cases mine : k = j
      · subst mine
        simp [here, won]
      · rw [elsewhere k mine]
        simp [mine]
    rw [grown, Finset.card_insert_of_notMem]
    rw [before, lost]
    decide

section Advance

variable {j : ι} {m' : Memory} {l' : Thread}

/-- Claimed slots keep an owner: a claim adds one, and every other step keeps
them all. -/
theorem SingleWinner.owner_advance (winner : SingleWinner start t₀ keys c)
    (effect : CasEffect start.shared t₀ keys c.shared (c.locals j) m' l')
    {i : Nat} (below : i < (c.shared.tables t₀).size)
    (fresh : (start.shared.tables t₀).key i = none)
    (held : (m'.tables t₀).key i ≠ none) :
    ∃ k, ((c.advance j m' l').locals k).claimed = some (t₀, i) := by
  have kept : ∀ k, (c.locals k).claimed = some (t₀, i) →
      ∃ k, ((c.advance j m' l').locals k).claimed = some (t₀, i) := by
    intro k claimed
    by_cases mine : k = j
    · subst mine
      refine ⟨k, ?_⟩
      rw [Config.advance_locals_self]
      cases effect with
      | idle same _ => rw [same, claimed]
      | count same _ _ => rw [same, claimed]
      | claim nothing =>
          rw [nothing] at claimed
          cases claimed
      | write before after =>
          rw [after, ← before, claimed]
    · exact ⟨k, by rw [Config.advance_locals_of_ne _ _ _ mine, claimed]⟩
  by_cases before : (c.shared.tables t₀).key i = none
  · refine ⟨j, ?_⟩
    rw [Config.advance_locals_self]
    have free := Table.key_eq_none.mp before
    have appeared : ¬ (m'.slot t₀ i).fromAddr = 0 :=
      fun zero => held (Table.key_eq_none.mpr zero)
    cases effect with
    | idle _ _ => exact absurd free appeared
    | count _ _ _ => exact absurd free appeared
    | claim _ _ _ claimed =>
        rw [claimed]
        by_contra elsewhere
        rw [Memory.setSlot_slot_of_ne _ _ _ _
          (.inr fun same => elsewhere (by rw [same]))] at appeared
        exact appeared free
    | write _ after =>
        rw [after]
        by_contra elsewhere
        rw [Memory.setSlot_slot_of_ne _ _ _ _
          (.inr fun same => elsewhere (by rw [same]))] at appeared
        exact appeared free
  · obtain ⟨k, claimed⟩ := winner.owner i below fresh before
    exact kept k claimed

omit [DecidableEq ι] in
theorem SingleWinner.claims_free (winner : SingleWinner start t₀ keys c)
    (effect : CasEffect start.shared t₀ keys c.shared (c.locals j) m' l')
    {i : Nat} {k : ι} (other : k ≠ j) (ours : l'.claimed = some (t₀, i))
    (theirs : (c.locals k).claimed = some (t₀, i)) : False := by
  have notBefore : (c.locals j).claimed ≠ some (t₀, i) :=
    fun before => other (winner.single i k j theirs before)
  cases effect with
  | idle same _ => exact notBefore (same ▸ ours)
  | count same _ _ => exact notBefore (same ▸ ours)
  | claim _ _ _ claimed _ _ _ _ free =>
      rw [claimed] at ours
      cases ours
      obtain ⟨key, newCap, pc, here, mine⟩ := Thread.casInsert_of_claimed theirs
      have knows := winner.knows k
      have proper := winner.proper k
      rw [here] at knows proper
      have content := CasPc.Knows.slot_of_claimed knows mine
      have zero := Table.key_eq_none.mp free
      change (c.shared.slot t₀ _).fromAddr = 0 at zero
      rw [content, CasPc.written_fromAddr] at zero
      exact proper.2.1 zero
  | write before after => exact notBefore (before.trans (after.symm.trans ours))

theorem SingleWinner.single_advance (winner : SingleWinner start t₀ keys c)
    (effect : CasEffect start.shared t₀ keys c.shared (c.locals j) m' l')
    {i : Nat} {k k' : ι}
    (claimed : ((c.advance j m' l').locals k).claimed = some (t₀, i))
    (claimed' : ((c.advance j m' l').locals k').claimed = some (t₀, i)) :
    k = k' := by
  by_cases mine : k = j
  · subst mine
    rw [Config.advance_locals_self] at claimed
    by_contra different
    have other : k' ≠ k := fun same => different same.symm
    rw [Config.advance_locals_of_ne _ _ _ other] at claimed'
    exact winner.claims_free effect other claimed claimed'
  · rw [Config.advance_locals_of_ne _ _ _ mine] at claimed
    by_cases mine' : k' = j
    · subst mine'
      rw [Config.advance_locals_self] at claimed'
      exact (winner.claims_free effect mine claimed' claimed).elim
    · rw [Config.advance_locals_of_ne _ _ _ mine'] at claimed'
      exact winner.single i k k' claimed claimed'

theorem SingleWinner.count_advance (winner : SingleWinner start t₀ keys c)
    (effect : CasEffect start.shared t₀ keys c.shared (c.locals j) m' l') :
    m'.gSize =
      start.shared.gSize + (winners (c.advance j m' l')).card := by
  have counts := winners_advance (c := c) j m' l'
  have before := winner.count
  cases effect with
  | idle _ same => rw [counts.1 same, before]
  | count _ lost won =>
      rw [counts.2 lost won]
      change c.shared.gSize + 1 = _
      omega
  | claim _ lost notWon =>
      rw [counts.1 (notWon.trans lost.symm)]
      exact before
  | write _ _ lost notWon =>
      rw [counts.1 (notWon.trans lost.symm)]
      exact before

theorem SingleWinner.step (winner : SingleWinner start t₀ keys c)
    (room : keys.card ≤ (start.shared.tables t₀).size)
    (taken : ThreadStep c.shared (c.locals j) m' l') :
    SingleWinner start t₀ keys (c.advance j m' l') := by
  obtain ⟨knowsNext, properNext, sameCall, effect⟩ :=
    Thread.Knows.step winner.memory (winner.knows j) (winner.proper j)
      (by rwa [winner.memory.size]) taken
  have sizes := effect.size_eq winner.memory
  refine ⟨effect.memory winner.memory, ?_, ?_, ?_, ?_, ?_, ?_⟩
  · refine c.forall_advance (P := fun _ l => l.Knows start.shared t₀ m')
      knowsNext ?_
    intro k mine
    refine Thread.Knows.mono (winner.knows k) (winner.proper k)
      winner.memory effect ?_
    intro i theirs ours
    exact mine (winner.single i k j theirs ours)
  · exact c.forall_advance (P := fun _ l => l.Proper keys) properNext
      fun k _ => winner.proper k
  · exact c.forall_advance
      (P := fun k l => l.casCall = (start.locals k).casCall)
      (sameCall.trans (winner.calls j)) fun k _ => winner.calls k
  · intro i below fresh held
    exact winner.owner_advance effect (by rwa [← sizes]) fresh held
  · intro i k k' claimed claimed'
    exact winner.single_advance effect claimed claimed'
  · rw [Config.advance_shared]
    exact winner.count_advance effect

end Advance

theorem singleWinner_of_reachable (setting : CasSetting start t₀ keys)
    (reachable : SystemReachable start c) : SingleWinner start t₀ keys c := by
  have room : keys.card ≤ (start.shared.tables t₀).size :=
    setting.room.trans (Nat.le_of_eq setting.ready.shape.size_eq.symm)
  apply reachable.invariant (SingleWinner start t₀ keys)
  · exact setting.initially
  · intro c j m' l' winner taken
    exact winner.step room taken

omit [DecidableEq ι] in
theorem SingleWinner.slot_of_wins (winner : SingleWinner start t₀ keys c) {j : ι}
    {key : Nat} {newCap : Cap} (wins : Wins c j key newCap) :
    ∃ i, (c.locals j).claimed = some (t₀, i) ∧
      i < (c.shared.tables t₀).size ∧
      (start.shared.tables t₀).key i = none ∧
      (c.shared.tables t₀).key i = some key := by
  obtain ⟨call, claimed⟩ := wins
  have knows := winner.knows j
  have proper := winner.proper j
  obtain ⟨pc, here⟩ := Thread.casInsert_of_casCall call
  rw [here] at claimed knows proper ⊢
  have owned : ∃ i, pc.claimed = some (t₀, i) ∧
      i < (c.shared.tables t₀).size ∧
      (start.shared.tables t₀).key i = none ∧
      c.shared.slot t₀ i = pc.written key newCap := by
    cases pc <;> first | exact knows | exact absurd rfl claimed
  obtain ⟨i, mine, below, fresh, content⟩ := owned
  refine ⟨i, mine, below, fresh, Table.key_eq_some.mpr ⟨?_, proper.2.1⟩⟩
  change (c.shared.slot t₀ i).fromAddr = key
  rw [content, CasPc.written_fromAddr]

omit [DecidableEq ι] in
/-- A published pair was there at the start, or the one winner for its key
wrote it. -/
theorem SingleWinner.origin (winner : SingleWinner start t₀ keys c)
    {key i : Nat} {pair : Nat × Nat}
    (published : Published t₀ c.shared key i pair) :
    start.shared.slot t₀ i = ⟨key, pair.1, pair.2⟩ ∨
      (start.shared.tables t₀).key i = none ∧
        ∃ j newCap, Wins c j key newCap ∧
          pair = (newCap.address, newCap.length) := by
  by_cases fresh : (start.shared.tables t₀).key i = none
  · right
    refine ⟨fresh, ?_⟩
    have held : (c.shared.tables t₀).key i ≠ none := by
      rw [Ne, Table.key_eq_none]
      change ¬ (c.shared.slot t₀ i).fromAddr = 0
      rw [published.slot]
      exact published.key_ne
    obtain ⟨j, claimed⟩ := winner.owner i published.below fresh held
    have knows := winner.knows j
    obtain ⟨k, w, pc, here, mine⟩ := Thread.casInsert_of_claimed claimed
    rw [here] at knows
    have content := CasPc.Knows.slot_of_claimed knows mine
    rw [published.slot] at content
    have shown : (pc.written k w).newAddr ≠ 0 := by
      rw [← content]
      exact published.addr_ne
    rw [CasPc.written_of_published shown] at content
    obtain ⟨rfl, addr, len⟩ := Slot.mk.inj content
    refine ⟨j, w, ⟨by rw [here]; rfl, ?_⟩, Prod.ext addr len⟩
    rw [claimed]
    exact Option.some_ne_none _
  · left
    rw [← winner.memory.old i fresh, published.slot]

omit [DecidableEq ι] in
theorem SingleWinner.returned (winner : SingleWinner start t₀ keys c) {j : ι}
    {key : Nat} {newCap : Cap} {cheri : Intrinsics} {arenaBase : Option Cap}
    {result : Option Cap} (call : (c.locals j).casCall = some (key, newCap))
    (returned : (c.locals j).casResult cheri arenaBase = some result) :
    (Wins c j key newCap ∧ (c.locals j).won = true ∧
      result = ftDerive cheri arenaBase newCap.address newCap.length) ∨
    ∃ i pair, Published t₀ c.shared key i pair ∧
      result = ftDerive cheri arenaBase pair.1 pair.2 := by
  have knows := winner.knows j
  have same := call
  obtain ⟨pc, here⟩ := Thread.casInsert_of_casCall call
  rw [here] at returned knows
  cases pc with
  | won t i =>
      cases returned
      refine .inl ⟨⟨same, ?_⟩, by rw [here]; rfl, rfl⟩
      rw [here]
      exact Option.some_ne_none _
  | got final =>
      obtain ⟨i, pair, published, rfl⟩ := knows
      cases returned
      exact .inr ⟨i, pair, published, rfl⟩
  | full =>
      obtain ⟨_, impossible, _⟩ := knows
      cases impossible
  | _ => cases returned

omit [DecidableEq ι] in
theorem SingleWinner.wins_unique (winner : SingleWinner start t₀ keys c)
    {j j' : ι} {key : Nat} {newCap newCap' : Cap} (wins : Wins c j key newCap)
    (wins' : Wins c j' key newCap') : j = j' ∧ newCap = newCap' := by
  obtain ⟨i, claimed, below, _, stored⟩ := winner.slot_of_wins wins
  obtain ⟨i', claimed', below', _, stored'⟩ := winner.slot_of_wins wins'
  have sameSlot := winner.memory.layout.unique below below' stored stored'
  subst sameSlot
  have same := winner.single i j j' claimed claimed'
  subst same
  have calls := wins.1.symm.trans wins'.1
  cases calls
  exact ⟨rfl, rfl⟩

/-- A key that some call inserts and that the table did not hold before. -/
def NewKey (start : System ι) (t₀ key : Nat) : Prop :=
  (∃ j newCap, (start.locals j).casCall = some (key, newCap)) ∧
    ∀ i, i < (start.shared.tables t₀).size →
      (start.shared.tables t₀).key i ≠ some key

omit [DecidableEq ι] in
theorem SingleWinner.old_key (winner : SingleWinner start t₀ keys c)
    {i key : Nat} (stored : (start.shared.tables t₀).key i = some key) :
    (c.shared.tables t₀).key i = some key := by
  have same := winner.memory.old i (by rw [stored]; exact Option.some_ne_none _)
  rw [Table.key_eq_some] at stored ⊢
  exact ⟨(congrArg Slot.fromAddr same).trans stored.1, stored.2⟩

omit [DecidableEq ι] in
theorem SingleWinner.newKey_of_wins (winner : SingleWinner start t₀ keys c)
    {j : ι} {key : Nat} {newCap : Cap} (wins : Wins c j key newCap) :
    NewKey start t₀ key := by
  refine ⟨⟨j, newCap, by rw [← winner.calls j]; exact wins.1⟩, ?_⟩
  intro i below stored
  obtain ⟨i', _, below', fresh, stored'⟩ := winner.slot_of_wins wins
  have same := winner.memory.layout.unique (by rwa [winner.memory.size]) below'
    (winner.old_key stored) stored'
  rw [same, fresh] at stored
  cases stored

omit [DecidableEq ι] in
theorem SingleWinner.result_of_new (winner : SingleWinner start t₀ keys c)
    {j : ι} {key : Nat} {newCap : Cap} {cheri : Intrinsics}
    {arenaBase : Option Cap} {result : Option Cap}
    (call : (c.locals j).casCall = some (key, newCap))
    (returned : (c.locals j).casResult cheri arenaBase = some result)
    (new : NewKey start t₀ key) :
    ∃ j' winning, Wins c j' key winning ∧
      result = ftDerive cheri arenaBase winning.address winning.length := by
  rcases winner.returned call returned with
    ⟨wins, _, mine⟩ | ⟨i, pair, published, read⟩
  · exact ⟨j, newCap, wins, mine⟩
  · rcases winner.origin published with old | ⟨_, j', winning, wins, rfl⟩
    · have below := published.below
      rw [winner.memory.size] at below
      refine absurd (Table.key_eq_some.mpr ⟨?_, published.key_ne⟩)
        (new.2 i below)
      exact congrArg Slot.fromAddr old
    · exact ⟨j', winning, wins, read⟩

omit [DecidableEq ι] in
theorem SingleWinner.result_of_old (winner : SingleWinner start t₀ keys c)
    {j : ι} {key i : Nat} {newCap : Cap} {cheri : Intrinsics}
    {arenaBase : Option Cap} {result : Option Cap}
    (call : (c.locals j).casCall = some (key, newCap))
    (returned : (c.locals j).casResult cheri arenaBase = some result)
    (below : i < (start.shared.tables t₀).size)
    (stored : (start.shared.tables t₀).key i = some key) :
    result = ftDerive cheri arenaBase (start.shared.slot t₀ i).newAddr
      (start.shared.slot t₀ i).newLen := by
  rcases winner.returned call returned with
    ⟨wins, _⟩ | ⟨i', pair, published, read⟩
  · exact absurd stored ((winner.newKey_of_wins wins).2 i below)
  · have here : (c.shared.tables t₀).key i' = some key := by
      refine Table.key_eq_some.mpr ⟨?_, published.key_ne⟩
      exact congrArg Slot.fromAddr published.slot
    have same := winner.memory.layout.unique (by rwa [winner.memory.size])
      published.below (winner.old_key stored) here
    subst same
    have kept := winner.memory.old i
      (by rw [stored]; exact Option.some_ne_none _)
    rw [← kept, published.slot, read]

omit [DecidableEq ι] in
/-- When all calls have returned, the winners are one for each new key. -/
theorem SingleWinner.winner_of_new (winner : SingleWinner start t₀ keys c)
    {cheri : Intrinsics} {arenaBase : Option Cap}
    (finished : ∀ j, (c.locals j).casCall ≠ none →
      (c.locals j).casResult cheri arenaBase ≠ none) {key : Nat}
    (new : NewKey start t₀ key) :
    ∃! j, (c.locals j).won = true ∧
      ∃ newCap, (c.locals j).casCall = some (key, newCap) := by
  obtain ⟨⟨j, newCap, call⟩, _⟩ := id new
  rw [← winner.calls j] at call
  obtain ⟨result, returned⟩ := Option.ne_none_iff_exists'.mp
    (finished j (by rw [call]; exact Option.some_ne_none _))
  obtain ⟨j', winning, wins, _⟩ := winner.result_of_new call returned new
  have unique : ∀ k, ((c.locals k).won = true ∧
      ∃ newCap, (c.locals k).casCall = some (key, newCap)) → k = j' := by
    rintro k ⟨won, other, call⟩
    have claimed : (c.locals k).claimed ≠ none := by
      obtain ⟨pc, here⟩ := Thread.casInsert_of_casCall call
      rw [here] at won ⊢
      cases pc with
      | won t i => exact Option.some_ne_none _
      | _ => cases won
    exact (winner.wins_unique ⟨call, claimed⟩ wins).1
  refine ⟨j', ⟨?_, winning, wins.1⟩, unique⟩
  obtain ⟨result, returned⟩ := Option.ne_none_iff_exists'.mp
    (finished j' (by rw [wins.1]; exact Option.some_ne_none _))
  obtain ⟨pc, here⟩ := Thread.casInsert_of_casCall wins.1
  have claimed := wins.2
  rw [here] at returned claimed ⊢
  cases pc with
  | won t i => rfl
  | got final => exact absurd rfl claimed
  | full => exact absurd rfl claimed
  | _ => cases returned

omit [DecidableEq ι] in
theorem SingleWinner.count_of_new (winner : SingleWinner start t₀ keys c)
    {cheri : Intrinsics} {arenaBase : Option Cap}
    (finished : ∀ j, (c.locals j).casCall ≠ none →
      (c.locals j).casResult cheri arenaBase ≠ none) {news : Finset Nat}
    (exactly : ∀ k, k ∈ news ↔ NewKey start t₀ k) :
    c.shared.gSize = start.shared.gSize + news.card := by
  have claims : ∀ j, j ∈ winners c →
      ∃ key newCap, Wins c j key newCap := by
    intro j member
    have won := (Finset.mem_filter.mp member).2
    cases here : c.locals j with
    | casInsert key newCap pc =>
        rw [here] at won
        cases pc with
        | won t i =>
            refine ⟨key, newCap, by rw [here]; rfl, ?_⟩
            rw [here]
            exact Option.some_ne_none _
        | _ => cases won
    | _ =>
        rw [here] at won
        cases won
  choose! keyOf capOf wins using claims
  have sameCard : (winners c).card = news.card := by
    refine Finset.card_bij (fun j _ => keyOf j) ?_ ?_ ?_
    · intro j member
      exact (exactly _).mpr (winner.newKey_of_wins (wins j member))
    · intro j member j' member' same
      have second := wins j' member'
      rw [← same] at second
      exact (winner.wins_unique (wins j member) second).1
    · intro key member
      obtain ⟨j, ⟨won, newCap, call⟩, _⟩ :=
        winner.winner_of_new finished ((exactly key).mp member)
      have here : j ∈ winners c := Finset.mem_filter.mpr ⟨Finset.mem_univ j, won⟩
      refine ⟨j, here, ?_⟩
      have calls := (wins j here).1.symm.trans call
      exact (Prod.mk.inj (Option.some.inj calls)).1
  rw [winner.count, sameCard]

omit [DecidableEq ι] in
theorem SingleWinner.published_of_found (winner : SingleWinner start t₀ keys c)
    {j : ι} {key : Nat} {pair : Nat × Nat}
    (found : (c.locals j).found = some (key, some pair)) :
    ∃ i, Published t₀ c.shared key i pair := by
  have knows := winner.knows j
  obtain ⟨k, pc, current, place⟩ := Thread.current_of_found found
  rcases place with here | ⟨newCap, here⟩
  · rw [here] at knows
    exact (knows _ _ current).2
  · rw [here] at knows
    obtain ⟨_, _, _, reads, _⟩ := knows
    exact (reads _ _ current).2

/-- In every interleaving of insert-or-get calls and lookups each key sits in
one slot, each new key has one winner, all calls for a key that return give
back the same capability, rebuilt from the winner's pair, `g_size` counts the
new keys, and `ft_find` returns only pairs that one insertion wrote
together. -/
theorem forwardTableCasInsert_single_winner (cheri : Intrinsics)
    (arenaBase : Option Cap) (setting : CasSetting start t₀ keys)
    (reachable : SystemReachable start c) :
    (∀ key i i', i < (c.shared.tables t₀).size →
      i' < (c.shared.tables t₀).size →
      (c.shared.tables t₀).key i = some key →
      (c.shared.tables t₀).key i' = some key → i = i') ∧
    (∀ j j' key newCap newCap' result result',
      (c.locals j).casCall = some (key, newCap) →
      (c.locals j').casCall = some (key, newCap') →
      (c.locals j).casResult cheri arenaBase = some result →
      (c.locals j').casResult cheri arenaBase = some result' →
      result = result' ∧
        ∃ i, i < (c.shared.tables t₀).size ∧
          (c.shared.tables t₀).key i = some key) ∧
    (∀ j key newCap result, NewKey start t₀ key →
      (c.locals j).casCall = some (key, newCap) →
      (c.locals j).casResult cheri arenaBase = some result →
      ∃ j' winning, Wins c j' key winning ∧
        result = ftDerive cheri arenaBase winning.address winning.length) ∧
    (∀ j j' key newCap newCap', Wins c j key newCap → Wins c j' key newCap' →
      j = j') ∧
    (∀ j key newCap, Wins c j key newCap → NewKey start t₀ key) ∧
    ((∀ j, (c.locals j).casCall ≠ none →
        (c.locals j).casResult cheri arenaBase ≠ none) →
      (∀ key, NewKey start t₀ key → ∃! j, (c.locals j).won = true ∧
        ∃ newCap, (c.locals j).casCall = some (key, newCap)) ∧
      ∀ news : Finset Nat, (∀ key, key ∈ news ↔ NewKey start t₀ key) →
        c.shared.gSize = start.shared.gSize + news.card) ∧
    (∀ j key pair, (c.locals j).found = some (key, some pair) →
      (∃ i, i < (start.shared.tables t₀).size ∧
        start.shared.slot t₀ i = ⟨key, pair.1, pair.2⟩) ∨
      ∃ j' winning, Wins c j' key winning ∧
        pair = (winning.address, winning.length)) := by
  have winner := singleWinner_of_reachable setting reachable
  refine ⟨?_, ?_, ?_, ?_, ?_, ?_, ?_⟩
  · intro key i i' below below' stored stored'
    exact winner.memory.layout.unique below below' stored stored'
  · intro j j' key newCap newCap' result result' call call' returned returned'
    by_cases old : ∃ i, i < (start.shared.tables t₀).size ∧
        (start.shared.tables t₀).key i = some key
    · obtain ⟨i, below, stored⟩ := old
      refine ⟨?_, i, by rwa [winner.memory.size], winner.old_key stored⟩
      rw [winner.result_of_old call returned below stored,
        winner.result_of_old call' returned' below stored]
    · have new : NewKey start t₀ key :=
        ⟨⟨j, newCap, by rw [← winner.calls j, call]⟩,
          fun i below stored => old ⟨i, below, stored⟩⟩
      obtain ⟨k, winning, wins, mine⟩ := winner.result_of_new call returned new
      obtain ⟨k', winning', wins', theirs⟩ :=
        winner.result_of_new call' returned' new
      obtain ⟨_, rfl⟩ := winner.wins_unique wins wins'
      obtain ⟨i, _, below, _, stored⟩ := winner.slot_of_wins wins
      exact ⟨by rw [mine, theirs], i, below, stored⟩
  · intro j key newCap result new call returned
    exact winner.result_of_new call returned new
  · intro j j' key newCap newCap' wins wins'
    exact (winner.wins_unique wins wins').1
  · intro j key newCap wins
    exact winner.newKey_of_wins wins
  · intro finished
    exact ⟨fun key new => winner.winner_of_new finished new,
      fun news exactly => winner.count_of_new finished exactly⟩
  · intro j key pair found
    obtain ⟨i, published⟩ := winner.published_of_found found
    rcases winner.origin published with old | ⟨_, origin⟩
    · left
      refine ⟨i, ?_, old⟩
      rw [← winner.memory.size]
      exact published.below
    · exact .inr origin

end Runs

def racingCap (address : Nat) : Cap :=
  { tag := true
    base := address
    length := 32
    address := address
    perms := { swVmem := false, rest := 1 } }

def racing : System Bool :=
  { shared := Memory.ready
    locals := fun second =>
      .casInsert 16 (racingCap (if second then 96 else 64)) .loadTable }

private theorem racing_setting : CasSetting racing 0 {16} where
  ready :=
    { current := rfl
      allocated := by decide
      shape := shape_zeroed (e := 16) rfl (by decide) _ }
  stored := by
    intro i k _ stored
    change (Table.zeroed initialCap).key i = some k at stored
    rw [Table.zeroed_key] at stored
    cases stored
  room := by decide
  apart := by
    intro i _ published
    exact absurd rfl published
  starting := by
    intro second
    refine .inr ⟨16, _, rfl, by decide, by decide, ?_⟩
    cases second <;> decide

/-- Two calls race for one key; the second one gets the first one's copy. -/
theorem forwardTableCasInsert_single_winner_race :
    ∃ c : System Bool, SystemReachable racing c ∧
      (c.locals true).casResult Intrinsics.exact (some (racingCap 0)) =
        some (ftDerive Intrinsics.exact (some (racingCap 0)) 64 32) := by
  have first : SystemReachable racing _ :=
    Reachable.solo false 7 Thread.next_step
  have second := first.trans (Reachable.solo true 15 Thread.next_step)
  generalize reached : Config.advance _ true _ _ = c at second
  have call : (c.locals false).casCall = some (16, racingCap 64) := by
    rw [← reached]
    decide +kernel
  have call' : (c.locals true).casCall = some (16, racingCap 96) := by
    rw [← reached]
    decide +kernel
  have won : (c.locals false).casResult Intrinsics.exact (some (racingCap 0)) =
      some (ftDerive Intrinsics.exact (some (racingCap 0)) 64 32) := by
    rw [← reached]
    decide +kernel
  have back : ((c.locals true).casResult Intrinsics.exact
      (some (racingCap 0))).isSome = true := by
    rw [← reached]
    decide +kernel
  obtain ⟨result, returned⟩ := Option.isSome_iff_exists.mp back
  have same := (forwardTableCasInsert_single_winner Intrinsics.exact
    (some (racingCap 0)) racing_setting second).2.1 false true 16 _ _ _ _
    call call' won returned
  exact ⟨c, second, by rw [returned, same.1]⟩

end ForwardTable

end StoplessGC
