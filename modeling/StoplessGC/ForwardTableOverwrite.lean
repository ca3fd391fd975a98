import StoplessGC.ForwardTableSteps

/-!
# One writer and many readers

The single writer runs a sequence of `forward_table_insert` calls from the
static initialisers on, while any number of lookups read the table.  A reader
loads the address before the length, and the writer stores the length before
the address.  So the address a reader returns was written by some call for its
key, and the length by the same call or a later one: the pair is `Mixed`.  It
is the pair of one call whenever mixing the calls for a key cannot produce a
new pair.
-/

namespace StoplessGC

namespace ForwardTable

open Interleaving

/-- The address comes from a call for the key, and the length from the same or
a later one, both at most the `n`-th. -/
def Mixed (calls : List (Nat × Cap)) (n key : Nat) (pair : Nat × Nat) : Prop :=
  ∃ p q, ∃ c d : Cap, p ≤ q ∧ q ≤ n ∧
    calls[p]? = some (key, c) ∧ c.address = pair.1 ∧
    calls[q]? = some (key, d) ∧ d.length = pair.2

/-- Pairing the address of a call with the length of a later one for the same
key gives the pair of a call up to then. -/
def Unmixable (calls : List (Nat × Cap)) : Prop :=
  ∀ (p q key : Nat) (c d : Cap), p < q → calls[p]? = some (key, c) →
    calls[q]? = some (key, d) → c.address ≠ 0 →
    ∃ r, ∃ e : Cap, r ≤ q ∧ calls[r]? = some (key, e) ∧ e.address = c.address ∧
      e.length = d.length

section Invariant

variable (calls : List (Nat × Cap)) (n : Nat)

/-- What holds of the memory during the `n`-th call. -/
structure WriteMemory (m : Memory) : Prop where
  allocated : ∀ t, m.gTable = some t → t < m.next
  mixed : ∀ t i, t < m.next → (m.slot t i).fromAddr ≠ 0 →
    Mixed calls n (m.slot t i).fromAddr
      ((m.slot t i).newAddr, (m.slot t i).newLen)

/-- What the writer knows within a call. -/
def InsertPc.Writes (m : Memory) (key : Nat) (newCap : Cap) : InsertPc → Prop
  | .init (.storeCapacity t) => ∀ p, t = some p → p < m.next
  | .init (.storeTable t) => ∀ p, t = some p → p < m.next
  | .loadCapacity t => t < m.next
  | .loadKey t _ _ _ => t < m.next
  | .storeLen t i k => t < m.next ∧ (m.slot t i).fromAddr = k ∧
      (k = 0 ∨ k = key)
  | .storeAddr t i k => t < m.next ∧ (m.slot t i).fromAddr = k ∧
      (k = 0 ∨ k = key) ∧ (m.slot t i).newLen = newCap.length
  | .storeKey t i k => t < m.next ∧ (m.slot t i).fromAddr = k ∧
      (k = 0 ∨ k = key) ∧ (m.slot t i).newLen = newCap.length ∧
      (m.slot t i).newAddr = newCap.address
  | _ => True

/-- What an `ft_find` knows. -/
def FindPc.Mixes (m : Memory) (key : Nat) : FindPc → Prop
  | .loadTable => True
  | .loadCapacity t => t < m.next
  | .loadKey t _ _ _ => t < m.next
  | .loadAddr t i => t < m.next ∧ (m.slot t i).fromAddr = key ∧ key ≠ 0
  | .loadLen t i a => t < m.next ∧ (m.slot t i).fromAddr = key ∧ key ≠ 0 ∧
      a ≠ 0 ∧ Mixed calls n key (a, (m.slot t i).newLen)
  | .done none => True
  | .done (some pair) => pair.1 ≠ 0 ∧ Mixed calls n key pair

/-- What a lookup knows: also the pairs it chases and returns are mixed. -/
def LookupPc.Mixes (m : Memory) (key : Nat) : LookupPc → Prop
  | .first find => find.Mixes calls n m key
  | .chase _ na nl find => find.Mixes calls n m na ∧
      na ≠ 0 ∧ ∃ k, Mixed calls n k (na, nl)
  | .done none => True
  | .done (some pair) => pair.1 ≠ 0 ∧ ∃ k, Mixed calls n k pair

/-- What one step of the writer can do to the tables. -/
structure WriteEffect (key : Nat) (newCap : Cap) (m m' : Memory) : Prop where
  next_le : m.next ≤ m'.next
  key_kept : ∀ t i, t < m.next → (m.slot t i).fromAddr ≠ 0 →
    (m'.slot t i).fromAddr = (m.slot t i).fromAddr
  len : ∀ t i, t < m.next → (m.slot t i).fromAddr ≠ 0 →
    (m'.slot t i).newLen = (m.slot t i).newLen ∨
      (m.slot t i).fromAddr = key ∧ (m'.slot t i).newLen = newCap.length

end Invariant

section Steps

variable {calls : List (Nat × Cap)} {n key : Nat} {newCap : Cap}
  {m m' : Memory}

theorem Mixed.mono {later k : Nat} {pair : Nat × Nat}
    (mixed : Mixed calls n k pair) (grown : n ≤ later) :
    Mixed calls later k pair := by
  obtain ⟨p, q, c, d, ordered, reached, rest⟩ := mixed
  exact ⟨p, q, c, d, ordered, reached.trans grown, rest⟩

/-- The length of the current call can replace any earlier one. -/
theorem Mixed.overwrite {addr len : Nat}
    (mixed : Mixed calls n key (addr, len))
    (current : calls[n]? = some (key, newCap)) :
    Mixed calls n key (addr, newCap.length) := by
  obtain ⟨p, q, c, d, ordered, reached, first, here, _⟩ := mixed
  exact ⟨p, n, c, newCap, ordered.trans reached, Nat.le_refl n, first, here,
    current, rfl⟩

theorem Mixed.current (current : calls[n]? = some (key, newCap)) :
    Mixed calls n key (newCap.address, newCap.length) :=
  ⟨n, n, newCap, newCap, Nat.le_refl n, Nat.le_refl n, current, rfl, current,
    rfl⟩

theorem Mixed.exists_call {k : Nat} {pair : Nat × Nat}
    (mixed : Mixed calls n k pair) (unmixable : Unmixable calls)
    (nonzero : pair.1 ≠ 0) :
    ∃ r e, r ≤ n ∧ calls[r]? = some (k, e) ∧ pair = (e.address, e.length) := by
  obtain ⟨p, q, c, d, ordered, reached, first, addr, second, len⟩ := mixed
  rcases Nat.lt_or_eq_of_le ordered with earlier | rfl
  · obtain ⟨r, e, early, call, sameAddr, sameLen⟩ :=
      unmixable p q k c d earlier first second (by rwa [addr])
    exact ⟨r, e, early.trans reached, call,
      Prod.ext (addr.symm.trans sameAddr.symm) (len.symm.trans sameLen.symm)⟩
  · rw [first] at second
    cases second
    exact ⟨p, c, reached, first, Prod.ext addr.symm len.symm⟩

theorem WriteEffect.refl (m : Memory) : WriteEffect key newCap m m where
  next_le := Nat.le_refl _
  key_kept := fun _ _ _ _ => rfl
  len := fun _ _ _ _ => .inl rfl

theorem WriteEffect.of_tables (next : m.next ≤ m'.next)
    (same : ∀ t, t < m.next → m'.tables t = m.tables t) :
    WriteEffect key newCap m m' where
  next_le := next
  key_kept := fun t i allocated _ => by
    rw [Memory.slot, same t allocated, Memory.slot]
  len := fun t i allocated _ => .inl (by
    rw [Memory.slot, same t allocated, Memory.slot])

theorem WriteEffect.setSlot {t i : Nat} {content : Slot}
    (mine : (m.slot t i).fromAddr = 0 ∨ (m.slot t i).fromAddr = key)
    (kept : (m.slot t i).fromAddr ≠ 0 →
      content.fromAddr = (m.slot t i).fromAddr)
    (len : content.newLen = (m.slot t i).newLen ∨
      content.newLen = newCap.length) :
    WriteEffect key newCap m (m.setSlot t i content) where
  next_le := Nat.le_refl _
  key_kept := by
    intro u j _ held
    by_cases here : u = t ∧ j = i
    · obtain ⟨rfl, rfl⟩ := here
      rw [Memory.setSlot_slot_self]
      exact kept held
    · rw [Memory.setSlot_slot_of_ne _ _ _ _ (by tauto)]
  len := by
    intro u j _ held
    by_cases here : u = t ∧ j = i
    · obtain ⟨rfl, rfl⟩ := here
      rw [Memory.setSlot_slot_self]
      rcases len with same | new
      · exact .inl same
      · exact .inr ⟨mine.resolve_left held, new⟩
    · rw [Memory.setSlot_slot_of_ne _ _ _ _ (by tauto)]
      exact .inl rfl

/-- A store into the writer's own slot keeps all slots mixed when it leaves a
mixed pair there. -/
theorem WriteMemory.setSlot (memory : WriteMemory calls n m) {t i : Nat}
    {content : Slot} (mixed : content.fromAddr ≠ 0 →
      Mixed calls n content.fromAddr (content.newAddr, content.newLen)) :
    WriteMemory calls n (m.setSlot t i content) where
  allocated := memory.allocated
  mixed := by
    intro u j allocated held
    by_cases here : u = t ∧ j = i
    · obtain ⟨rfl, rfl⟩ := here
      rw [Memory.setSlot_slot_self] at held ⊢
      exact mixed held
    · rw [Memory.setSlot_slot_of_ne _ _ _ _ (by tauto)] at held ⊢
      exact memory.mixed u j allocated held

theorem WriteMemory.init_step (memory : WriteMemory calls n m) (granted : Bool)
    {pc : InitPc} (writes : (InsertPc.init pc).Writes m key newCap) :
    (InsertPc.init (initStep granted m pc).2).Writes (initStep granted m pc).1
        key newCap ∧
      WriteMemory calls n (initStep granted m pc).1 ∧
      WriteEffect key newCap m (initStep granted m pc).1 := by
  cases pc with
  | check =>
      cases current : m.gTable with
      | none =>
          simp only [initStep, current]
          exact ⟨trivial, memory, .refl m⟩
      | some t =>
          simp only [initStep, current]
          exact ⟨trivial, memory, .refl m⟩
  | calloc =>
      simp only [initStep, Memory.calloc]
      cases fresh : ForwardTable.calloc granted initialCap with
      | none =>
          refine ⟨?_, memory, .refl m⟩
          rintro p ⟨⟩
      | some table =>
          obtain ⟨rfl, _⟩ := calloc_eq_some fresh
          have others : ∀ t, t < m.next →
              Function.update m.tables m.next (Table.zeroed initialCap) t =
                m.tables t := by
            intro t allocated
            exact Function.update_of_ne (Nat.ne_of_lt allocated) _ _
          refine ⟨?_, ⟨?_, ?_⟩, .of_tables (Nat.le_succ _) others⟩
          · rintro p ⟨⟩
            exact Nat.lt_succ_self _
          · intro t current
            exact Nat.lt_succ_of_lt (memory.allocated t current)
          · intro t i allocated held
            by_cases here : t = m.next
            · subst here
              simp [Memory.slot, Table.zeroed] at held
            · have before : t < m.next := by
                change t < m.next + 1 at allocated
                omega
              simp only [Memory.slot, others t before] at held ⊢
              exact memory.mixed t i before held
  | storeCapacity t =>
      exact ⟨writes, ⟨memory.allocated, memory.mixed⟩,
        .of_tables (Nat.le_refl _) (fun _ _ => rfl)⟩
  | storeTable t =>
      exact ⟨trivial, ⟨writes, memory.mixed⟩,
        .of_tables (Nat.le_refl _) (fun _ _ => rfl)⟩
  | storeSize =>
      exact ⟨trivial, ⟨memory.allocated, memory.mixed⟩,
        .of_tables (Nat.le_refl _) (fun _ _ => rfl)⟩
  | done => exact ⟨trivial, memory, .refl m⟩

theorem WriteMemory.insert_step (memory : WriteMemory calls n m)
    (current : calls[n]? = some (key, newCap)) (granted : Bool)
    {pc : InsertPc} (writes : pc.Writes m key newCap) :
    (insertStep granted key newCap m pc).2.Writes
        (insertStep granted key newCap m pc).1 key newCap ∧
      WriteMemory calls n (insertStep granted key newCap m pc).1 ∧
      WriteEffect key newCap m (insertStep granted key newCap m pc).1 := by
  cases pc with
  | loadTable =>
      cases table : m.gTable with
      | none =>
          simp only [insertStep, table]
          exact ⟨trivial, memory, .refl m⟩
      | some t =>
          simp only [insertStep, table]
          exact ⟨memory.allocated t table, memory, .refl m⟩
  | init pc =>
      have inner := memory.init_step granted writes
      cases pc with
      | done => exact ⟨trivial, memory, .refl m⟩
      | _ => exact inner
  | reload =>
      cases table : m.gTable with
      | none =>
          simp only [insertStep, table]
          exact ⟨trivial, memory, .refl m⟩
      | some t =>
          simp only [insertStep, table]
          exact ⟨memory.allocated t table, memory, .refl m⟩
  | loadCapacity t => exact ⟨writes, memory, .refl m⟩
  | loadKey t mask i probes =>
      simp only [insertStep]
      by_cases stop : (m.slot t i).fromAddr = 0 ∨ (m.slot t i).fromAddr = key
      · rw [if_pos stop]
        exact ⟨⟨writes, rfl, stop⟩, memory, .refl m⟩
      · rw [if_neg stop]
        split
        · exact ⟨writes, memory, .refl m⟩
        · exact ⟨trivial, memory, .refl m⟩
  | storeLen t i k =>
      obtain ⟨allocated, rfl, mine⟩ := writes
      refine ⟨⟨allocated, ?_, mine, ?_⟩, memory.setSlot ?_,
        .setSlot mine (fun _ => rfl) (.inr rfl)⟩
      · simp [insertStep, Memory.storeLen]
      · simp [insertStep, Memory.storeLen]
      · intro held
        have before := memory.mixed t i allocated held
        have own : (m.slot t i).fromAddr = key := mine.resolve_left held
        simp only [own] at before ⊢
        exact before.overwrite current
  | storeAddr t i k =>
      obtain ⟨allocated, rfl, mine, len⟩ := writes
      refine ⟨⟨allocated, ?_, mine, ?_, ?_⟩, memory.setSlot ?_,
        .setSlot mine (fun _ => rfl) (.inl rfl)⟩
      · simp [insertStep, Memory.storeAddr]
      · simp [insertStep, Memory.storeAddr, len]
      · simp [insertStep, Memory.storeAddr]
      · intro held
        have own : (m.slot t i).fromAddr = key := mine.resolve_left held
        simp only [own, len]
        exact Mixed.current current
  | storeKey t i k =>
      obtain ⟨allocated, rfl, mine, len, addr⟩ := writes
      have after : WriteMemory calls n (m.storeKey t i key) := by
        apply memory.setSlot
        intro _
        simp only [len, addr]
        exact Mixed.current current
      have effect : WriteEffect key newCap m (m.storeKey t i key) := by
        refine .setSlot mine (fun held => ?_) (.inl rfl)
        exact (mine.resolve_left held).symm
      simp only [insertStep]
      split
      · exact ⟨trivial, after, effect⟩
      · exact ⟨trivial, after, effect⟩
  | addSize =>
      exact ⟨trivial, ⟨memory.allocated, memory.mixed⟩,
        .of_tables (Nat.le_refl _) (fun _ _ => rfl)⟩
  | done => exact ⟨trivial, memory, .refl m⟩
  | crash => exact ⟨trivial, memory, .refl m⟩

theorem FindPc.Mixes.mono {k : Nat} {find : FindPc}
    (mixes : find.Mixes calls n m k)
    (current : calls[n]? = some (key, newCap))
    (effect : WriteEffect key newCap m m') : find.Mixes calls n m' k := by
  cases find with
  | loadTable => trivial
  | loadCapacity t => exact Nat.lt_of_lt_of_le mixes effect.next_le
  | loadKey t mask i probes => exact Nat.lt_of_lt_of_le mixes effect.next_le
  | loadAddr t i =>
      obtain ⟨allocated, held, nonzero⟩ := mixes
      refine ⟨Nat.lt_of_lt_of_le allocated effect.next_le, ?_, nonzero⟩
      rw [effect.key_kept t i allocated (by rwa [held]), held]
  | loadLen t i a =>
      obtain ⟨allocated, held, nonzero, addr, mixed⟩ := mixes
      have kept : (m.slot t i).fromAddr ≠ 0 := by rwa [held]
      refine ⟨Nat.lt_of_lt_of_le allocated effect.next_le, ?_, nonzero, addr, ?_⟩
      · rw [effect.key_kept t i allocated kept, held]
      · rcases effect.len t i allocated kept with same | ⟨own, new⟩
        · rwa [same]
        · obtain rfl : k = key := held.symm.trans own
          rw [new]
          exact mixed.overwrite current
  | done hit =>
      cases hit with
      | none => trivial
      | some pair => exact mixes

theorem LookupPc.Mixes.mono {k : Nat} {pc : LookupPc}
    (mixes : pc.Mixes calls n m k)
    (current : calls[n]? = some (key, newCap))
    (effect : WriteEffect key newCap m m') : pc.Mixes calls n m' k := by
  cases pc with
  | first find => exact FindPc.Mixes.mono mixes current effect
  | chase depth na nl find =>
      exact ⟨FindPc.Mixes.mono mixes.1 current effect, mixes.2⟩
  | done final =>
      cases final with
      | none => trivial
      | some pair => exact mixes

/-- The next call of the writer only allows more. -/
theorem LookupPc.Mixes.later {k later : Nat} {pc : LookupPc}
    (mixes : pc.Mixes calls n m k) (grown : n ≤ later) :
    pc.Mixes calls later m k := by
  have findLater : ∀ {k : Nat} {find : FindPc}, find.Mixes calls n m k →
      find.Mixes calls later m k := by
    intro k find mixes
    cases find with
    | loadLen t i a =>
        obtain ⟨allocated, held, nonzero, addr, mixed⟩ := mixes
        exact ⟨allocated, held, nonzero, addr, mixed.mono grown⟩
    | done hit =>
        cases hit with
        | none => trivial
        | some pair => exact ⟨mixes.1, mixes.2.mono grown⟩
    | _ => exact mixes
  cases pc with
  | first find => exact findLater mixes
  | chase depth na nl find =>
      obtain ⟨searching, nonzero, source, mixed⟩ := mixes
      exact ⟨findLater searching, nonzero, source, mixed.mono grown⟩
  | done final =>
      cases final with
      | none => trivial
      | some pair =>
          obtain ⟨nonzero, source, mixed⟩ := mixes
          exact ⟨nonzero, source, mixed.mono grown⟩

theorem WriteMemory.find_step (memory : WriteMemory calls n m) {k : Nat}
    {find : FindPc} (mixes : find.Mixes calls n m k) :
    (findStep m k find).Mixes calls n m k := by
  cases find with
  | loadTable =>
      cases table : m.gTable with
      | none =>
          simp only [findStep, table]
          trivial
      | some t =>
          simp only [findStep, table]
          exact memory.allocated t table
  | loadCapacity t => exact mixes
  | loadKey t mask i probes =>
      simp only [findStep]
      by_cases free : (m.slot t i).fromAddr = 0
      · rw [if_pos free]
        trivial
      by_cases mine : (m.slot t i).fromAddr = k
      · rw [if_neg free, if_pos mine]
        exact ⟨mixes, mine, mine ▸ free⟩
      · rw [if_neg free, if_neg mine]
        split
        · exact mixes
        · trivial
  | loadAddr t i =>
      obtain ⟨allocated, held, nonzero⟩ := mixes
      simp only [findStep]
      by_cases hidden : (m.slot t i).newAddr = 0
      · rw [if_pos hidden]
        trivial
      · rw [if_neg hidden]
        refine ⟨allocated, held, nonzero, hidden, ?_⟩
        have stored := memory.mixed t i allocated (by rwa [held])
        rwa [held] at stored
  | loadLen t i a => exact ⟨mixes.2.2.2.1, mixes.2.2.2.2⟩
  | done hit => exact mixes

theorem WriteMemory.lookup_step (memory : WriteMemory calls n m) {k : Nat}
    {pc : LookupPc} (mixes : pc.Mixes calls n m k) :
    (lookupStep m k pc).Mixes calls n m k := by
  cases pc with
  | first find =>
      rcases find.done_or_running with ⟨hit, rfl⟩ | searching
      · rcases hit with _ | ⟨na, nl⟩
        · trivial
        · exact ⟨trivial, mixes.1, k, mixes.2⟩
      · rw [lookupStep_first m k searching]
        exact memory.find_step mixes
  | chase depth na nl find =>
      obtain ⟨inner, outer⟩ := mixes
      rcases find.done_or_running with ⟨hit, rfl⟩ | searching
      · rcases hit with _ | ⟨nna, nnl⟩
        · exact outer
        · simp only [lookupStep]
          split
          · exact outer
          · split
            · trivial
            · exact ⟨trivial, inner.1, na, inner.2⟩
      · rw [lookupStep_chase m k depth na nl searching]
        exact ⟨memory.find_step inner, outer⟩
  | done final => exact mixes

end Steps

/-- The calls the writer has begun. -/
def Thread.begun : Thread → List (Nat × Cap)
  | .inserts before key newCap _ _ => before ++ [(key, newCap)]
  | _ => []

section Runs

variable {ι : Type*} [DecidableEq ι]

/-- The writer starts its calls on the static initialisers, and all other
threads start a lookup. -/
structure WriteSetting (start : System ι) (writer : ι)
    (calls : List (Nat × Cap)) : Prop where
  shared : start.shared = Memory.initial
  writing : ∃ key newCap after,
    start.locals writer = .inserts [] key newCap .loadTable after ∧
      calls = (key, newCap) :: after
  reading : ∀ j, j ≠ writer →
    ∃ key, start.locals j = .lookup key (.first .loadTable)

/-- The invariant of all configurations. -/
def Writing (writer : ι) (calls : List (Nat × Cap)) (c : System ι) : Prop :=
  ∃ before key newCap pc after,
    c.locals writer = .inserts before key newCap pc after ∧
      calls = before ++ (key, newCap) :: after ∧
      pc.Writes c.shared key newCap ∧
      WriteMemory calls before.length c.shared ∧
      ∀ j, j ≠ writer → ∃ k pc, c.locals j = .lookup k pc ∧
        pc.Mixes calls before.length c.shared k

variable {start c : System ι} {writer : ι} {calls : List (Nat × Cap)}

omit [DecidableEq ι] in
theorem WriteSetting.initially (setting : WriteSetting start writer calls) :
    Writing writer calls start := by
  obtain ⟨key, newCap, after, here, program⟩ := setting.writing
  refine ⟨[], key, newCap, .loadTable, after, here, program, trivial, ?_, ?_⟩
  · rw [setting.shared]
    constructor
    · rintro t ⟨⟩
    · intro t i allocated
      exact absurd allocated (Nat.not_lt_zero t)
  · intro j other
    obtain ⟨k, reads⟩ := setting.reading j other
    exact ⟨k, _, reads, trivial⟩

theorem Writing.step (writing : Writing writer calls c) {j : ι} {m' : Memory}
    {l' : Thread} (taken : ThreadStep c.shared (c.locals j) m' l') :
    Writing writer calls (c.advance j m' l') := by
  obtain ⟨before, key, newCap, pc, after, here, program, writes, memory,
    readers⟩ := writing
  have current : calls[before.length]? = some (key, newCap) := by
    rw [program]
    simp
  by_cases mine : j = writer
  · subst mine
    rw [here] at taken
    cases taken with
    | insert granted =>
        obtain ⟨nextWrites, nextMemory, effect⟩ :=
          memory.insert_step current granted writes
        refine ⟨before, key, newCap, _, after, Config.advance_locals_self _ _ _ _,
          program, nextWrites, nextMemory, ?_⟩
        intro k other
        obtain ⟨wanted, lookup, reads, mixes⟩ := readers k other
        refine ⟨wanted, lookup, ?_, mixes.mono current effect⟩
        rw [Config.advance_locals_of_ne _ _ _ other, reads]
    | nextInsert =>
        have grown : before.length ≤ (before ++ [(key, newCap)]).length := by
          simp
        refine ⟨before ++ [(key, newCap)], _, _, .loadTable, _,
          Config.advance_locals_self _ _ _ _, by rw [program]; simp, trivial,
          ⟨memory.allocated, fun t i allocated held =>
            (memory.mixed t i allocated held).mono grown⟩, ?_⟩
        intro k other
        obtain ⟨wanted, lookup, reads, mixes⟩ := readers k other
        refine ⟨wanted, lookup, ?_, mixes.later grown⟩
        rw [Config.advance_locals_of_ne _ _ _ other, reads]
  · obtain ⟨wanted, lookup, reads, mixes⟩ := readers j mine
    rw [reads] at taken
    cases taken
    refine ⟨before, key, newCap, pc, after, ?_, program, writes, memory, ?_⟩
    · rw [Config.advance_locals_of_ne _ _ _ (Ne.symm mine), here]
    · intro k other
      by_cases same : k = j
      · subst same
        exact ⟨wanted, _, Config.advance_locals_self _ _ _ _,
          memory.lookup_step mixes⟩
      · rw [Config.advance_locals_of_ne _ _ _ same]
        exact readers k other

theorem writing_of_reachable (setting : WriteSetting start writer calls)
    (reachable : SystemReachable start c) : Writing writer calls c := by
  apply reachable.invariant (Writing writer calls)
  · exact setting.initially
  · intro c j m' l' writing taken
    exact writing.step taken

omit [DecidableEq ι] in
theorem Writing.begun_of_mixed (unmixable : Unmixable calls)
    {before after : List (Nat × Cap)} {key k : Nat} {newCap : Cap}
    {pc : InsertPc} {pair : Nat × Nat}
    (here : c.locals writer = .inserts before key newCap pc after)
    (program : calls = before ++ (key, newCap) :: after)
    (mixed : Mixed calls before.length k pair) (nonzero : pair.1 ≠ 0) :
    ∃ e, (k, e) ∈ (c.locals writer).begun ∧ pair = (e.address, e.length) := by
  obtain ⟨r, e, early, call, same⟩ := mixed.exists_call unmixable nonzero
  refine ⟨e, ?_, same⟩
  rw [here]
  have split : calls = (before ++ [(key, newCap)]) ++ after := by
    rw [program]
    simp
  rw [split, List.getElem?_append_left (by simp; omega)] at call
  exact List.mem_of_getElem? call

/-- In every interleaving of the writer's calls with lookups, each pair that
`ft_find` returns for a key is the pair of one call for that key, and the pair
a lookup derives its capability from is the pair of one call, provided the
calls are unmixable. -/
theorem ftFind_never_torn (setting : WriteSetting start writer calls)
    (unmixable : Unmixable calls) (reachable : SystemReachable start c) :
    (∀ j key pair, (c.locals j).found = some (key, some pair) →
      ∃ e, (key, e) ∈ (c.locals writer).begun ∧
        pair = (e.address, e.length)) ∧
    (∀ j key pair, c.locals j = .lookup key (.done (some pair)) →
      ∃ k e, (k, e) ∈ (c.locals writer).begun ∧
        pair = (e.address, e.length)) := by
  obtain ⟨before, key, newCap, pc, after, here, program, _, _, readers⟩ :=
    writing_of_reachable setting reachable
  constructor
  · intro j k pair found
    have other : j ≠ writer := by
      rintro rfl
      rw [here] at found
      cases found
    obtain ⟨wanted, lookup, reads, mixes⟩ := readers j other
    obtain ⟨searched, lookup', current, same | ⟨_, same⟩⟩ :=
      Thread.current_of_found found
    · rw [reads] at same
      cases same
      cases lookup with
      | first find =>
          cases current
          exact Writing.begun_of_mixed unmixable here program mixes.2 mixes.1
      | chase depth na nl find =>
          cases current
          exact Writing.begun_of_mixed unmixable here program mixes.1.2
            mixes.1.1
      | done final => cases current
    · rw [reads] at same
      cases same
  · intro j k pair returned
    have other : j ≠ writer := by
      rintro rfl
      rw [here] at returned
      cases returned
    obtain ⟨wanted, lookup, reads, mixes⟩ := readers j other
    rw [returned] at reads
    cases reads
    obtain ⟨nonzero, source, mixed⟩ := mixes
    exact ⟨source,
      Writing.begun_of_mixed unmixable here program mixed nonzero⟩

end Runs

/-- A destination of the given length. -/
def destination (address length : Nat) : Cap :=
  { tag := true
    base := address
    length := length
    address := address
    perms := { swVmem := false, rest := 1 } }

/-- The writer inserts one key twice; one reader looks it up. -/
def overwriting (first second : Cap) : System Bool :=
  { shared := Memory.initial
    locals := fun reads =>
      if reads then .lookup 16 (.first .loadTable)
      else .inserts [] 16 first .loadTable [(16, second)] }

theorem overwriting_setting (first second : Cap) :
    WriteSetting (overwriting first second) false
      [(16, first), (16, second)] where
  shared := rfl
  writing := ⟨16, first, [(16, second)], rfl, rfl⟩
  reading := by
    intro reads other
    cases reads with
    | false => exact absurd rfl other
    | true => exact ⟨16, rfl⟩

/-- Two destinations of one length. -/
theorem ftFind_never_torn_same_length :
    ∃ c : System Bool,
      SystemReachable (overwriting (destination 64 32) (destination 96 32)) c ∧
      (c.locals true).found = some (16, some (64, 32)) ∧
      ∃ e, (16, e) ∈ (c.locals false).begun ∧
        (64, 32) = (e.address, e.length) := by
  have unmixable :
      Unmixable [(16, destination 64 32), (16, destination 96 32)] := by
    intro p q key c d earlier first second _
    have pFirst : p = 0 ∧ q = 1 := by
      have qBelow := (List.getElem?_eq_some_iff.mp second).1
      simp only [List.length_cons, List.length_nil] at qBelow
      omega
    obtain ⟨rfl, rfl⟩ := pFirst
    cases first
    cases second
    exact ⟨0, destination 64 32, by decide, rfl, rfl, rfl⟩
  have wrote : SystemReachable
      (overwriting (destination 64 32) (destination 96 32)) _ :=
    Reachable.solo false 15 Thread.next_step
  have read := wrote.trans (Reachable.solo true 5 Thread.next_step)
  generalize reached : Config.advance _ true _ _ = c at read
  have found : (c.locals true).found = some (16, some (64, 32)) := by
    rw [← reached]
    decide +kernel
  exact ⟨c, read, found, (ftFind_never_torn (overwriting_setting _ _) unmixable
    read).1 true 16 (64, 32) found⟩

/-- The reader loads the address of the first insertion, the writer begins the
second one and stores its length, and the reader loads that length. -/
theorem ftFind_torn :
    ∃ c : System Bool,
      SystemReachable (overwriting (destination 64 32) (destination 96 48)) c ∧
      (c.locals true).found = some (16, some (64, 48)) ∧
      ¬ ∃ e, (16, e) ∈ [(16, destination 64 32), (16, destination 96 48)] ∧
        (64, 48) = (e.address, e.length) := by
  have wrote : SystemReachable
      (overwriting (destination 64 32) (destination 96 48)) _ :=
    Reachable.solo false 15 Thread.next_step
  have loaded := wrote.trans (Reachable.solo true 4 Thread.next_step)
  have again := loaded.trans (Reachable.solo false 5 Thread.next_step)
  have read := again.trans (Reachable.solo true 1 Thread.next_step)
  generalize reached : Config.advance _ true _ _ = c at read
  have found : (c.locals true).found = some (16, some (64, 48)) := by
    rw [← reached]
    decide +kernel
  refine ⟨c, read, found, ?_⟩
  rintro ⟨e, member, same⟩
  simp only [List.mem_cons, Prod.mk.injEq, List.not_mem_nil, or_false,
    true_and] at member
  rcases member with rfl | rfl <;> cases same

end ForwardTable

end StoplessGC
