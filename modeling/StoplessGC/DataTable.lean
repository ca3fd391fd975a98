import StoplessGC.MachineCode
import StoplessGC.Foundation.InternTable
import StoplessGC.Foundation.StoredList

/-!
# The table of data capabilities

Generated code cannot derive a capability to a global of the runtime.  Each
global that some code needs is entered into a table when the code is generated,
and the code loads it through the base of the table in the thread.  Entries are
looked up by address: a capability for another part of the same global with the
same address is not told apart.
-/

namespace StoplessGC

namespace Morello

namespace DataTable

open InternTable StoredList

abbrev rthread : Register := .c 28

/-- `CAP_DATA_TABLE_CAPACITY` -/
def capDataTableCapacity : Nat := 1024

structure GrowableArray where
  /-- The backing array. -/
  data : Cap
  max : Nat
  entries : List Cap
deriving DecidableEq, Repr

/-- `append`, which moves a full array to one of twice its size. -/
def GrowableArray.append (allocate : Nat → Cap) (array : GrowableArray)
    (x : Cap) : GrowableArray :=
  if array.entries.length = array.max then
    { data := allocate (2 * array.max)
      max := 2 * array.max
      entries := array.entries ++ [x] }
  else { array with entries := array.entries ++ [x] }

/-- `_cap_data_table`, which is null before its first use. -/
abbrev Table := Option GrowableArray

/-- The array that `cap_data_id_for` works on. -/
def Table.created (allocate : Nat → Cap) (table : Table) : GrowableArray :=
  table.getD
    { data := allocate capDataTableCapacity
      max := capDataTableCapacity
      entries := [] }

/-- `cap_data_id_for`; `none` stands for a failed guarantee. -/
def capDataIdFor (allocate : Nat → Cap) (table : Table) (global : Cap) :
    Option (Nat × Table) :=
  let array := table.created allocate
  match array.entries.findIdx? fun c => decide (c.address = global.address) with
  | some i => some (i + 1, some array)
  | none =>
      if array.entries.length < capDataTableCapacity then
        let array := array.append allocate global
        some (array.entries.length, some array)
      else none

/-- `cap_data_table_base` -/
def capDataTableBase : Table → Cap
  | none => Cap.null
  | some array => if array.entries = [] then Cap.null else array.data

/-- The code of `lea_libjvm_global`. -/
def loadEntry (baseOffset : FieldOffset) (dst : Register) (id : Nat) :
    List Code :=
  [.emit (capLdrImm dst rthread baseOffset.bytes),
    .emit (capLdrImm dst dst (((id : Int) - 1) * 16))]

/-- `MacroAssembler::lea_libjvm_global`, with the number that is used. -/
def leaLibjvmGlobal (allocate : Nat → Cap) (baseOffset : FieldOffset)
    (table : Table) (dst : Register) (global : Cap) :
    Option (Nat × List Code × Table) := do
  let (id, table) ← capDataIdFor allocate table global
  some (id, loadEntry baseOffset dst id, table)

structure Request where
  dst : Register
  global : Cap
deriving DecidableEq, Repr

/-- The table, the numbers that were returned and the code that was emitted. -/
structure State where
  table : Table
  ids : List (Cap × Nat)
  sites : List (Request × List Code)

def State.start : State := ⟨none, [], []⟩

section Requests

variable (allocate : Nat → Cap) (baseOffset : FieldOffset)

def Request.step (s : State) (r : Request) : Option State := do
  let (id, code, table) ←
    leaLibjvmGlobal allocate baseOffset s.table r.dst r.global
  some
    { table := table
      ids := s.ids ++ [(r.global, id)]
      sites := s.sites ++ [(r, code)] }

def Request.run : List Request → State → Option State
  | [], s => some s
  | r :: rs, s => do
      let s' ← r.step allocate baseOffset s
      Request.run rs s'

end Requests

section Runs

variable {allocate : Nat → Cap} {baseOffset : FieldOffset} {s s' : State}

/-- An array that is still where it was created. -/
structure Fixed (allocate : Nat → Cap) (array : GrowableArray) : Prop where
  data : array.data = allocate capDataTableCapacity
  max : array.max = capDataTableCapacity
  fits : array.entries.length ≤ capDataTableCapacity

theorem Fixed.append {array : GrowableArray} (fixed : Fixed allocate array)
    (below : array.entries.length < capDataTableCapacity) (x : Cap) :
    (array.append allocate x).entries = array.entries ++ [x] ∧
      Fixed allocate (array.append allocate x) := by
  have max := fixed.max
  rw [GrowableArray.append, if_neg (by omega)]
  refine ⟨rfl, fixed.data, fixed.max, ?_⟩
  rw [List.length_append]
  exact below

/-- The guarantee fails for a new address in a full array only. -/
theorem capDataIdFor_cases {table : Table}
    (fixed : Fixed allocate (table.created allocate)) (g : Cap) :
    (∃ i array, capDataIdFor allocate table g = some (i + 1, some array) ∧
      intern Cap.address (table.created allocate).entries g =
        (i, array.entries) ∧ Fixed allocate array) ∨
    ((table.created allocate).entries.length = capDataTableCapacity ∧
      g.address ∉ (table.created allocate).entries.map Cap.address) := by
  unfold capDataIdFor intern position
  cases found : (table.created allocate).entries.findIdx? fun c =>
      decide (c.address = g.address) with
  | some i =>
      refine .inl ⟨i, table.created allocate, ?_, rfl, fixed⟩
      simp only [found]
  | none =>
      by_cases below : (table.created allocate).entries.length <
          capDataTableCapacity
      · obtain ⟨entries, stays⟩ := fixed.append below g
        refine .inl ⟨(table.created allocate).entries.length,
          (table.created allocate).append allocate g, ?_, ?_, stays⟩
        · simp only [found, if_pos below, entries, List.length_append,
            List.length_singleton]
        · rw [entries]
      · have full := fixed.fits
        refine .inr ⟨by omega, ?_⟩
        intro member
        obtain ⟨c, inTable, same⟩ := List.mem_map.mp member
        have missed := List.findIdx?_eq_none_iff.mp found c inTable
        exact of_decide_eq_false missed same

/-- The numbers in the code belong to the entries of the array. -/
structure Faithful (allocate : Nat → Cap) (baseOffset : FieldOffset)
    (s : State) : Prop where
  numbered : Numbered Cap.address (s.table.created allocate).entries s.ids
  fixed : Fixed allocate (s.table.created allocate)
  used : s.ids ≠ [] → s.table.isSome
  sites : ∀ r code, (r, code) ∈ s.sites →
    ∃ id, (r.global, id) ∈ s.ids ∧ code = loadEntry baseOffset r.dst id

theorem Faithful.start : Faithful allocate baseOffset State.start where
  numbered := .nil
  fixed := ⟨rfl, rfl, Nat.zero_le _⟩
  used := fun some => absurd rfl some
  sites := by
    intro r code member
    cases member

/-- A request goes through if its address is known or there is room. -/
theorem Faithful.step (faithful : Faithful allocate baseOffset s) (r : Request) :
    (∃ s', r.step allocate baseOffset s = some s' ∧
      Faithful allocate baseOffset s' ∧
      s'.ids.map Prod.fst = s.ids.map Prod.fst ++ [r.global]) ∨
    ((s.table.created allocate).entries.length = capDataTableCapacity ∧
      r.global.address ∉
        (s.table.created allocate).entries.map Cap.address) := by
  rcases capDataIdFor_cases faithful.fixed r.global with
    ⟨i, array, found, interned, fixed⟩ | full
  · have numbered := faithful.numbered.intern r.global
    rw [interned] at numbered
    refine .inl ⟨
      { table := some array
        ids := s.ids ++ [(r.global, i + 1)]
        sites := s.sites ++ [(r, loadEntry baseOffset r.dst (i + 1))] },
      ?_, ⟨numbered, fixed, fun _ => rfl, ?_⟩, ?_⟩
    · rw [Request.step, leaLibjvmGlobal, found]
      rfl
    · intro q code member
      rcases List.mem_append.mp member with earlier | now
      · obtain ⟨id, there, same⟩ := faithful.sites q code earlier
        exact ⟨id, List.mem_append_left _ there, same⟩
      · obtain ⟨rfl, rfl⟩ := Prod.mk.inj (List.mem_singleton.mp now)
        exact ⟨i + 1, List.mem_append_right _ (List.mem_singleton.mpr rfl),
          rfl⟩
    · rw [List.map_append]
      rfl
  · exact .inr full

theorem Faithful.run (rs : List Request)
    (faithful : Faithful allocate baseOffset s)
    (few : (((s.ids.map Prod.fst) ++ rs.map Request.global).map
      Cap.address).toFinset.card ≤ capDataTableCapacity) :
    ∃ s', Request.run allocate baseOffset rs s = some s' ∧
      Faithful allocate baseOffset s' ∧
      s'.ids.map Prod.fst = s.ids.map Prod.fst ++ rs.map Request.global := by
  induction rs generalizing s with
  | nil => exact ⟨s, rfl, faithful, by simp⟩
  | cons r rs ih =>
      rcases faithful.step r with ⟨next, first, kept, ids⟩ | ⟨full, new⟩
      · have rest : next.ids.map Prod.fst ++ rs.map Request.global =
            s.ids.map Prod.fst ++ (r :: rs).map Request.global := by
          rw [ids, List.append_assoc]
          rfl
        obtain ⟨s', ran, kept', ids'⟩ := ih kept (by rw [rest]; exact few)
        refine ⟨s', ?_, kept', by rw [ids', rest]⟩
        rw [Request.run, first]
        exact ran
      · have larger := faithful.numbered.length_lt new (rs.map Request.global)
        rw [full] at larger
        exact absurd larger (Nat.not_lt_of_le few)

end Runs

/-- A thread that was seeded with the base, and the array in memory, whose
capability covers all of it. -/
structure Seeded (baseOffset : FieldOffset) (table : Table) (cpu : Cpu) :
    Prop where
  thread : Reaches (cpu.read rthread) baseOffset.bytes
  base : cpu.mem ((cpu.read rthread).address + baseOffset.bytes) =
    capDataTableBase table
  covers : ∀ i, i < capDataTableCapacity →
    Reaches (capDataTableBase table) (16 * i)
  stored : ∀ array, table = some array →
    Stored cpu.mem 16 (capDataTableBase table).address array.entries

/-- Bounds and permissions are the same. -/
structure SameBounds (c g : Cap) : Prop where
  base : c.base = g.base
  length : c.length = g.length
  perms : c.perms = g.perms

/-- The capability that was asked for, except perhaps for its tag. -/
structure Agrees (c g : Cap) : Prop extends SameBounds c g where
  address : c.address = g.address

section Loads

variable {cheri : Intrinsics} {allocate : Nat → Cap}
  {baseOffset : FieldOffset} {s : State} {cpu : Cpu}

theorem Faithful.base_eq (faithful : Faithful allocate baseOffset s)
    (some : s.ids ≠ []) :
    capDataTableBase s.table = allocate capDataTableCapacity := by
  obtain ⟨array, created⟩ := Option.isSome_iff_exists.mp (faithful.used some)
  obtain ⟨⟨g, id⟩, member⟩ := List.exists_mem_of_ne_nil _ some
  obtain ⟨positive, below⟩ := (faithful.numbered.id_iff id).mp ⟨g, member⟩
  have data := faithful.fixed.data
  rw [created] at below data
  have nonempty : array.entries ≠ [] := by
    rintro empty
    have none : array.entries.length = 0 := by rw [empty]; rfl
    have below' : id ≤ array.entries.length := below
    omega
  rw [created, capDataTableBase, if_neg nonempty]
  exact data

theorem Faithful.run_loadEntry (faithful : Faithful allocate baseOffset s)
    (seeded : Seeded baseOffset s.table cpu) {g : Cap} {id : Nat}
    (member : (g, id) ∈ s.ids) {dst : Register} (gpr : dst.IsGpr) :
    ∃ cpu' c, Morello.run cheri (loadEntry baseOffset dst id) cpu =
        some cpu' ∧
      cpu'.read dst = c ∧
      first Cap.address (s.ids.map Prod.fst) g.address = some c := by
  obtain ⟨c, there, found⟩ := faithful.numbered.entry member
  obtain ⟨positive, below⟩ := (faithful.numbered.id_iff id).mp ⟨g, member⟩
  have fits := faithful.fixed.fits
  obtain ⟨array, created⟩ := Option.isSome_iff_exists.mp
    (faithful.used (List.ne_nil_of_mem member))
  have entry : cpu.mem ((capDataTableBase s.table).address + 16 * (id - 1)) =
      c := by
    rw [created] at there
    exact seeded.stored array created (id - 1) c there
  have based : cpu.load rthread baseOffset.bytes =
      some (capDataTableBase s.table) := by
    rw [Cpu.load_reaches seeded.thread, seeded.base]
  have first : (Code.emit (capLdrImm dst rthread baseOffset.bytes)).exec cheri
      cpu = some (cpu.write dst (capDataTableBase s.table)) :=
    exec_loadField cpu gpr (Register.isGpr_c 28) based
  have here : (cpu.write dst (capDataTableBase s.table)).read dst =
      capDataTableBase s.table := Cpu.read_write_self _ _ gpr.ne_zr
  have small : id - 1 < capDataTableCapacity := by omega
  have capacity : capDataTableCapacity = 1024 := rfl
  have encodable : memOffset (((id : Int) - 1) * 16) =
      ((16 * (id - 1) : Nat) : Int) := by
    rw [(memOffset_eq_iff _).mpr (.inl ⟨by omega, by omega, by omega⟩)]
    omega
  have second : (Code.emit (capLdrImm dst dst (((id : Int) - 1) * 16))).exec
      cheri (cpu.write dst (capDataTableBase s.table)) = _ :=
    exec_capLdrImm_slot _ gpr gpr encodable
      (by rw [here]; exact seeded.covers _ small)
  rw [here, Cpu.write_mem, entry, Cpu.write_write] at second
  exact ⟨_, c, (run_cons first _).trans (run_cons second []),
    Cpu.read_write_self _ _ gpr.ne_zr, found⟩

end Loads

/-- The base stays the same from the first registration on, the numbers are
dense and stand for addresses, and the code for a request loads a capability
with its bounds and permissions exactly if the first one that was registered
with its address has them. -/
theorem data_table_loads_iff {cheri : Intrinsics} {allocate : Nat → Cap}
    {baseOffset : FieldOffset} {requests : List Request}
    (few : ((requests.map Request.global).map Cap.address).toFinset.card ≤
      capDataTableCapacity) :
    ∃ s, Request.run allocate baseOffset requests .start = some s ∧
      (∀ earlier s', earlier <+: requests → earlier ≠ [] →
        Request.run allocate baseOffset earlier .start = some s' →
        capDataTableBase s.table = capDataTableBase s'.table) ∧
      (∀ g h i j, (g, i) ∈ s.ids → (h, j) ∈ s.ids →
        (i = j ↔ g.address = h.address)) ∧
      (∀ id, (∃ g, (g, id) ∈ s.ids) ↔
        1 ≤ id ∧ id ≤ (s.table.created allocate).entries.length) ∧
      ∀ r code, (r, code) ∈ s.sites → r.dst.IsGpr → ∀ cpu,
        Seeded baseOffset s.table cpu →
        ∃ cpu', run cheri code cpu = some cpu' ∧
          (Agrees (cpu'.read r.dst) r.global ↔
            ∀ c, first Cap.address (requests.map Request.global)
              r.global.address = some c → SameBounds c r.global) := by
  have start : Faithful allocate baseOffset State.start := .start
  obtain ⟨s, ran, faithful, ids⟩ := start.run requests few
  refine ⟨s, ran, ?_, fun g h i j => faithful.numbered.id_eq_iff,
    faithful.numbered.id_iff, ?_⟩
  · intro earlier s' part some ranEarlier
    have fewer : ((earlier.map Request.global).map
        Cap.address).toFinset.card ≤ capDataTableCapacity := by
      refine (Finset.card_le_card ?_).trans few
      intro a member
      rw [List.mem_toFinset] at member ⊢
      exact (part.map _).map _ |>.subset member
    obtain ⟨s'', ran', faithful', ids'⟩ := start.run earlier fewer
    obtain rfl : s' = s'' := Option.some.inj (ranEarlier.symm.trans ran')
    have nonempty : ∀ {ids : List (Cap × Nat)} {rs : List Request}, rs ≠ [] →
        ids.map Prod.fst = [] ++ rs.map Request.global → ids ≠ [] := by
      rintro _ rs used same rfl
      rw [List.nil_append, List.map_nil] at same
      exact used (List.map_eq_nil_iff.mp same.symm)
    rw [faithful.base_eq (nonempty (part.ne_nil some) ids),
      faithful'.base_eq (nonempty some ids')]
  · intro r code member gpr cpu seeded
    obtain ⟨id, issued, rfl⟩ := faithful.sites r code member
    obtain ⟨cpu', c, ranCode, loaded, found⟩ :=
      faithful.run_loadEntry seeded issued gpr
    rw [ids] at found
    refine ⟨cpu', ranCode, ?_⟩
    rw [loaded]
    constructor
    · intro agrees c' found'
      obtain rfl : c = c' := Option.some.inj (found.symm.trans found')
      exact agrees.toSameBounds
    · intro bounds
      exact ⟨bounds c found, first_key found⟩

/-- A global and its first member, which has the same address. -/
def sampleGlobal (length : Nat) : Cap :=
  { tag := true
    base := 2 ^ 21
    length := length
    address := 2 ^ 21
    perms := { swVmem := false, rest := 1 } }

def sampleRequests : List Request :=
  [⟨.c 0, sampleGlobal 64⟩, ⟨.c 1, sampleGlobal 8⟩]

def sampleAllocate (n : Nat) : Cap :=
  { tag := true
    base := 2 ^ 20
    length := 16 * n
    address := 2 ^ 20
    perms := { swVmem := false, rest := 1 } }

def sampleOffset : FieldOffset := ⟨528, by decide, by decide⟩

def sampleState : State where
  table := some ⟨sampleAllocate 1024, 1024, [sampleGlobal 64]⟩
  ids := [(sampleGlobal 64, 1), (sampleGlobal 8, 1)]
  sites := [(⟨.c 0, sampleGlobal 64⟩, loadEntry sampleOffset (.c 0) 1),
    (⟨.c 1, sampleGlobal 8⟩, loadEntry sampleOffset (.c 1) 1)]

theorem sampleRequests_run :
    Request.run sampleAllocate sampleOffset sampleRequests .start =
      some sampleState := rfl

def sampleCpu : Cpu where
  reg := fun _ =>
    { tag := true
      base := 2 ^ 16
      length := 4096
      address := 2 ^ 16
      perms := { swVmem := false, rest := 1 } }
  csp := Cap.null
  mem := fun a =>
    if a = 2 ^ 16 + 528 then sampleAllocate 1024 else sampleGlobal 64
  data := fun _ => 0
  flags := ⟨false, false, false, false⟩

theorem sampleCpu_seeded : Seeded sampleOffset sampleState.table sampleCpu where
  thread := ⟨by decide, by decide, by decide, by decide, by decide⟩
  base := by decide
  covers := by
    intro i below
    have capacity : capDataTableCapacity = 1024 := rfl
    change Reaches (sampleAllocate 1024) (16 * i)
    constructor <;> simp only [sampleAllocate, addressSpace] <;> omega
  stored := by
    intro array created
    cases created
    exact stored_cons_iff.mpr ⟨by decide, .nil⟩

/-- The code for the global loads its capability, though the member is
registered as well. -/
theorem data_table_loads_iff_sample :
    ∃ s code cpu', Request.run sampleAllocate sampleOffset sampleRequests
        .start = some s ∧
      (⟨.c 0, sampleGlobal 64⟩, code) ∈ s.sites ∧
      Morello.run Intrinsics.exact code sampleCpu = some cpu' ∧
      Agrees (cpu'.read (.c 0)) (sampleGlobal 64) := by
  obtain ⟨s, ran, -, -, -, loads⟩ :=
    @data_table_loads_iff Intrinsics.exact sampleAllocate sampleOffset
      sampleRequests (by decide)
  obtain rfl : s = sampleState :=
    Option.some.inj (ran.symm.trans sampleRequests_run)
  have member : (⟨.c 0, sampleGlobal 64⟩, loadEntry sampleOffset (.c 0) 1) ∈
      sampleState.sites := by decide
  obtain ⟨cpu', ranCode, agrees⟩ :=
    loads _ _ member (Register.isGpr_c 0) sampleCpu sampleCpu_seeded
  refine ⟨_, _, cpu', ran, member, ranCode, agrees.mpr ?_⟩
  intro c found
  have registered : first Cap.address (sampleRequests.map Request.global)
      (sampleGlobal 64).address = some (sampleGlobal 64) := by decide
  obtain rfl : sampleGlobal 64 = c :=
    Option.some.inj (registered.symm.trans found)
  exact ⟨rfl, rfl, rfl⟩

/-- The code for the member loads the capability of the whole global. -/
theorem data_table_confuses_bounds :
    ∃ s, Request.run sampleAllocate sampleOffset sampleRequests .start =
        some s ∧
      ¬ ∀ r code, (r, code) ∈ s.sites → ∀ cpu,
        Seeded sampleOffset s.table cpu →
        ∃ cpu', Morello.run Intrinsics.exact code cpu = some cpu' ∧
          Agrees (cpu'.read r.dst) r.global := by
  refine ⟨sampleState, sampleRequests_run, ?_⟩
  intro loads
  obtain ⟨cpu', ran, agrees⟩ := loads ⟨.c 1, sampleGlobal 8⟩
    (loadEntry sampleOffset (.c 1) 1) (by decide) sampleCpu sampleCpu_seeded
  have start : Faithful sampleAllocate sampleOffset State.start := .start
  obtain ⟨s, ranRequests, faithful, -⟩ := start.run sampleRequests (by decide)
  obtain rfl : s = sampleState :=
    Option.some.inj (ranRequests.symm.trans sampleRequests_run)
  obtain ⟨cpu'', c, ran', loaded, found⟩ :=
    faithful.run_loadEntry sampleCpu_seeded
      (by decide : (sampleGlobal 8, 1) ∈ sampleState.ids) (Register.isGpr_c 1)
  obtain rfl : cpu' = cpu'' := Option.some.inj (ran.symm.trans ran')
  have registered : first Cap.address (sampleState.ids.map Prod.fst)
      (sampleGlobal 8).address = some (sampleGlobal 64) := by decide
  obtain rfl : sampleGlobal 64 = c :=
    Option.some.inj (registered.symm.trans found)
  have length := agrees.length
  rw [loaded] at length
  exact absurd length (by decide)

end DataTable

end Morello

end StoplessGC
