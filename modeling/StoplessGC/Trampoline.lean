import StoplessGC.MachineCode
import StoplessGC.Foundation.InternTable

/-!
# Calls of runtime functions through the trampoline

Code in the code cache cannot branch to a function of the runtime.  When such a
call is generated, the function is entered into a table and its 1-based number
goes into the code, which then branches to `cap_trampoline_dispatch` through a
capability in the thread.
-/

namespace StoplessGC

namespace Morello

namespace Trampoline

open InternTable

/-- `as_Register(i)` -/
def asRegister (i : Nat) : Register := .c (Fin.ofNat 31 i)

abbrev rscratch1 : Register := .c 8
abbrev rmethod : Register := .c 12
abbrev rthread : Register := .c 28

/-- `_cap_tramp_fn_table`, which is null before its first use. -/
abbrev FnTable := Option (List Cap)

/-- `cap_trampoline_id_for`.  Function pointers are compared by address.  The
length of a `GrowableArray` is an `int`, and it does not grow beyond. -/
def capTrampolineIdFor (table : FnTable) (fn : Cap) : Option (Nat × FnTable) :=
  let entries := table.getD []
  match entries.findIdx? fun f => decide (f.address = fn.address) with
  | some i => some (i + 1, some entries)
  | none =>
      if entries.length + 1 < 2 ^ 31 then
        some (entries.length + 1, some (entries ++ [fn]))
      else none

/-- The function that `cap_trampoline_dispatch` calls; `none` stands for the
call of `abort`. -/
def capTrampolineDispatch (table : FnTable) (fnId : Int) : Option Cap :=
  match table with
  | none => none
  | some entries =>
      if fnId < 1 ∨ entries.length < fnId then none
      else entries[(fnId - 1).toNat]?

/-- The moves for `i` from `n - 1` down to 0. -/
def shift : Nat → List Code
  | 0 => []
  | n + 1 => movRegister (asRegister (n + 1)) (asRegister n) :: shift n

/-- The code in front of the branch. -/
def callSite (trampolineOffset : FieldOffset) (fnId : Nat) : List Code :=
  .stock (.stpXPre rscratch1 rmethod .sp (-2 * 16)) :: shift 5 ++
    [.stock (.movW (asRegister 0) fnId),
      .emit (capLdrImm rscratch1 rthread trampolineOffset.bytes)]

/-- `MacroAssembler::call_VM_leaf_base`, with the number that is used;
`none` stands for a failed guarantee. -/
def callVMLeafBase (trampolineOffset : FieldOffset) (table : FnTable)
    (entryPoint : Cap) (numberOfArguments : Nat) :
    Option (Nat × List Code × FnTable) :=
  if numberOfArguments ≤ 4 then do
    let (fnId, table) ← capTrampolineIdFor table entryPoint
    some (fnId, callSite trampolineOffset fnId, table)
  else none

/-- What the functions of the runtime do: from the function that is called, its
arguments and memory to the result and memory. -/
abbrev Callees := Cap → (Fin 5 → Cap) → (Nat → Cap) → Option (Cap × (Nat → Cap))

/-- `cap_blr(rscratch1)`.  An `int` argument is in the low word. -/
def capBlr (callees : Callees) (dispatch : Cap) (table : FnTable) (cpu : Cpu) :
    Option (Cap × (Nat → Cap)) :=
  if cpu.read rscratch1 = dispatch then do
    let f ← capTrampolineDispatch table
      (BitFields.signed 32 ((cpu.read (asRegister 0)).address % 2 ^ 32))
    callees f (fun i => cpu.read (asRegister (i + 1))) cpu.mem
  else
    callees (cpu.read rscratch1) (fun i => cpu.read (asRegister i)) cpu.mem

/-- Execution of a call site up to the return. -/
def call (cheri : Intrinsics) (callees : Callees) (dispatch : Cap)
    (table : FnTable) (code : List Code) (cpu : Cpu) :
    Option (Cap × (Nat → Cap)) := do
  let cpu' ← Morello.run cheri code cpu
  capBlr callees dispatch table cpu'

/-- The call that the trampoline replaces: a branch to the function itself. -/
def directCall (cheri : Intrinsics) (callees : Callees) (f : Cap) (cpu : Cpu) :
    Option (Cap × (Nat → Cap)) := do
  let cpu' ← Morello.run cheri
    [.stock (.stpXPre rscratch1 rmethod .sp (-2 * 16))] cpu
  callees f (fun i => cpu'.read (asRegister i)) cpu'.mem

/-- What happens while code is generated. -/
inductive Event (Function : Type) where
  /-- `cap_trampoline_id_for` -/
  | register (f : Function)
  /-- `call_VM_leaf_base` -/
  | emit (f : Function) (numberOfArguments : Nat)

/-- The table, the numbers that were returned and the code that was emitted,
each with its function. -/
structure State (Function : Type) where
  table : FnTable
  ids : List (Function × Nat)
  sites : List (Function × List Code)

section Events

variable {Function : Type}

def Event.function : Event Function → Function
  | register f => f
  | emit f _ => f

/-- The function of a call site that is emitted. -/
def Event.emitted : Event Function → Option Function
  | register _ => none
  | emit f _ => some f

/-- The guarantee of `call_VM_leaf_base`. -/
def Event.Guaranteed : Event Function → Prop
  | register _ => True
  | emit _ numberOfArguments => numberOfArguments ≤ 4

variable (pointer : Function → Cap) (trampolineOffset : FieldOffset)

def Event.step (s : State Function) : Event Function → Option (State Function)
  | register f => do
      let (fnId, table) ← capTrampolineIdFor s.table (pointer f)
      some { s with table := table, ids := s.ids ++ [(f, fnId)] }
  | emit f numberOfArguments => do
      let (fnId, code, table) ←
        callVMLeafBase trampolineOffset s.table (pointer f) numberOfArguments
      some
        { table := table
          ids := s.ids ++ [(f, fnId)]
          sites := s.sites ++ [(f, code)] }

def State.start : State Function := ⟨none, [], []⟩

def Event.run : List (Event Function) → State Function → Option (State Function)
  | [], s => some s
  | event :: events, s => do
      let s' ← event.step pointer trampolineOffset s
      Event.run events s'

end Events

section Table

/-- A function is found or entered, unless the `int` length is used up. -/
theorem capTrampolineIdFor_cases {table : FnTable}
    (int : (table.getD []).length < 2 ^ 31) (fn : Cap) :
    (∃ i entries, capTrampolineIdFor table fn = some (i + 1, some entries) ∧
      intern Cap.address (table.getD []) fn = (i, entries) ∧
      entries.length < 2 ^ 31) ∨
    ((table.getD []).length + 1 = 2 ^ 31 ∧
      fn.address ∉ (table.getD []).map Cap.address) := by
  unfold capTrampolineIdFor intern position
  cases found : (table.getD []).findIdx? fun f =>
      decide (f.address = fn.address) with
  | some i =>
      refine .inl ⟨i, table.getD [], ?_, rfl, int⟩
      simp only [found]
  | none =>
      by_cases fits : (table.getD []).length + 1 < 2 ^ 31
      · refine .inl ⟨_, table.getD [] ++ [fn], ?_, rfl, ?_⟩
        · simp only [found, if_pos fits]
        · rw [List.length_append]
          exact fits
      · refine .inr ⟨by omega, ?_⟩
        intro member
        obtain ⟨f, inTable, same⟩ := List.mem_map.mp member
        have missed := List.findIdx?_eq_none_iff.mp found f inTable
        exact of_decide_eq_false missed same

variable {Function : Type} {pointer : Function → Cap}
  {trampolineOffset : FieldOffset} {s s' : State Function}

/-- The numbers in the code belong to the entries of the table. -/
structure Faithful (pointer : Function → Cap) (trampolineOffset : FieldOffset)
    (s : State Function) : Prop where
  numbered : Numbered Cap.address (s.table.getD [])
    (s.ids.map fun entry => (pointer entry.1, entry.2))
  int : (s.table.getD []).length < 2 ^ 31
  created : s.ids ≠ [] → s.table.isSome
  sites : ∀ f code, (f, code) ∈ s.sites →
    ∃ id, (f, id) ∈ s.ids ∧ code = callSite trampolineOffset id

theorem Faithful.start : Faithful pointer trampolineOffset State.start where
  numbered := .nil
  int := Nat.two_pow_pos 31
  created := fun some => absurd rfl some
  sites := by
    intro f code member
    cases member

theorem Faithful.request (faithful : Faithful pointer trampolineOffset s)
    {f : Function} {i : Nat} {entries : List Cap}
    (interned : intern Cap.address (s.table.getD []) (pointer f) = (i, entries))
    (int : entries.length < 2 ^ 31) :
    Faithful pointer trampolineOffset
      { s with table := some entries, ids := s.ids ++ [(f, i + 1)] } := by
  have numbered := faithful.numbered.intern (pointer f)
  rw [interned] at numbered
  refine ⟨?_, int, fun _ => rfl, ?_⟩
  · rw [List.map_append]
    exact numbered
  · intro g code member
    obtain ⟨id, earlier, same⟩ := faithful.sites g code member
    exact ⟨id, List.mem_append_left _ earlier, same⟩

theorem Faithful.site (faithful : Faithful pointer trampolineOffset s)
    {f : Function} {id : Nat} (issued : (f, id) ∈ s.ids) :
    Faithful pointer trampolineOffset
      { s with sites := s.sites ++ [(f, callSite trampolineOffset id)] } where
  numbered := faithful.numbered
  int := faithful.int
  created := faithful.created
  sites := by
    intro g code member
    rcases List.mem_append.mp member with earlier | now
    · exact faithful.sites g code earlier
    · obtain ⟨rfl, rfl⟩ := Prod.mk.inj (List.mem_singleton.mp now)
      exact ⟨id, issued, rfl⟩

/-- A state after some events, with their functions. -/
structure After (pointer : Function → Cap) (trampolineOffset : FieldOffset)
    (s : State Function) (events : List (Event Function))
    (s' : State Function) : Prop where
  faithful : Faithful pointer trampolineOffset s'
  ids : s'.ids.map Prod.fst = s.ids.map Prod.fst ++ events.map Event.function
  sites : s'.sites.map Prod.fst =
    s.sites.map Prod.fst ++ events.filterMap Event.emitted

theorem State.pointers (s : State Function) :
    (s.ids.map fun entry => (pointer entry.1, entry.2)).map Prod.fst =
      (s.ids.map Prod.fst).map pointer := by
  rw [List.map_map, List.map_map]
  rfl

theorem Faithful.step (faithful : Faithful pointer trampolineOffset s)
    {event : Event Function} (guaranteed : event.Guaranteed) :
    (∃ s', event.step pointer trampolineOffset s = some s' ∧
      After pointer trampolineOffset s [event] s') ∨
    ((s.table.getD []).length + 1 = 2 ^ 31 ∧
      (pointer event.function).address ∉
        (s.table.getD []).map Cap.address) := by
  rcases capTrampolineIdFor_cases faithful.int (pointer event.function) with
    ⟨i, entries, found, interned, int⟩ | full
  · have kept := faithful.request interned int
    cases event with
    | register f =>
        refine .inl ⟨_, ?_, kept, ?_, ?_⟩
        · exact Option.bind_eq_some_iff.mpr ⟨_, found, rfl⟩
        · rw [List.map_append]
          rfl
        · exact (List.append_nil _).symm
    | emit f numberOfArguments =>
        have issued : (f, i + 1) ∈ s.ids ++ [(f, i + 1)] :=
          List.mem_append_right _ (List.mem_singleton.mpr rfl)
        refine .inl ⟨_, ?_, kept.site issued, ?_, ?_⟩
        · have within : numberOfArguments ≤ 4 := guaranteed
          have emits : callVMLeafBase trampolineOffset s.table (pointer f)
              numberOfArguments = some
                (i + 1, callSite trampolineOffset (i + 1), some entries) := by
            rw [callVMLeafBase, if_pos within]
            exact Option.bind_eq_some_iff.mpr ⟨_, found, rfl⟩
          exact Option.bind_eq_some_iff.mpr ⟨_, emits, rfl⟩
        · rw [List.map_append]
          rfl
        · rw [List.map_append]
          rfl
  · exact .inr full

theorem After.trans {s' : State Function} {event : Event Function}
    {events : List (Event Function)} {s'' : State Function}
    (first : After pointer trampolineOffset s [event] s')
    (rest : After pointer trampolineOffset s' events s'') :
    After pointer trampolineOffset s (event :: events) s'' where
  faithful := rest.faithful
  ids := by
    rw [rest.ids, first.ids, List.append_assoc]
    rfl
  sites := by
    rw [rest.sites, first.sites, List.append_assoc, ← List.filterMap_append]
    rfl

theorem Faithful.run {events : List (Event Function)}
    (guaranteed : ∀ event ∈ events, event.Guaranteed)
    (faithful : Faithful pointer trampolineOffset s)
    (few : (((s.ids.map Prod.fst ++ events.map Event.function).map
      pointer).map Cap.address).toFinset.card < 2 ^ 31) :
    ∃ s', Event.run pointer trampolineOffset events s = some s' ∧
      After pointer trampolineOffset s events s' := by
  induction events generalizing s with
  | nil =>
      exact ⟨s, rfl, faithful, (List.append_nil _).symm,
        (List.append_nil _).symm⟩
  | cons event events ih =>
      rcases faithful.step (guaranteed event List.mem_cons_self) with
        ⟨next, first, after⟩ | ⟨full, new⟩
      · have rest : next.ids.map Prod.fst ++ events.map Event.function =
            s.ids.map Prod.fst ++ (event :: events).map Event.function := by
          rw [after.ids, List.append_assoc]
          rfl
        obtain ⟨s', ran, later⟩ := ih
          (fun event member => guaranteed event (List.mem_cons_of_mem _ member))
          after.faithful (by rw [rest]; exact few)
        refine ⟨s', ?_, after.trans later⟩
        rw [Event.run, first]
        exact ran
      · have larger := faithful.numbered.length_lt new
          ((events.map Event.function).map pointer)
        rw [State.pointers] at larger
        rw [List.map_append, List.map_cons, List.map_cons] at few
        have exceeded := Nat.lt_of_le_of_lt larger few
        omega

section Ids

variable (distinct : ∀ f g, (pointer f).address = (pointer g).address → f = g)
  (faithful : Faithful pointer trampolineOffset s)

theorem State.mem_pointers {f : Function} {id : Nat}
    (member : (f, id) ∈ s.ids) :
    (pointer f, id) ∈ s.ids.map fun entry => (pointer entry.1, entry.2) :=
  List.mem_map.mpr ⟨(f, id), member, rfl⟩

include faithful

theorem Faithful.id_iff (id : Nat) :
    (∃ f, (f, id) ∈ s.ids) ↔ 1 ≤ id ∧ id ≤ (s.table.getD []).length := by
  rw [← faithful.numbered.id_iff id]
  constructor
  · rintro ⟨f, member⟩
    exact ⟨pointer f, State.mem_pointers member⟩
  · rintro ⟨c, member⟩
    obtain ⟨⟨f, id'⟩, there, same⟩ := List.mem_map.mp member
    obtain ⟨-, rfl⟩ := Prod.mk.inj same
    exact ⟨f, there⟩

include distinct

theorem Faithful.id_eq_iff {f g : Function} {i j : Nat}
    (left : (f, i) ∈ s.ids) (right : (g, j) ∈ s.ids) : i = j ↔ f = g := by
  rw [faithful.numbered.id_eq_iff (State.mem_pointers left)
    (State.mem_pointers right)]
  exact ⟨distinct f g, fun same => by rw [same]⟩

theorem Faithful.dispatch {f : Function} {id : Nat}
    (member : (f, id) ∈ s.ids) :
    capTrampolineDispatch s.table id = some (pointer f) := by
  obtain ⟨positive, below⟩ := (faithful.id_iff id).mp ⟨f, member⟩
  obtain ⟨entries, created⟩ := Option.isSome_iff_exists.mp
    (faithful.created (List.ne_nil_of_mem member))
  obtain ⟨c, there, found⟩ :=
    faithful.numbered.entry (State.mem_pointers member)
  rw [created, Option.getD_some] at there below
  -- The entry is the pointer of some function, and of `f` by its address.
  have same := first_key found
  obtain ⟨⟨c', i⟩, asked, rfl⟩ :=
    List.mem_map.mp (List.mem_of_find?_eq_some found)
  obtain ⟨⟨g, j⟩, -, which⟩ := List.mem_map.mp asked
  obtain ⟨rfl, -⟩ := Prod.mk.inj which
  obtain rfl := distinct g f same
  have position : ((id : Int) - 1).toNat = id - 1 := by omega
  rw [created, capTrampolineDispatch, if_neg (by omega), position, there]

end Ids

end Table

section Shift

variable {cheri : Intrinsics}

theorem asRegister_gpr (i : Nat) : (asRegister i).IsGpr := Register.isGpr_c _

theorem asRegister_injective {i j : Nat} (smallI : i < 31) (smallJ : j < 31)
    (same : asRegister i = asRegister j) : i = j := by
  have values := congrArg Fin.val (Register.c.inj same)
  simpa [Fin.ofNat, Nat.mod_eq_of_lt smallI, Nat.mod_eq_of_lt smallJ]
    using values

/-- From the top down, each register is read before it is written. -/
theorem run_shift {n : Nat} (small : n < 30) (rest : List Code) (cpu : Cpu) :
    ∃ cpu', Morello.run cheri (shift n ++ rest) cpu =
        Morello.run cheri rest cpu' ∧
      (∀ j, j < n → cpu'.read (asRegister (j + 1)) = cpu.read (asRegister j)) ∧
      (∀ r, (∀ j, j < n → r ≠ asRegister (j + 1)) → cpu'.read r = cpu.read r) ∧
      cpu'.mem = cpu.mem := by
  induction n generalizing cpu with
  | zero =>
      exact ⟨cpu, rfl, fun j below => absurd below (Nat.not_lt_zero j),
        fun _ _ => rfl, rfl⟩
  | succ n ih =>
      have real : asRegister (n + 1) ≠ .zr := (asRegister_gpr (n + 1)).ne_zr
      have moved : (movRegister (asRegister (n + 1)) (asRegister n)).exec cheri
          cpu = some (cpu.write (asRegister (n + 1)) (cpu.read (asRegister n))) :=
        exec_movRegister cpu (asRegister_gpr (n + 1)) (asRegister_gpr n)
      have apart : ∀ j, j ≤ n → asRegister j ≠ asRegister (n + 1) := by
        intro j below same
        have values := asRegister_injective (by omega) (by omega) same
        omega
      obtain ⟨cpu', ran, shifted, kept, mem⟩ := ih (Nat.lt_of_succ_lt small)
        (cpu.write (asRegister (n + 1)) (cpu.read (asRegister n)))
      refine ⟨cpu', (run_cons moved _).trans ran, ?_, ?_, ?_⟩
      · intro j below
        rcases Nat.lt_succ_iff_lt_or_eq.mp below with lower | rfl
        · rw [shifted j lower, Cpu.read_write_of_ne _ _ (apart j lower.le)]
        · rw [kept _ fun k lower => (apart (k + 1) lower).symm,
            Cpu.read_write_self _ _ real]
      · intro r others
        rw [kept r fun j below => others j (Nat.lt_succ_of_lt below),
          Cpu.read_write_of_ne _ _ (others n (Nat.lt_succ_self n))]
      · rw [mem, Cpu.write_mem]

end Shift

/-- The place on the stack that the site uses. -/
def savedSlot (cpu : Cpu) : Nat := offsetBy (cpu.read .sp) (-2 * 16)

/-- A state in which a call site may run. -/
structure Ready (trampolineOffset : FieldOffset) (dispatch : Cap) (cpu : Cpu) :
    Prop where
  thread : Reaches (cpu.read rthread) trampolineOffset.bytes
  seeded : cpu.mem ((cpu.read rthread).address + trampolineOffset.bytes) =
    dispatch
  stack : Accessible (cpu.read .sp) (savedSlot cpu) 16
  apart : (cpu.read rthread).address + trampolineOffset.bytes ≠ savedSlot cpu

section Calls

variable {cheri : Intrinsics} {trampolineOffset : FieldOffset}
  {dispatch : Cap} {cpu : Cpu}

/-- Both calls save the same registers first. -/
def saved (cheri : Intrinsics) (cpu : Cpu) : Cpu :=
  (cpu.setMem (savedSlot cpu)
    (packed (cpu.read rscratch1).address (cpu.read rmethod).address)).write .sp
      (moveBy cheri (cpu.read .sp) (-2 * 16))

theorem Ready.exec_saved (ready : Ready trampolineOffset dispatch cpu) :
    (Code.stock (.stpXPre rscratch1 rmethod .sp (-2 * 16))).exec cheri cpu =
      some (saved cheri cpu) := by
  have stored := Cpu.store_at rfl ready.stack
    (packed (cpu.read rscratch1).address (cpu.read rmethod).address)
  simp only [Code.exec, Instr.exec, stored]
  rfl

theorem read_saved {r : Register} (other : r ≠ .sp) :
    (saved cheri cpu).read r = cpu.read r := by
  rw [saved, Cpu.read_write_of_ne _ _ other, Cpu.read_setMem]

variable (cheri) in
theorem Ready.run_callSite (ready : Ready trampolineOffset dispatch cpu)
    {id : Nat} (small : id < 2 ^ 32) :
    ∃ cpu', Morello.run cheri (callSite trampolineOffset id) cpu = some cpu' ∧
      cpu'.read rscratch1 = dispatch ∧
      cpu'.read (asRegister 0) = Cap.ofInt id ∧
      (∀ j, j < 5 → cpu'.read (asRegister (j + 1)) =
        cpu.read (asRegister j)) ∧
      cpu'.mem = (saved cheri cpu).mem := by
  have word : id < addressSpace := Nat.lt_trans small (by decide)
  obtain ⟨shifted, ran, arguments, kept, mem⟩ :=
    @run_shift cheri 5 (by decide)
      [.stock (.movW (asRegister 0) id),
        .emit (capLdrImm rscratch1 rthread trampolineOffset.bytes)]
      (saved cheri cpu)
  have numbered : (Code.stock (.movW (asRegister 0) id)).exec cheri shifted =
      some (shifted.writeX (asRegister 0) id) := by
    simp only [Code.exec, Instr.exec, Nat.mod_eq_of_lt small]
  have thread : (shifted.writeX (asRegister 0) id).read rthread =
      cpu.read rthread := by
    rw [Cpu.writeX, Cpu.read_write_of_ne _ _ (by decide),
      kept rthread (by decide), read_saved (by decide)]
  have mem' : (shifted.writeX (asRegister 0) id).mem =
      (saved cheri cpu).mem := by
    rw [Cpu.writeX, Cpu.write_mem, mem]
  have loaded : (shifted.writeX (asRegister 0) id).load rthread
      trampolineOffset.bytes = some dispatch := by
    rw [Cpu.load_reaches (by rw [thread]; exact ready.thread), thread, mem',
      saved, Cpu.write_mem, Cpu.setMem_mem,
      Function.update_of_ne ready.apart, ready.seeded]
  have fetched : (Code.emit (capLdrImm rscratch1 rthread
      trampolineOffset.bytes)).exec cheri (shifted.writeX (asRegister 0) id) =
        some ((shifted.writeX (asRegister 0) id).write rscratch1 dispatch) :=
    exec_loadField _ (Register.isGpr_c 8) (Register.isGpr_c 28) loaded
  refine ⟨_, (run_cons ready.exec_saved _).trans (ran.trans
    ((run_cons numbered _).trans (run_cons fetched []))), ?_, ?_, ?_, ?_⟩
  · exact Cpu.read_write_self _ _ (by decide)
  · rw [Cpu.read_write_of_ne _ _ (by decide)]
    exact Cpu.read_writeX_self _ (by decide) word
  · intro j below
    have notScratch : ∀ j, j < 5 → asRegister (j + 1) ≠ rscratch1 := by
      decide
    have notFirst : ∀ j, j < 5 → asRegister (j + 1) ≠ asRegister 0 := by
      decide
    have notSp : asRegister j ≠ .sp := (asRegister_gpr j).ne_sp
    rw [Cpu.read_write_of_ne _ _ (notScratch j below), Cpu.writeX,
      Cpu.read_write_of_ne _ _ (notFirst j below), arguments j below,
      read_saved notSp]
  · rw [Cpu.write_mem, mem']

theorem Ready.call_eq (ready : Ready trampolineOffset dispatch cpu)
    (callees : Callees) {table : FnTable} {id : Nat} {f : Cap}
    (small : id < 2 ^ 31) (found : capTrampolineDispatch table id = some f) :
    call cheri callees dispatch table (callSite trampolineOffset id) cpu =
      directCall cheri callees f cpu := by
  obtain ⟨cpu', ran, target, number, arguments, mem⟩ :=
    ready.run_callSite cheri (Nat.lt_trans small (by decide))
  have argument : (BitFields.signed 32
      ((cpu'.read (asRegister 0)).address % 2 ^ 32)) = id := by
    rw [number, Cap.ofInt_address,
      Nat.mod_eq_of_lt (Nat.lt_trans small (by decide)), BitFields.signed,
      if_pos small]
  have saves : Morello.run cheri
      [.stock (.stpXPre rscratch1 rmethod .sp (-2 * 16))] cpu =
        some (saved cheri cpu) := run_cons ready.exec_saved []
  have same : (fun i : Fin 5 => cpu'.read (asRegister (i + 1))) =
      fun i : Fin 5 => (saved cheri cpu).read (asRegister i) := by
    funext i
    have notSp : asRegister i ≠ .sp := (asRegister_gpr i).ne_sp
    rw [arguments i i.isLt, read_saved notSp]
  simp only [call, directCall, ran, saves, Option.bind_eq_bind,
    Option.bind_some, capBlr, if_pos target, argument, found, same, mem]

end Calls

/-- Registrations and emissions go through.  Whatever is registered or emitted
later, a call site calls its function with the arguments and the result of a
direct call.  The numbers are dense and belong to the functions. -/
theorem trampolined_calls_direct {cheri : Intrinsics} {Function : Type}
    {pointer : Function → Cap} {trampolineOffset : FieldOffset}
    (distinct : ∀ f g, (pointer f).address = (pointer g).address → f = g)
    {events : List (Event Function)}
    (guaranteed : ∀ event ∈ events, event.Guaranteed)
    (few : (((events.map Event.function).map pointer).map
      Cap.address).toFinset.card < 2 ^ 31) :
    ∃ s, Event.run pointer trampolineOffset events .start = some s ∧
    s.ids.map Prod.fst = events.map Event.function ∧
    s.sites.map Prod.fst = events.filterMap Event.emitted ∧
    (∀ f code, (f, code) ∈ s.sites →
      ∀ (callees : Callees) (dispatch : Cap) (cpu : Cpu),
        Ready trampolineOffset dispatch cpu →
        call cheri callees dispatch s.table code cpu =
          directCall cheri callees (pointer f) cpu) ∧
    (∀ f id, (f, id) ∈ s.ids →
      capTrampolineDispatch s.table id = some (pointer f)) ∧
    (∀ f g i j, (f, i) ∈ s.ids → (g, j) ∈ s.ids → (i = j ↔ f = g)) ∧
    ∀ id, (∃ f, (f, id) ∈ s.ids) ↔ 1 ≤ id ∧ id ≤ (s.table.getD []).length := by
  have start : Faithful pointer trampolineOffset State.start := .start
  obtain ⟨s, ran, faithful, ids, sites⟩ := start.run guaranteed few
  refine ⟨s, ran, ids, sites, ?_, fun f id => faithful.dispatch distinct,
    fun f g i j => faithful.id_eq_iff distinct, faithful.id_iff⟩
  intro f code member callees dispatch cpu ready
  obtain ⟨id, issued, rfl⟩ := faithful.sites f code member
  have small := ((faithful.id_iff id).mp ⟨f, issued⟩).2
  have int := faithful.int
  exact ready.call_eq callees (Nat.lt_of_le_of_lt small int)
    (faithful.dispatch distinct issued)

/-- Two functions, one of them registered twice. -/
def samplePointer (f : Bool) : Cap :=
  { tag := true
    base := 2 ^ 20
    length := 2 ^ 20
    address := if f then 2 ^ 20 + 65 else 2 ^ 20 + 129
    perms := { swVmem := false, rest := 1 } }

def sampleOffset : FieldOffset := ⟨512, by decide, by decide⟩

def sampleEvents : List (Event Bool) :=
  [.register true, .emit false 2, .emit true 4]

def sampleDispatch : Cap := samplePointer true

/-- A thread at 2^16 and a stack below it. -/
def sampleCpu : Cpu where
  reg := fun i =>
    { tag := true
      base := 2 ^ 16
      length := 4096
      address := if i = 28 then 2 ^ 16 else 2 ^ 16 + i
      perms := { swVmem := false, rest := 1 } }
  csp :=
    { tag := true
      base := 0
      length := 2 ^ 15
      address := 2 ^ 15
      perms := { swVmem := false, rest := 1 } }
  mem := fun a => if a = 2 ^ 16 + 512 then sampleDispatch else Cap.null
  data := fun _ => 0
  flags := ⟨false, false, false, false⟩

theorem sampleCpu_ready : Ready sampleOffset sampleDispatch sampleCpu where
  thread := ⟨by decide, by decide, by decide, by decide, by decide⟩
  seeded := by decide
  stack := by decide
  apart := by decide

/-- A function that returns its second argument. -/
def sampleCallees : Callees := fun _ arguments mem => some (arguments 1, mem)

theorem trampolined_calls_direct_sample :
    ∃ s code, Event.run samplePointer sampleOffset sampleEvents .start = some s ∧
      (true, code) ∈ s.sites ∧
      call Intrinsics.exact sampleCallees sampleDispatch s.table code
        sampleCpu =
        directCall Intrinsics.exact sampleCallees (samplePointer true)
          sampleCpu := by
  have guaranteed : ∀ event ∈ sampleEvents, event.Guaranteed := by
    intro event member
    simp only [sampleEvents, List.mem_cons, List.not_mem_nil, or_false] at member
    rcases member with rfl | rfl | rfl <;> simp [Event.Guaranteed]
  obtain ⟨s, ran, -, sites, calls, -⟩ :=
    @trampolined_calls_direct Intrinsics.exact _ samplePointer sampleOffset
      (by decide) sampleEvents guaranteed (by decide)
  obtain ⟨⟨f, code⟩, member, rfl⟩ : ∃ site ∈ s.sites, site.1 = true := by
    apply List.mem_map.mp
    rw [sites]
    decide
  exact ⟨s, code, ran, member, calls true code member sampleCallees
    sampleDispatch sampleCpu sampleCpu_ready⟩

end Trampoline

end Morello

end StoplessGC
