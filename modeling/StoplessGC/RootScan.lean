import StoplessGC.HeapInvariant

/-!
# What a root scan does to the heap

`Visit` lists the possible effects of `do_oop` on a well-formed heap, `Visits`
those of `scan_roots`.  Both are derived from the code once; the invariants of
the following modules are proved case by case over them.
-/

namespace StoplessGC

open ForwardTable Allocator Forwarding Collector

variable {cheri : Intrinsics} {arena : Arena cheri}

/-- A slot that a root scan may present: not in free arena memory, and an arena
reference in it is to the start of an object. -/
structure RootSlot (arena : Arena cheri) (m : Machine) (p : Nat) : Prop where
  place : p < arena.base.base + m.bumpOffset ∨
    arena.base.base + arena.size ≤ p
  content : ∃ c, m.mem p = .value c ∧ (isIn arena c = true → c.address = c.base)

/-- The visit of a slot gets as far as `forward_table_cas_insert`. -/
structure Reaches (arena : Arena cheri) (env : Env) (limit : Nat) (s : Scan)
    (p : Nat) (o : Cap) : Prop where
  word : s.machine.mem p = .value o
  nonnull : o.address ≠ 0
  inArena : isIn arena o = true
  unforwarded : forwardTableLookup cheri (some arena.base) s.machine.table
    o.address = none
  below : s.moved < limit
  copied : ∃ klass size, s.machine.header o = some (klass, size) ∧
    targeted env klass = true ∧ moveObject arena s.machine o size ≠ none

/-- The slot after `do_oop`. -/
def fix (env : Env) (m : Machine) (p : Nat) (c : Cap) : Machine :=
  if env.noFixup then m else m.store p (.value c)

@[simp] theorem fix_table (env : Env) (m : Machine) (p : Nat) (c : Cap) :
    (fix env m p c).table = m.table := by
  unfold fix
  split <;> rfl

@[simp] theorem fix_bumpOffset (env : Env) (m : Machine) (p : Nat) (c : Cap) :
    (fix env m p c).bumpOffset = m.bumpOffset := by
  unfold fix
  split <;> rfl

theorem fix_mem_of_ne (env : Env) (m : Machine) {p q : Nat} (c : Cap)
    (other : q ≠ p) : (fix env m p c).mem q = m.mem q := by
  unfold fix
  split
  · rfl
  · exact m.store_mem_of_ne _ other

/-- The ways in which `do_oop` returns. -/
inductive DoOop (arena : Arena cheri) (env : Env) (replies : Replies)
    (limit : Nat) (s : Scan) (p : Nat) (s' : Scan) : Prop where
  | quiet :
      s'.machine = s.machine → s'.movedFrom = s.movedFrom →
      DoOop arena env replies limit s p s'
  | fixed {o fwd : Cap} :
      s.machine.mem p = .value o → isIn arena o = true →
      forwardTableLookup cheri (some arena.base) s.machine.table o.address =
        some fwd →
      s'.machine = fix env s.machine p fwd → s'.movedFrom = s.movedFrom →
      DoOop arena env replies limit s p s'
  | inserted {o o2 : Cap} {klass : Option Klass} {size : Nat} {m : Machine}
      {table : State} {fwd : Option Cap} :
      Reaches arena env limit s p o →
      s.machine.header o = some (klass, size) →
      moveObject arena s.machine o size = some (o2, m) →
      forwardTableCasInsert cheri (some arena.base) replies.callocInsert m.table
        o.address o2 = .ok (table, fwd) →
      s'.machine = fix env { m with table := table } p (fwd.getD Cap.null) →
      s'.movedFrom = s.movedFrom ++ [o] →
      DoOop arena env replies limit s p s'

theorem fixup_machine (env : Env) (s : Scan) (p : Nat) (fwd : Option Cap) :
    (fixup env s p fwd).machine =
      fix env s.machine p (fwd.getD Cap.null) := by
  unfold fixup fix
  split <;> rfl

theorem fixup_moved (env : Env) (s : Scan) (p : Nat) (fwd : Option Cap) :
    (fixup env s p fwd).moved = s.moved := by
  unfold fixup
  split <;> rfl

theorem fixup_movedFrom (env : Env) (s : Scan) (p : Nat) (fwd : Option Cap) :
    (fixup env s p fwd).movedFrom = s.movedFrom := by
  unfold fixup
  split <;> rfl

theorem doOop_cases {env : Env} {replies : Replies} {limit : Nat} {s s' : Scan}
    {p : Nat} (ran : doOop arena env replies limit s p = .ok s') :
    DoOop arena env replies limit s p s' := by
  unfold doOop at ran
  simp only [Machine.load] at ran
  cases word : s.machine.mem p with
  | header klass size =>
      simp only [word] at ran
      cases ran
      exact .quiet rfl rfl
  | value o =>
      simp only [word] at ran
      by_cases null : o.address = 0
      · rw [if_pos null] at ran
        cases ran
        exact .quiet rfl rfl
      rw [if_neg null] at ran
      by_cases inArena : isIn arena o = true
      case neg =>
        rw [if_pos (by simpa using inArena)] at ran
        cases ran
        exact .quiet rfl rfl
      rw [if_neg (by simpa using inArena)] at ran
      cases looked : forwardTableLookup cheri (some arena.base)
          s.machine.table o.address with
      | some fwd =>
          simp only [looked] at ran
          cases ran
          exact .fixed word inArena looked (fixup_machine ..)
            (fixup_movedFrom ..)
      | none =>
          simp only [looked] at ran
          by_cases reached : limit ≤ s.moved
          · rw [if_pos reached] at ran
            cases ran
            exact .quiet rfl rfl
          rw [if_neg reached] at ran
          cases header : s.machine.header o with
          | none =>
              simp only [header] at ran
              cases ran
          | some answer =>
              obtain ⟨klass, size⟩ := answer
              simp only [header] at ran
              by_cases wanted : targeted env klass = true
              case neg =>
                rw [if_neg wanted] at ran
                cases ran
                exact .quiet rfl rfl
              rw [if_pos wanted] at ran
              unfold relocate at ran
              cases copied : moveObject arena s.machine o size with
              | none =>
                  simp only [copied] at ran
                  cases ran
                  exact .quiet rfl rfl
              | some result =>
                  obtain ⟨o2, m⟩ := result
                  simp only [copied] at ran
                  cases entered : forwardTableCasInsert cheri (some arena.base)
                      replies.callocInsert m.table o.address o2 with
                  | error reason =>
                      simp only [entered] at ran
                      cases ran
                  | ok outcome =>
                      obtain ⟨table, fwd⟩ := outcome
                      simp only [entered] at ran
                      cases ran
                      refine .inserted ?_ header copied entered
                        (fixup_machine ..) (fixup_movedFrom ..)
                      exact
                        { word := word
                          nonnull := null
                          inArena := inArena
                          unforwarded := looked
                          below := Nat.lt_of_not_le reached
                          copied := ⟨klass, size, header, wanted, by
                            rw [copied]; simp⟩ }

theorem Reaches.doOop_eq {env : Env} (replies : Replies) {limit : Nat}
    {s : Scan} {p : Nat} {o : Cap} (reaches : Reaches arena env limit s p o) :
    ∃ klass size o2 m, s.machine.header o = some (klass, size) ∧
      moveObject arena s.machine o size = some (o2, m) ∧
      doOop arena env replies limit s p = relocate arena env replies
        { s with visited := s.visited + 1 } p o size := by
  obtain ⟨klass, size, header, wanted, available⟩ := reaches.copied
  obtain ⟨⟨o2, m⟩, copied⟩ := Option.ne_none_iff_exists'.mp available
  have notReached : ¬ limit ≤ s.moved := Nat.not_le_of_lt reaches.below
  refine ⟨klass, size, o2, m, header, copied, ?_⟩
  simp only [doOop, Machine.load, reaches.word, if_neg reaches.nonnull,
    reaches.inArena, reaches.unforwarded, if_neg notReached, header,
    if_pos wanted, Bool.not_true, Bool.false_eq_true, if_false]

theorem Reaches.inserts {env : Env} {replies : Replies} {limit : Nat}
    {s s' : Scan} {p : Nat} {o : Cap}
    (reaches : Reaches arena env limit s p o)
    (ran : doOop arena env replies limit s p = .ok s') :
    ∃ klass size o2 m table fwd,
      s.machine.header o = some (klass, size) ∧
      moveObject arena s.machine o size = some (o2, m) ∧
      forwardTableCasInsert cheri (some arena.base) replies.callocInsert m.table
        o.address o2 = .ok (table, fwd) ∧
      s'.machine = fix env { m with table := table } p (fwd.getD Cap.null) ∧
      s'.movedFrom = s.movedFrom ++ [o] ∧ s'.moved = s.moved + 1 := by
  obtain ⟨klass, size, o2, m, header, copied, unfolded⟩ :=
    reaches.doOop_eq replies
  simp only [unfolded, relocate, copied] at ran
  cases entered : forwardTableCasInsert cheri (some arena.base)
      replies.callocInsert m.table o.address o2 with
  | error reason =>
      simp only [entered] at ran
      cases ran
  | ok outcome =>
      obtain ⟨table, fwd⟩ := outcome
      simp only [entered] at ran
      cases ran
      exact ⟨klass, size, o2, m, table, fwd, header, copied, entered,
        fixup_machine .., fixup_movedFrom .., fixup_moved ..⟩

/-- An insertion meets the condition in every visit of the scan that makes
one. -/
def AtInsertion (arena : Arena cheri) (env : Env) (replies : Replies)
    (limit : Nat) (roots : List Nat) (start : Scan)
    (condition : State → Nat → Prop) : Prop :=
  ∀ ⦃before after : List Nat⦄ ⦃p : Nat⦄ ⦃s : Scan⦄ ⦃o : Cap⦄,
    roots = before ++ p :: after →
    scanRoots arena env replies limit before start = .ok s →
    Reaches arena env limit s p o → condition s.machine.table o.address

/-- A copy that the visit of slot `p` makes of the object in it. -/
structure Moves (arena : Arena cheri) (ext : Extents) (m : Machine) (p : Nat)
    (o : Cap) (size start bump : Nat) : Prop where
  word : m.mem p = .value o
  based : Based arena ext o
  atStart : o.address = o.base
  tagged : o.tag = true
  header : ∃ klass, m.mem o.base = .header klass size
  sized : Sized cheri size o.length
  fresh : Fresh arena m.bumpOffset start o.length bump

/-- Memory with the copy of an object in it. -/
def copyOf (m : Machine) (o : Cap) (size start bump : Nat) : Machine :=
  ({ m with bumpOffset := bump } : Machine).copyWords o.base start size

@[simp] theorem copyOf_table (m : Machine) (o : Cap) (size start bump : Nat) :
    (copyOf m o size start bump).table = m.table :=
  Machine.copyWords_table ..

@[simp] theorem copyOf_bumpOffset (m : Machine) (o : Cap)
    (size start bump : Nat) :
    (copyOf m o size start bump).bumpOffset = bump :=
  Machine.copyWords_bumpOffset ..

@[simp] theorem copyOf_shadow (m : Machine) (o : Cap) (size start bump : Nat) :
    (copyOf m o size start bump).shadow = m.shadow :=
  Machine.copyWords_shadow ..

@[simp] theorem copyOf_regs (m : Machine) (o : Cap) (size start bump : Nat) :
    (copyOf m o size start bump).regs = m.regs :=
  Machine.copyWords_regs ..

theorem Machine.Every.copyOf {m : Machine} {P : Cap → Prop} (every : m.Every P)
    (o : Cap) (size start bump : Nat) :
    (copyOf m o size start bump).Every P := by
  have reserved : ({ m with bumpOffset := bump } : Machine).Every P :=
    ⟨every.mem, every.regs⟩
  exact reserved.copyWords ..

/-- The effects of one visit, with the objects it puts on `moved_from`.  An
object is lost when the table returns `NULL` for its copy. -/
inductive Visit (arena : Arena cheri) (env : Env) (granted : Bool)
    (lossy : Prop) (p : Nat) :
    Extents → Machine → Extents → Machine → List Cap → Prop where
  | quiet {ext : Extents} {m : Machine} :
      Visit arena env granted lossy p ext m ext m []
  | fixed {ext : Extents} {m : Machine} {o : Cap} {b : Nat} :
      m.mem p = .value o → Based arena ext o → o.address = o.base →
      ftFind m.table o.base ≠ none → Ends (ftFind m.table) o.base b →
      ext b = some o.length →
      Visit arena env granted lossy p ext m ext
        (fix env m p (objectCap arena b o.length)) []
  | moved {ext : Extents} {m : Machine} {o : Cap} {size start bump : Nat}
      {table : State} :
      Moves arena ext m p o size start bump →
      ftFind m.table o.base = none → HasRoom granted m.table → Live table →
      ftFind table = Function.update (ftFind m.table) o.base
        (some (start, o.length)) →
      Visit arena env granted lossy p ext m
        (Function.update ext start (some o.length))
        (fix env { copyOf m o size start bump with table := table } p
          (objectCap arena start o.length)) [o]
  | lost {ext : Extents} {m : Machine} {o : Cap} {size start bump : Nat}
      {table : State} :
      lossy → Moves arena ext m p o size start bump →
      forwardTableLookup cheri (some arena.base) m.table o.base = none →
      Live table → ftFind table = ftFind m.table →
      Visit arena env granted lossy p ext m
        (Function.update ext start (some o.length))
        (fix env { copyOf m o size start bump with table := table } p
          Cap.null) [o]

theorem isIn_iff {o : Cap} : isIn arena o = true ↔
    arena.base.base ≤ o.address ∧
      o.address < arena.base.base + arena.size := by
  simp [isIn, arena.atStart]

theorem Heap.based_of_root {ext : Extents} {m : Machine}
    (heap : Heap arena ext m) {p : Nat} (root : RootSlot arena m p) {o : Cap}
    (word : m.mem p = .value o) (inArena : isIn arena o = true) :
    Based arena ext o ∧ o.address = o.base := by
  obtain ⟨c, sameWord, starts⟩ := root.content
  rw [word] at sameWord
  cases sameWord
  have atStart := starts inArena
  rcases heap.caps.mem word with ⟨n, rfl⟩ | based
  · exfalso
    have positive := Nat.pos_of_ne_zero arena.nonnull
    have zero : n = 0 := atStart
    have lower : arena.base.base ≤ n := (isIn_iff.mp inArena).1
    omega
  · exact ⟨based, atStart⟩

theorem Heap.moves (laws : cheri.Laws) {ext : Extents} {m m' : Machine}
    (heap : Heap arena ext m) {p : Nat} {o copy : Cap}
    {klass : Option Klass} {size : Nat} (word : m.mem p = .value o)
    (based : Based arena ext o) (atStart : o.address = o.base)
    (header : m.header o = some (klass, size))
    (moved : moveObject arena m o size = some (copy, m')) :
    ∃ start bump, Moves arena ext m p o size start bump ∧
      copy = objectCap arena start o.length ∧
      m' = copyOf m o size start bump := by
  obtain ⟨known, n, content, sized⟩ := heap.headers based.extent
  have tagged : o.tag = true := by
    unfold Machine.header at header
    split at header
    · assumption
    · cases header
  rw [Machine.header, if_pos tagged, Machine.load, atStart, content] at header
  cases header
  have upper := heap.packed.upper based.extent
  have lower := heap.packed.lower based.extent
  have bumped := heap.packed.bump_le
  unfold moveObject at moved
  cases allocated : memAllocate arena m size with
  | none =>
      simp only [allocated] at moved
      cases moved
  | some result =>
      obtain ⟨obj, reserved⟩ := result
      have noWrap : NoWrap cheri m.bumpOffset
          (cheri.representableLength (size * heapWordSize)) := by
        apply noWrap_of_le laws arena bumped
        rw [sized.length]
        omega
      obtain ⟨start, l, bump, fresh, sameSize, rfl, rfl⟩ :=
        memAllocate_eq_some laws heap.packed sized.bytes noWrap allocated
      have sameLength : l = o.length := sameSize.length.symm.trans sized.length
      subst sameLength
      simp only [allocated] at moved
      cases moved
      refine ⟨start, bump, ?_, rfl, by rw [copyOf, atStart]; rfl⟩
      exact
        { word := word
          based := based
          atStart := atStart
          tagged := tagged
          header := ⟨klass, content⟩
          sized := sized
          fresh := fresh }

theorem Heap.copies (laws : cheri.Laws) {env : Env} {limit : Nat}
    {ext : Extents} {s : Scan} {p : Nat} {o o2 : Cap} {klass : Option Klass}
    {size : Nat} {m : Machine} (heap : Heap arena ext s.machine)
    (root : RootSlot arena s.machine p)
    (reaches : Reaches arena env limit s p o)
    (header : s.machine.header o = some (klass, size))
    (copied : moveObject arena s.machine o size = some (o2, m)) :
    ∃ start bump, Moves arena ext s.machine p o size start bump ∧
      o2 = objectCap arena start o.length ∧
      m = copyOf s.machine o size start bump ∧
      o.address = o.base ∧ o.base ≠ 0 ∧
      (objectCap arena start o.length).address ≠ 0 := by
  obtain ⟨based, atStart⟩ :=
    heap.based_of_root root reaches.word reaches.inArena
  obtain ⟨start, bump, moves, rfl, rfl⟩ :=
    heap.moves laws reaches.word based atStart header copied
  exact ⟨start, bump, moves, rfl, rfl, atStart,
    heap.packed.nonzero based.extent,
    (heap.packed.extend moves.fresh).nonzero (Function.update_self ..)⟩

theorem Heap.inserted (laws : cheri.Laws) {env : Env} {limit : Nat}
    {granted : Bool} {ext : Extents} {s : Scan} {p : Nat} {o o2 : Cap}
    {klass : Option Klass} {size : Nat} {m : Machine} {table : State}
    {fwd : Option Cap} (heap : Heap arena ext s.machine)
    (root : RootSlot arena s.machine p)
    (reaches : Reaches arena env limit s p o)
    (header : s.machine.header o = some (klass, size))
    (copied : moveObject arena s.machine o size = some (o2, m))
    (entered : forwardTableCasInsert cheri (some arena.base) granted m.table
      o.address o2 = .ok (table, fwd)) :
    ∃ start bump, Moves arena ext s.machine p o size start bump ∧
      m = copyOf s.machine o size start bump ∧
      CasOutcome cheri (some arena.base) granted s.machine.table o.base
        (objectCap arena start o.length) table fwd := by
  obtain ⟨start, bump, moves, rfl, rfl, atStart, nonzero, startNonzero⟩ :=
    heap.copies laws root reaches header copied
  rw [copyOf_table, atStart] at entered
  rcases heap.live.casInsert cheri (some arena.base) granted nonzero
      startNonzero with ⟨failed, _⟩ | ⟨table', fwd', returned, outcome⟩
  · rw [failed] at entered
    cases entered
  · rw [entered] at returned
    cases returned
    exact ⟨start, bump, moves, rfl, outcome⟩

/-- A visit that inserts returns, unless the table cannot be allocated. -/
theorem Reaches.returns (laws : cheri.Laws) {env : Env} {replies : Replies}
    {limit : Nat} {ext : Extents} {s : Scan} {p : Nat} {o : Cap}
    (heap : Heap arena ext s.machine) (root : RootSlot arena s.machine p)
    (reaches : Reaches arena env limit s p o)
    (granted : replies.callocInsert = true) :
    ∃ s', doOop arena env replies limit s p = .ok s' := by
  obtain ⟨klass, size, o2, m, header, copied, unfolded⟩ :=
    reaches.doOop_eq replies
  obtain ⟨start, bump, moves, rfl, rfl, atStart, nonzero, startNonzero⟩ :=
    heap.copies laws root reaches header copied
  simp only [unfolded, relocate, copied, copyOf_table, atStart]
  rcases heap.live.casInsert cheri (some arena.base) replies.callocInsert
      nonzero startNonzero with ⟨_, refused⟩ | ⟨table, fwd, entered, _⟩
  · rw [granted] at refused
    cases refused
  · simp only [entered]
    exact ⟨_, rfl⟩

theorem doOop_visit (laws : cheri.Laws) {env : Env} {replies : Replies}
    {limit : Nat} {lossy : Prop} {ext : Extents} {s s' : Scan} {p : Nat}
    (heap : Heap arena ext s.machine) (root : RootSlot arena s.machine p)
    (room : ∀ o, Reaches arena env limit s p o → lossy ∨
      HasRoom replies.callocInsert s.machine.table ∧
        ftFind s.machine.table o.address = none)
    (ran : doOop arena env replies limit s p = .ok s') :
    ∃ ext' news,
      Visit arena env replies.callocInsert lossy p ext s.machine ext'
        s'.machine news ∧
      s'.movedFrom = s.movedFrom ++ news := by
  cases doOop_cases ran with
  | quiet machine_eq moved_eq =>
      refine ⟨ext, [], ?_, by simpa using moved_eq⟩
      rw [machine_eq]
      exact .quiet
  | @fixed o fwd word inArena looked machine_eq moved_eq =>
      obtain ⟨based, atStart⟩ := heap.based_of_root root word inArena
      rw [atStart] at looked
      obtain ⟨b, l, rfl, there, same, present, ends⟩ :=
        heap.lookup_sound laws looked
      have sameLength : l = o.length := by
        rw [based.extent] at same
        exact (Option.some.inj same).symm
      subst sameLength
      refine ⟨ext, [], ?_, by simpa using moved_eq⟩
      rw [machine_eq]
      exact .fixed word based atStart present ends there
  | @inserted o o2 klass size m table fwd reaches header copied entered
      machine_eq moved_eq =>
      obtain ⟨start, bump, moves, rfl, outcome⟩ :=
        heap.inserted laws root reaches header copied entered
      have admitted := room o reaches
      have missing := reaches.unforwarded
      rw [moves.atStart] at missing admitted
      refine ⟨Function.update ext start (some o.length), [o], ?_, moved_eq⟩
      rw [machine_eq]
      cases outcome with
      | added absent hasRoom live added =>
          have freshPacked := heap.packed.extend moves.fresh
          rw [show ftDerive cheri (some arena.base)
              (objectCap arena start o.length).address
              (objectCap arena start o.length).length =
              some (objectCap arena start o.length) from
            freshPacked.ftDerive_eq laws (Function.update_self ..)]
          exact .moved moves absent hasRoom live added
      | found present live same =>
          rcases admitted with loses | ⟨_, absent⟩
          · rw [missing]
            exact .lost loses moves missing live same
          · exact absurd absent present
      | full absent noRoom live same =>
          rcases admitted with loses | ⟨hasRoom, _⟩
          · exact .lost loses moves missing live same
          · exact absurd hasRoom noRoom

namespace Moves

variable {ext : Extents} {m : Machine} {p size start bump : Nat} {o : Cap}

theorem apart (laws : cheri.Laws) (heap : Heap arena ext m)
    (moves : Moves arena ext m p o size start bump) :
    o.base + size * heapWordSize ≤ start := by
  have below := moves.fresh.below heap.packed moves.based.extent
  have long := moves.sized.le_length laws
  omega

theorem copied (laws : cheri.Laws) (heap : Heap arena ext m)
    (moves : Moves arena ext m p o size start bump) {i : Nat}
    (below : i < size) :
    (copyOf m o size start bump).mem (start + i * heapWordSize) =
      m.mem (o.base + i * heapWordSize) :=
  Machine.copyWords_copied _ (moves.apart laws heap) below

theorem frame (laws : cheri.Laws)
    (moves : Moves arena ext m p o size start bump) {q : Nat}
    (outside : q < start ∨ start + o.length ≤ q) :
    (copyOf m o size start bump).mem q = m.mem q := by
  have long := moves.sized.le_length laws
  apply Machine.copyWords_frame
  omega

theorem heap (laws : cheri.Laws) (before : Heap arena ext m)
    (moves : Moves arena ext m p o size start bump) :
    Heap arena (Function.update ext start (some o.length))
      (copyOf m o size start bump) := by
  apply before.extend moves.fresh
  · exact copyOf_bumpOffset ..
  · exact copyOf_table ..
  · intro q below
    exact moves.frame laws (.inl below)
  · obtain ⟨klass, header⟩ := moves.header
    have first := moves.copied laws before moves.sized.positive
    simp only [Nat.zero_mul, Nat.add_zero] at first
    exact ⟨klass, size, by rw [first, header], moves.sized⟩
  · exact before.caps.copyOf ..

theorem outside (moves : Moves arena ext m p o size start bump) {q : Nat}
    (root : RootSlot arena m q) : q < start ∨ start + o.length ≤ q := by
  have lower := moves.fresh.lower
  have upper := moves.fresh.upper
  have fits := moves.fresh.fits
  have place := root.place
  omega

theorem rootSlot (laws : cheri.Laws)
    (moves : Moves arena ext m p o size start bump) {q : Nat}
    (root : RootSlot arena m q) :
    RootSlot arena (copyOf m o size start bump) q where
  place := by
    have larger := moves.fresh.bump_le
    have place := root.place
    rw [copyOf_bumpOffset]
    omega
  content := by
    rw [moves.frame laws (moves.outside root)]
    exact root.content

/-- The slot itself starts no extent, also not the new one. -/
theorem slot_free (heap : Heap arena ext m)
    (moves : Moves arena ext m p o size start bump)
    (root : RootSlot arena m p) :
    Function.update ext start (some o.length) p = none := by
  have elsewhere : p ≠ start := by
    have outside := moves.outside root
    have positive := moves.fresh.positive
    omega
  rw [Function.update_of_ne elsewhere]
  exact heap.ext_of_value moves.word

end Moves

theorem Heap.fix {env : Env} {ext : Extents} {m : Machine}
    (heap : Heap arena ext m) {p : Nat} (free : ext p = none) {c : Cap}
    (ok : CapOk arena ext c) : Heap arena ext (fix env m p c) := by
  unfold StoplessGC.fix
  split
  · exact heap
  · exact heap.store free ok

theorem RootSlot.fix {env : Env} {m : Machine} {p q : Nat} {c : Cap}
    (root : RootSlot arena m q) (starts : c.address = c.base) :
    RootSlot arena (fix env m p c) q := by
  unfold StoplessGC.fix
  split
  · exact root
  · refine ⟨root.place, ?_⟩
    by_cases here : q = p
    · subst here
      exact ⟨c, m.store_mem_self .., fun _ => starts⟩
    · rw [m.store_mem_of_ne _ here]
      exact root.content

namespace Visit

variable {env : Env} {granted : Bool} {lossy : Prop} {p : Nat}
  {ext ext' : Extents} {m m' : Machine} {news : List Cap}

theorem heap (laws : cheri.Laws)
    (visit : Visit arena env granted lossy p ext m ext' m' news)
    (before : Heap arena ext m) (root : RootSlot arena m p) :
    Heap arena ext' m' := by
  cases visit with
  | quiet => exact before
  | fixed word based atStart present ends there =>
      exact before.fix (before.ext_of_value word)
        (.inr (based_objectCap there))
  | @moved o size start bump table moves absent room live added =>
      have copied := moves.heap laws before
      have there : Function.update ext start (some o.length) start =
          some o.length := Function.update_self ..
      have old := moves.fresh.grows before.packed moves.based.extent
      have positive := before.packed.positive moves.based.extent
      have below := moves.fresh.below before.packed moves.based.extent
      rw [← copyOf_table m o size start bump] at added
      have linked := copied.link old there (by omega) live added
      exact linked.fix (moves.slot_free before root)
        (.inr (based_objectCap there))
  | @lost o size start bump table loses moves missing live same =>
      rw [← copyOf_table m o size start bump] at same
      have copied := (moves.heap laws before).retable live same
      exact copied.fix (moves.slot_free before root) (CapOk.ofInt ..)

theorem rootSlot (laws : cheri.Laws)
    (visit : Visit arena env granted lossy p ext m ext' m' news) {q : Nat}
    (root : RootSlot arena m q) : RootSlot arena m' q := by
  cases visit with
  | quiet => exact root
  | fixed word based atStart present ends there => exact root.fix rfl
  | moved moves absent room live added =>
      have slot := moves.rootSlot laws root
      exact RootSlot.fix ⟨slot.place, slot.content⟩ rfl
  | lost loses moves missing live same =>
      have slot := moves.rootSlot laws root
      exact RootSlot.fix ⟨slot.place, slot.content⟩ rfl

theorem frame (laws : cheri.Laws)
    (visit : Visit arena env granted lossy p ext m ext' m' news) {q : Nat}
    (root : RootSlot arena m q) (other : q ≠ p) : m'.mem q = m.mem q := by
  cases visit with
  | quiet => rfl
  | fixed word based atStart present ends there =>
      exact fix_mem_of_ne _ _ _ other
  | moved moves absent room live added =>
      rw [fix_mem_of_ne _ _ _ other]
      exact moves.frame laws (moves.outside root)
  | lost loses moves missing live same =>
      rw [fix_mem_of_ne _ _ _ other]
      exact moves.frame laws (moves.outside root)

/-- The first word of an object is never written. -/
theorem header (laws : cheri.Laws) (heap : Heap arena ext m)
    (visit : Visit arena env granted lossy p ext m ext' m' news) {a l : Nat}
    (there : ext a = some l) : m'.mem a = m.mem a := by
  have elsewhere : ∀ {c : Cap}, m.mem p = .value c → a ≠ p := by
    intro c word same
    rw [same, heap.ext_of_value word] at there
    cases there
  cases visit with
  | quiet => rfl
  | fixed word based atStart present ends home =>
      exact fix_mem_of_ne _ _ _ (elsewhere word)
  | moved moves absent room live added =>
      have below := moves.fresh.below heap.packed there
      have positive := heap.packed.positive there
      rw [fix_mem_of_ne _ _ _ (elsewhere moves.word)]
      exact moves.frame laws (.inl (by omega))
  | lost loses moves missing live same =>
      have below := moves.fresh.below heap.packed there
      have positive := heap.packed.positive there
      rw [fix_mem_of_ne _ _ _ (elsewhere moves.word)]
      exact moves.frame laws (.inl (by omega))

theorem bump_le (visit : Visit arena env granted lossy p ext m ext' m' news) :
    m.bumpOffset ≤ m'.bumpOffset := by
  cases visit with
  | quiet => exact Nat.le_refl _
  | fixed word based atStart present ends there =>
      rw [fix_bumpOffset]
  | moved moves absent room live added =>
      rw [fix_bumpOffset]
      exact moves.fresh.bump_le.trans (Nat.le_of_eq (copyOf_bumpOffset ..).symm)
  | lost loses moves missing live same =>
      rw [fix_bumpOffset]
      exact moves.fresh.bump_le.trans (Nat.le_of_eq (copyOf_bumpOffset ..).symm)

end Visit

theorem Visit.extends {env : Env} {granted : Bool} {lossy : Prop} {p : Nat}
    {ext ext' : Extents} {m m' : Machine} {news : List Cap}
    (visit : Visit arena env granted lossy p ext m ext' m' news) :
    Extends (ftFind m.table) (ftFind m'.table) := by
  cases visit with
  | quiet => exact .refl _
  | fixed word based atStart present ends there =>
      rw [fix_table]
      exact .refl _
  | moved moves absent room live added =>
      rw [fix_table, added]
      exact .update absent _
  | lost loses moves missing live same =>
      rw [fix_table, same]
      exact .refl _

theorem Visit.grows {env : Env} {granted : Bool} {lossy : Prop} {p : Nat}
    {ext ext' : Extents} {m m' : Machine} {news : List Cap}
    (heap : Heap arena ext m)
    (visit : Visit arena env granted lossy p ext m ext' m' news) :
    ext.Grows ext' := by
  cases visit with
  | quiet => exact fun _ _ there => there
  | fixed word based atStart present ends there => exact fun _ _ same => same
  | moved moves absent room live added => exact moves.fresh.grows heap.packed
  | lost loses moves missing live same => exact moves.fresh.grows heap.packed

/-- The effects of a scan, slot by slot. -/
inductive Visits (arena : Arena cheri) (env : Env) (granted : Bool)
    (lossy : Prop) :
    List Nat → Extents → Machine → Extents → Machine → List Cap → Prop where
  | nil {ext : Extents} {m : Machine} :
      Visits arena env granted lossy [] ext m ext m []
  | cons {p : Nat} {rest : List Nat} {ext ext₁ ext₂ : Extents}
      {m m₁ m₂ : Machine} {news more : List Cap} :
      Visit arena env granted lossy p ext m ext₁ m₁ news →
      Visits arena env granted lossy rest ext₁ m₁ ext₂ m₂ more →
      Visits arena env granted lossy (p :: rest) ext m ext₂ m₂ (news ++ more)

/-- What holds before a scan and is kept by every visit of a root slot of a
well-formed heap holds after the scan. -/
theorem Visits.invariant (laws : cheri.Laws) {env : Env} {granted : Bool}
    {lossy : Prop} {roots : List Nat} {ext ext' : Extents} {m m' : Machine}
    {all : List Cap} (Inv : Extents → Machine → List Cap → Prop)
    (preserved : ∀ {p ext m ext' m' done news}, Heap arena ext m →
      RootSlot arena m p →
      Visit arena env granted lossy p ext m ext' m' news → Inv ext m done →
      Inv ext' m' (done ++ news))
    (visits : Visits arena env granted lossy roots ext m ext' m' all)
    (heap : Heap arena ext m) (slots : ∀ p, p ∈ roots → RootSlot arena m p)
    (done : List Cap) (initially : Inv ext m done) :
    Heap arena ext' m' ∧ Inv ext' m' (done ++ all) := by
  induction visits generalizing done with
  | nil => exact ⟨heap, by simpa using initially⟩
  | cons visit _ ih =>
      have root := slots _ List.mem_cons_self
      have later := ih (visit.heap laws heap root)
        (fun q member => visit.rootSlot laws
          (slots q (List.mem_cons_of_mem _ member)))
        _ (preserved heap root visit initially)
      rwa [List.append_assoc] at later

theorem scanRoots_cons {env : Env} {replies : Replies} {limit p : Nat}
    {rest : List Nat} {s s' : Scan}
    (ran : scanRoots arena env replies limit (p :: rest) s = .ok s') :
    ∃ s₁, doOop arena env replies limit s p = .ok s₁ ∧
      scanRoots arena env replies limit rest s₁ = .ok s' := by
  rw [scanRoots] at ran
  cases visited : doOop arena env replies limit s p with
  | error reason =>
      rw [visited] at ran
      cases ran
  | ok s₁ =>
      rw [visited] at ran
      exact ⟨s₁, rfl, ran⟩

theorem scanRoots_append {env : Env} {replies : Replies} {limit : Nat}
    {before after : List Nat} {s s₁ : Scan}
    (ran : scanRoots arena env replies limit before s = .ok s₁) :
    scanRoots arena env replies limit (before ++ after) s =
      scanRoots arena env replies limit after s₁ := by
  induction before generalizing s with
  | nil =>
      cases ran
      rfl
  | cons p rest ih =>
      obtain ⟨s₀, visited, later⟩ := scanRoots_cons ran
      rw [List.cons_append, scanRoots, visited]
      exact ih later

theorem AtInsertion.tail {env : Env} {replies : Replies} {limit p : Nat}
    {rest : List Nat} {s s₁ : Scan} {condition : State → Nat → Prop}
    (met : AtInsertion arena env replies limit (p :: rest) s condition)
    (visited : doOop arena env replies limit s p = .ok s₁) :
    AtInsertion arena env replies limit rest s₁ condition := by
  intro before after q t o split ran reaches
  have whole : p :: rest = (p :: before) ++ q :: after := by
    rw [split]
    rfl
  apply met whole _ reaches
  rw [scanRoots, visited]
  exact ran

theorem scanRoots_visits (laws : cheri.Laws) {env : Env} {replies : Replies}
    {limit : Nat} {lossy : Prop} {roots : List Nat} {ext : Extents}
    {s s' : Scan} (heap : Heap arena ext s.machine)
    (slots : ∀ p, p ∈ roots → RootSlot arena s.machine p)
    (room : AtInsertion arena env replies limit roots s (fun table key =>
      lossy ∨ HasRoom replies.callocInsert table ∧ ftFind table key = none))
    (ran : scanRoots arena env replies limit roots s = .ok s') :
    ∃ ext' all,
      Visits arena env replies.callocInsert lossy roots ext s.machine ext'
        s'.machine all ∧
      s'.movedFrom = s.movedFrom ++ all := by
  induction roots generalizing s ext with
  | nil =>
      cases ran
      exact ⟨ext, [], .nil, by simp⟩
  | cons p rest ih =>
      obtain ⟨s₁, visited, rescan⟩ := scanRoots_cons ran
      have root := slots p List.mem_cons_self
      have here : ∀ o, Reaches arena env limit s p o → lossy ∨
          HasRoom replies.callocInsert s.machine.table ∧
            ftFind s.machine.table o.address = none := by
        intro o reaches
        have whole : p :: rest = [] ++ p :: rest := rfl
        exact room whole rfl reaches
      obtain ⟨ext₁, news, visit, moved⟩ := doOop_visit laws heap root here visited
      obtain ⟨ext', more, visits, movedMore⟩ :=
        ih (visit.heap laws heap root)
          (fun q member => visit.rootSlot laws
            (slots q (List.mem_cons_of_mem _ member)))
          (room.tail visited) rescan
      refine ⟨ext', news ++ more, .cons visit visits, ?_⟩
      rw [movedMore, moved, List.append_assoc]

theorem AtInsertion.trivial (env : Env) (replies : Replies) (limit : Nat)
    (roots : List Nat) (s : Scan) :
    AtInsertion arena env replies limit roots s (fun table key =>
      True ∨ HasRoom replies.callocInsert table ∧ ftFind table key = none) :=
  fun _ _ _ _ _ _ _ _ => .inl True.intro

end StoplessGC
