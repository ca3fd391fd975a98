import StoplessGC.Denotation
import StoplessGC.PlainMachine

/-!
# How the machine represents the plain one

A value of the plain machine is represented by an integer or by a capability of
any generation, tagged or not; an object by its last copy.  Collection cycles
keep what is represented.
-/

namespace StoplessGC

open ForwardTable Allocator Forwarding Collector Handler Mutator

variable {cheri : Intrinsics} {arena : Arena cheri}

/-- A capability represents a value, when the objects have been allocated at
`objs`. -/
inductive Rep (find : Nat → Option (Nat × Nat)) (objs : List Nat) :
    Cap → Value → Prop where
  | int (n : Nat) : Rep find objs (Cap.ofInt n) (.int n)
  | ref {c : Cap} {i o offset : Nat} :
      objs[i]? = some o → Leads find o c.base → c.address = c.base + offset →
      Rep find objs c (.ref i offset)

/-- The copy at `e` is one of the object. -/
structure Contains (m : Machine) (objs : List Nat) (e : Nat)
    (object : PlainObject) : Prop where
  header : m.mem e = .header object.klass object.size
  fields : ∀ {w}, 0 < w → w < object.size →
    ∃ c, m.mem (e + w * heapWordSize) = .value c ∧
      Rep (ftFind m.table) objs c (object.fields w)

/-- The last copies of all objects, the frame and the registers represent those
of the plain machine. -/
structure Represents (arena : Arena cheri) (objs : List Nat) (m : Machine)
    (s : Plain) : Prop where
  count : s.objects.length = objs.length
  objects : ∀ {i o : Nat} {object : PlainObject}, objs[i]? = some o →
    s.objects[i]? = some object →
    ∃ e, Ends (ftFind m.table) o e ∧ Contains m objs e object
  frame : ∀ {p}, arena.covers p = false →
    ∃ c, m.mem p = .value c ∧ Rep (ftFind m.table) objs c (s.frame p)
  regs : ∀ i, Rep (ftFind m.table) objs (m.regs i) (s.regs i)

namespace Rep

variable {find find' : Nat → Option (Nat × Nat)} {objs : List Nat} {c c' : Cap}
  {v : Value}

theorem mono (larger : Extends find find') (rep : Rep find objs c v) :
    Rep find' objs c v := by
  cases rep with
  | int n => exact .int n
  | ref object leads address => exact .ref object (leads.mono larger) address

theorem append (rep : Rep find objs c v) (new : List Nat) :
    Rep find (objs ++ new) c v := by
  cases rep with
  | int n => exact .int n
  | ref object leads address =>
      refine .ref ?_ leads address
      obtain ⟨below, _⟩ := List.getElem?_eq_some_iff.mp object
      rw [List.getElem?_append_left below]
      exact object

theorem later {ext : Extents} {m : Machine} (heap : Heap arena ext m)
    (rep : Rep find objs c v) (larger : Extends find (ftFind m.table))
    (ok : CapOk arena ext c') (later : Later (ftFind m.table) c c') :
    Rep (ftFind m.table) objs c' v := by
  cases rep with
  | int n =>
      rw [heap.later_int ok later]
      exact .int n
  | @ref c i o offset object leads address =>
      refine .ref object ((leads.mono larger).trans later.base) ?_
      have same := later.offset
      omega

end Rep

theorem Arena.used_of_not_covers {m : Machine} {p : Nat}
    (outside : arena.covers p = false) : arena.Used m p := by
  simp only [Arena.covers, Bool.and_eq_false_iff, decide_eq_false_iff_not]
    at outside
  rcases outside with below | above
  · left
    omega
  · right
    omega

theorem Contains.inside (laws : cheri.Laws) {ext : Extents} {m : Machine}
    (heap : Heap arena ext m) {objs : List Nat} {e l : Nat}
    {object : PlainObject} (contains : Contains m objs e object)
    (there : ext e = some l) :
    object.size * heapWordSize ≤ l ∧
      e + object.size * heapWordSize ≤ arena.base.base + m.bumpOffset := by
  obtain ⟨klass, size, header, sized⟩ := heap.headers there
  rw [contains.header] at header
  cases header
  have long := sized.le_length laws
  have upper := heap.packed.upper there
  omega

theorem Contains.keeps (laws : cheri.Laws) {ext ext' : Extents}
    {m m' : Machine} (heap : Heap arena ext m) (heap' : Heap arena ext' m')
    {objs : List Nat} {e l : Nat} {object : PlainObject}
    (contains : Contains m objs e object) (there : ext e = some l)
    (larger : Extends (ftFind m.table) (ftFind m'.table))
    (keeps : KeepsReferences arena m m') (header : m'.mem e = m.mem e) :
    Contains m' objs e object := by
  obtain ⟨_, below⟩ := contains.inside laws heap there
  refine ⟨header.trans contains.header, ?_⟩
  intro w positive inside
  obtain ⟨c, word, rep⟩ := contains.fields positive inside
  have used : arena.Used m (e + w * heapWordSize) := by
    left
    rw [heapWordSize] at below ⊢
    omega
  obtain ⟨c', word', later⟩ := keeps.words used word
  exact ⟨c', word', rep.later heap' larger (heap'.caps.mem word') later⟩

theorem Contains.untouched (laws : cheri.Laws) {ext : Extents}
    {m m' : Machine} (heap : Heap arena ext m) {objs : List Nat} {e l : Nat}
    {object : PlainObject} (contains : Contains m objs e object)
    (there : ext e = some l) (table : m'.table = m.table)
    (same : ∀ {q}, e ≤ q → q < e + l → m'.mem q = m.mem q) :
    Contains m' objs e object := by
  obtain ⟨long, _⟩ := contains.inside laws heap there
  have positive := heap.packed.positive there
  refine ⟨(same (Nat.le_refl e) (by omega)).trans contains.header, ?_⟩
  intro w nonzero below
  have within : w * heapWordSize < l := by
    rw [heapWordSize] at long ⊢
    omega
  rw [same (Nat.le_add_right ..) (by omega), table]
  exact contains.fields nonzero below

theorem Contains.append {m : Machine} {objs : List Nat} {e : Nat}
    {object : PlainObject} (contains : Contains m objs e object)
    (new : List Nat) : Contains m (objs ++ new) e object := by
  refine ⟨contains.header, ?_⟩
  intro w nonzero below
  obtain ⟨c, word, rep⟩ := contains.fields nonzero below
  exact ⟨c, word, rep.append new⟩

theorem Contains.moved (laws : cheri.Laws) {env : Env} {ext : Extents}
    {m : Machine} (heap : Heap arena ext m) {objs : List Nat}
    {p size start bump : Nat} {c : Cap} {object : PlainObject} {table : State}
    (contains : Contains m objs c.base object)
    (moves : Moves arena ext m p c size start bump)
    (root : RootSlot arena m p)
    (larger : Extends (ftFind m.table) (ftFind (fix env
      { copyOf m c size start bump with table := table } p
      (objectCap arena start c.length)).table)) :
    Contains (fix env { copyOf m c size start bump with table := table } p
      (objectCap arena start c.length)) objs start object := by
  have same : object.size = size := by
    obtain ⟨klass, header⟩ := moves.header
    rw [contains.header] at header
    cases header
    rfl
  have word : ∀ {w}, w < size →
      (fix env { copyOf m c size start bump with table := table } p
        (objectCap arena start c.length)).mem (start + w * heapWordSize) =
      m.mem (c.base + w * heapWordSize) := by
    intro w below
    have elsewhere : start + w * heapWordSize ≠ p := by
      have outside := moves.outside root
      have long := moves.sized.le_length laws
      rw [heapWordSize] at long ⊢
      omega
    rw [fix_mem_of_ne _ _ _ elsewhere]
    exact moves.copied laws heap below
  constructor
  · have first := word moves.sized.positive
    rw [Nat.zero_mul, Nat.add_zero, Nat.add_zero] at first
    rw [first]
    exact contains.header
  · intro w positive below
    rw [word (by omega)]
    obtain ⟨v, stored, rep⟩ := contains.fields positive below
    exact ⟨v, stored, rep.mono larger⟩

theorem Sound.extent {objs : List Nat} {ext : Extents} {m : Machine}
    {pending : List Cap}
    (sound : Sound arena objs ext m pending) {i o e : Nat}
    (allocated : objs[i]? = some o) (ends : Ends (ftFind m.table) o e) :
    ∃ l, ext e = some l := by
  obtain ⟨⟨n, hops⟩, _⟩ := ends
  have there := sound.linked.objects o (List.mem_of_getElem? allocated)
  rw [sound.heap.ext_of_hops hops] at there
  exact Option.ne_none_iff_exists'.mp there

namespace Represents

variable {objs : List Nat} {ext ext' : Extents} {m m' : Machine} {s : Plain}

theorem retable (before : Represents arena objs m s) {table : State}
    (same : ftFind table = ftFind m.table) :
    Represents arena objs { m with table := table } s := by
  refine ⟨before.count, ?_, ?_, ?_⟩
  · intro i o object allocated plain
    obtain ⟨e, ends, contains⟩ := before.objects allocated plain
    refine ⟨e, ?_, contains.header, ?_⟩
    · change Ends (ftFind table) o e
      rw [same]
      exact ends
    · intro w positive below
      change ∃ c, _ ∧ Rep (ftFind table) objs c _
      rw [same]
      exact contains.fields positive below
  · intro p outside
    change ∃ c, _ ∧ Rep (ftFind table) objs c _
    rw [same]
    exact before.frame outside
  · intro i
    change Rep (ftFind table) objs _ _
    rw [same]
    exact before.regs i

/-- A change that keeps references keeps what the frame and the registers
represent. -/
theorem keeps (before : Represents arena objs m s) (heap : Heap arena ext' m')
    (larger : Extends (ftFind m.table) (ftFind m'.table))
    (keeps : KeepsReferences arena m m')
    (objects : ∀ {i o : Nat} {object : PlainObject}, objs[i]? = some o →
      s.objects[i]? = some object →
      ∃ e, Ends (ftFind m'.table) o e ∧ Contains m' objs e object) :
    Represents arena objs m' s := by
  refine ⟨before.count, objects, ?_, ?_⟩
  · intro p outside
    obtain ⟨c, word, rep⟩ := before.frame outside
    obtain ⟨c', word', later⟩ :=
      keeps.words (Arena.used_of_not_covers outside) word
    exact ⟨c', word', rep.later heap larger (heap.caps.mem word') later⟩
  · intro i
    exact (before.regs i).later heap larger (heap.caps.regs i) (keeps.regs i)

theorem visit (laws : cheri.Laws) {done news : List Cap} {env : Env}
    {granted : Bool} {p : Nat} (sound : Sound arena objs ext m done)
    (before : Represents arena objs m s) (root : RootSlot arena m p)
    (visit : Visit arena env granted False p ext m ext' m' news) :
    Represents arena objs m' s := by
  have heap' := visit.heap laws sound.heap root
  have larger := visit.extends
  have keeps : KeepsReferences arena m m' := by
    refine ⟨fun used word => visit.later laws used word, fun i => ?_⟩
    rw [visit.regs_eq]
    exact .refl _ _
  apply before.keeps heap' larger keeps
  intro i o object allocated plain
  obtain ⟨e, ends, contains⟩ := before.objects allocated plain
  obtain ⟨l, there⟩ := sound.extent allocated ends
  have stays : ftFind m'.table e = none →
      ∃ e, Ends (ftFind m'.table) o e ∧ Contains m' objs e object := by
    intro current
    exact ⟨e, ⟨ends.1.mono larger, current⟩, contains.keeps laws sound.heap
      heap' there larger keeps (visit.header laws sound.heap there)⟩
  cases visit with
  | quiet => exact stays ends.2
  | fixed word based atStart present chain home =>
      apply stays
      rw [fix_table]
      exact ends.2
  | @moved c size start bump table moves absent room live added =>
      by_cases here : e = c.base
      · subst here
        refine ⟨start, ⟨(ends.1.mono larger).trans ?_, ?_⟩, contains.moved laws
          sound.heap moves root larger⟩
        · rw [fix_table]
          change Leads (ftFind table) c.base start
          rw [added]
          exact .single (Function.update_self ..)
        · have unused := moves.fresh.unused sound.heap.packed
          have elsewhere : start ≠ c.base := by
            intro same
            rw [same, there] at unused
            cases unused
          rw [fix_table]
          change ftFind table start = none
          rw [added, Function.update_of_ne elsewhere]
          exact sound.heap.unlinked unused
      · apply stays
        rw [fix_table]
        change ftFind table e = none
        rw [added, Function.update_of_ne here]
        exact ends.2
  | lost loses => exact loses.elim

theorem resumed (laws : cheri.Laws) {pending : List Cap}
    {marks : Revoke.Shadow} {swept : Prop}
    (sound : Sound arena objs ext m pending)
    (before : Represents arena objs m s) (resumed : Resumed m marks swept m') :
    Represents arena objs m' s := by
  have heap' := resumed.heap sound.heap
  have larger : Extends (ftFind m.table) (ftFind m'.table) := by
    rw [resumed.table]
    exact .refl _
  apply before.keeps heap' larger resumed.later
  intro i o object allocated plain
  obtain ⟨e, ends, contains⟩ := before.objects allocated plain
  obtain ⟨l, there⟩ := sound.extent allocated ends
  refine ⟨e, by rw [resumed.table]; exact ends, ?_⟩
  apply contains.keeps laws sound.heap heap' there larger resumed.later
  rcases resumed.words with ⟨_, mem, _⟩ | ⟨_, mem, _⟩
  · rw [mem]
    change sweepWord marks (m.mem e) = m.mem e
    rw [contains.header]
    rfl
  · rw [mem]

theorem cycle (laws : cheri.Laws) (sound : Sound arena objs ext m [])
    (before : Represents arena objs m s) {env : Env} {replies : Replies}
    {roots : List Nat} {moved : List Cap} (mode : env.Synchronous)
    (slots : ∀ p, p ∈ roots → RootSlot arena m p)
    (returned : doit arena env replies roots m = .ok (m', moved))
    (fits : CycleFits arena env replies roots m m') :
    Represents arena objs m' s := by
  obtain ⟨table, ext', s', live, same, visits, resumed⟩ :=
    fits.phases laws sound.heap mode slots returned
  have startSlots : ∀ p, p ∈ roots →
      RootSlot arena { m with table := table } p :=
    fun p member => (slots p member).start table
  obtain ⟨_, scanned, represents⟩ := visits.invariant laws
    (fun ext m done => Sound arena objs ext m done ∧
      Represents arena objs m s)
    (fun _ root visit before => ⟨before.1.visit laws root visit,
      before.2.visit laws before.1 root visit⟩)
    (sound.heap.retable live same) startSlots []
    ⟨sound.start live same, before.retable same⟩
  exact represents.resumed laws scanned resumed

end Represents

end StoplessGC
