import StoplessGC.Revocation

/-!
# What references denote

Along runs whose cycles lose nothing and revoke what they move, every copy is a
copy of an object that the mutator has allocated.  A reference denotes that
object, whatever generation it is from and whether it is tagged or not, and
neither cycles nor heals change what the references in memory and registers
denote.
-/

namespace StoplessGC

open ForwardTable Allocator Forwarding Collector Handler Mutator

variable {cheri : Intrinsics} {arena : Arena cheri}

/-- Runs of mutator instructions, heals and completed synchronous cycles, in
which the table is never full and no object is relocated too often. -/
inductive SoundRun (arena : Arena cheri) : List Nat → Machine → Prop where
  | boot : SoundRun arena [] Machine.boot
  | op {objs : List Nat} {m m' : Machine} (op : Op) (pc fuel : Nat)
      {granted : Bool} :
      SoundRun arena objs m → op.Admissible cheri m →
      exec arena none pc fuel m op = some (m', granted) →
      SoundRun arena (objs ++ births arena m op) m'
  | heal {objs : List Nat} {m : Machine} {fault : Fault}
      {regs : Fin 30 → Cap} :
      SoundRun arena objs m →
      stoplessTryHeal arena none m.table fault m.regs = some regs →
      SoundRun arena objs { m with regs := regs }
  | cycle {objs : List Nat} {m m' : Machine} {env : Env} {replies : Replies}
      {roots : List Nat} {moved : List Cap} :
      SoundRun arena objs m → env.Synchronous →
      (∀ p, p ∈ roots → RootSlot arena m p) →
      doit arena env replies roots m = .ok (m', moved) →
      CycleFits arena env replies roots m m' →
      KernelSucceeds replies moved → SoundRun arena objs m'

/-- The invariants of such runs together. -/
structure Sound (arena : Arena cheri) (objs : List Nat) (ext : Extents)
    (m : Machine) (pending : List Cap) : Prop where
  heap : Heap arena ext m
  linked : Linked ext objs m
  rooted : ∀ {a l}, ext a = some l →
    ∃ o, o ∈ objs ∧ Leads (ftFind m.table) o a
  revocable : Revocable arena ext m pending
  guarded : Guarded ext m pending

namespace Sound

variable {objs : List Nat} {ext ext' : Extents} {m m' : Machine}
  {done news : List Cap}

/-- Every copy that a visit makes is one of an object that was there. -/
theorem rooted_visit {env : Env} {granted : Bool} {p : Nat}
    (before : Sound arena objs ext m done)
    (visit : Visit arena env granted False p ext m ext' m' news) {a l : Nat}
    (there : ext' a = some l) :
    ∃ o, o ∈ objs ∧ Leads (ftFind m'.table) o a := by
  have larger := visit.extends
  have old : ∀ {b k}, ext b = some k →
      ∃ o, o ∈ objs ∧ Leads (ftFind m'.table) o b := by
    intro b k there
    obtain ⟨o, member, leads⟩ := before.rooted there
    exact ⟨o, member, leads.mono larger⟩
  cases visit with
  | quiet => exact old there
  | fixed word based atStart present ends home => exact old there
  | @moved o size start bump table moves absent room live added =>
      rcases Fresh.update_cases there with ⟨rfl, _⟩ | ⟨_, earlier⟩
      · obtain ⟨obj, member, leads⟩ := old moves.based.extent
        refine ⟨obj, member, leads.trans ?_⟩
        rw [fix_table]
        change Leads (ftFind table) o.base a
        rw [added]
        exact .single (Function.update_self ..)
      · exact old earlier
  | lost loses => exact loses.elim

theorem visit (laws : cheri.Laws) {env : Env} {granted : Bool} {p : Nat}
    (before : Sound arena objs ext m done) (root : RootSlot arena m p)
    (visit : Visit arena env granted False p ext m ext' m' news) :
    Sound arena objs ext' m' (done ++ news) where
  heap := visit.heap laws before.heap root
  linked := before.linked.visit before.heap visit
  rooted := before.rooted_visit visit
  revocable := before.revocable.visit before.heap visit
  guarded := before.guarded.visit before.heap visit

theorem start (before : Sound arena objs ext m done) {table : State}
    (live : Live table) (same : ftFind table = ftFind m.table) :
    Sound arena objs ext { m with table := table } done where
  heap := before.heap.retable live same
  linked := before.linked.grows (fun _ _ there => there) same
  rooted := by
    change ∀ {a l}, _ → ∃ o, o ∈ objs ∧ Leads (ftFind table) o a
    rw [same]
    exact before.rooted
  revocable := before.revocable.retable same
  guarded := by
    refine before.guarded.grows (fun _ _ there => there) ?_ rfl ?_
    · change Extends _ (ftFind table)
      rw [same]
      exact .refl _
    · change Machine.Every _ (fun c => c.tag = false → c.base ≠ 0 →
        ftFind table c.base ≠ none)
      rw [same]
      exact before.guarded.stale.retable table

theorem resumed {replies : Replies} (before : Sound arena objs ext m done)
    (succeeds : KernelSucceeds replies done)
    (resumed : Resumed m (markAll replies.markRc 0 done m.shadow)
      (0 < m.sMarkedPending + done.length ∧
        Revoke.stoplessRevokeNow replies.sweep = 0) m') :
    Sound arena objs ext m' [] where
  heap := resumed.heap before.heap
  linked := before.linked.grows (fun _ _ there => there) (by rw [resumed.table])
  rooted := by
    rw [resumed.table]
    exact before.rooted
  revocable := before.revocable.synchronous before.heap succeeds resumed
  guarded := before.guarded.resumed before.heap before.revocable succeeds.1
    resumed

end Sound

/-- A completed cycle that fits: a scan without losses from a machine with the
same lookups, then marks and a sweep. -/
theorem CycleFits.phases (laws : cheri.Laws) {env : Env} {replies : Replies}
    {roots : List Nat} {ext : Extents} {m m' : Machine} {moved : List Cap}
    (heap : Heap arena ext m) (mode : env.Synchronous)
    (slots : ∀ p, p ∈ roots → RootSlot arena m p)
    (returned : doit arena env replies roots m = .ok (m', moved))
    (fits : CycleFits arena env replies roots m m') :
    ∃ table ext' s, Live table ∧ ftFind table = ftFind m.table ∧
      Visits arena env replies.callocInsert False roots ext
        { m with table := table } ext' s moved ∧
      Resumed s (markAll replies.markRc 0 moved s.shadow)
        (0 < s.sMarkedPending + moved.length ∧
          Revoke.stoplessRevokeNow replies.sweep = 0) m' := by
  have fit := fits.insertionsFit laws heap slots returned
  exact doit_synchronous laws heap mode slots
    (fun _ _ _ _ _ split ran reaches => .inr (fit split ran reaches)) returned

theorem Sound.cycle (laws : cheri.Laws) {objs : List Nat} {ext : Extents}
    {m m' : Machine} (before : Sound arena objs ext m []) {env : Env}
    {replies : Replies} {roots : List Nat} {moved : List Cap}
    (mode : env.Synchronous) (slots : ∀ p, p ∈ roots → RootSlot arena m p)
    (returned : doit arena env replies roots m = .ok (m', moved))
    (fits : CycleFits arena env replies roots m m')
    (succeeds : KernelSucceeds replies moved) :
    ∃ ext', Sound arena objs ext' m' [] := by
  obtain ⟨table, ext', s, live, same, visits, resumed⟩ :=
    fits.phases laws before.heap mode slots returned
  have startSlots : ∀ p, p ∈ roots →
      RootSlot arena { m with table := table } p :=
    fun p member => (slots p member).start table
  have scanned := (visits.invariant laws
    (fun ext m done => Sound arena objs ext m done)
    (fun _ root visit before => before.visit laws root visit)
    (before.heap.retable live same) startSlots [] (before.start live same)).2
  exact ⟨ext', scanned.resumed succeeds resumed⟩

namespace Sound

variable {objs : List Nat} {ext : Extents} {m m' : Machine}

theorem boot : Sound arena [] (fun _ => none) Machine.boot [] where
  heap := heap_boot
  linked := by
    refine ⟨?_, by simp, by simp, List.nodup_nil⟩
    intro a b c v w first
    cases first
  rooted := by
    intro a l there
    cases there
  revocable := by
    refine ⟨⟨?_, fun i tag => by cases tag⟩, ?_, by simp⟩
    · intro p c loaded tag
      cases loaded
      cases tag
    · intro k b l link
      cases link
  guarded := by
    refine ⟨⟨?_, fun i _ nonzero => absurd rfl nonzero⟩, ?_, by simp⟩
    · intro p c loaded _ nonzero
      cases loaded
      exact absurd rfl nonzero
    · intro a marked
      cases marked

theorem effect (laws : cheri.Laws) {ext' : Extents} {new : List Nat}
    (before : Sound arena objs ext m []) (effect : Effect arena ext m ext' m')
    (born : Births arena m ext new ext') :
    Sound arena (objs ++ new) ext' m' [] := by
  have same : ftFind m'.table = ftFind m.table := by rw [effect.table_eq]
  have heap := effect.heap laws before.heap
  have revocable := before.revocable.effect laws before.heap effect
  have guarded := before.guarded.effect laws before.heap effect
  have old : ∀ {a l}, ext a = some l →
      ∃ o, o ∈ objs ++ new ∧ Leads (ftFind m'.table) o a := by
    intro a l there
    rw [same]
    obtain ⟨o, member, leads⟩ := before.rooted there
    exact ⟨o, List.mem_append_left _ member, leads⟩
  cases born with
  | none =>
      refine ⟨heap, ?_, old, revocable, guarded⟩
      rw [List.append_nil]
      exact before.linked.grows (fun _ _ there => there) same
  | @object start l bump fresh =>
      refine ⟨heap, before.linked.born before.heap fresh same, ?_, revocable,
        guarded⟩
      intro a k there
      rcases Fresh.update_cases there with ⟨rfl, _⟩ | ⟨_, earlier⟩
      · exact ⟨a, by simp, .refl a⟩
      · exact old earlier

theorem healed (laws : cheri.Laws) (before : Sound arena objs ext m [])
    {fault : Fault} {regs : Fin 30 → Cap}
    (heals : stoplessTryHeal arena none m.table fault m.regs = some regs) :
    Sound arena objs ext { m with regs := regs } [] := by
  have derived : ∀ i, Derived arena m (regs i) := by
    rcases stoplessTryHeal_cases heals with rfl | ⟨i, fwd, tried, rfl⟩
    · exact Derived.reg
    · exact Derived.update Derived.reg i (.healed (.reg i) tried)
  have after := before.effect laws (.regs derived) .none
  rw [List.append_nil] at after
  exact after

end Sound

theorem SoundRun.sound (laws : cheri.Laws) {objs : List Nat} {m : Machine}
    (run : SoundRun arena objs m) :
    ∃ ext, Sound arena objs ext m [] ∧ Within (ftFind m.table) chaseMax := by
  induction run with
  | boot =>
      refine ⟨_, .boot, ?_⟩
      intro n a b hops
      cases hops with
      | here => exact Nat.zero_le _
      | hop linked _ => cases linked
  | op op pc fuel _ admissible ran ih =>
      obtain ⟨ext, sound, short⟩ := ih
      obtain ⟨ext', effect, born⟩ := exec_effect laws sound.heap admissible ran
      refine ⟨ext', sound.effect laws effect born, ?_⟩
      rw [effect.table_eq]
      exact short
  | heal _ heals ih =>
      obtain ⟨ext, sound, short⟩ := ih
      exact ⟨ext, sound.healed laws heals, short⟩
  | cycle _ mode slots returned fits succeeds ih =>
      obtain ⟨ext, sound, _⟩ := ih
      obtain ⟨ext', after⟩ :=
        sound.cycle laws mode slots returned fits succeeds
      exact ⟨ext', after, fits.short⟩

/-- The same capability, as far as relocation and revocation may change it: it
is based at a later copy, with the same offset. -/
structure Later (find : Nat → Option (Nat × Nat)) (c c' : Cap) : Prop where
  base : Leads find c.base c'.base
  length : c'.length = c.length
  perms : c'.perms = c.perms
  offset : c'.address + c.base = c.address + c'.base

namespace Later

variable {find find' : Nat → Option (Nat × Nat)} {a b c : Cap}

theorem refl (find : Nat → Option (Nat × Nat)) (c : Cap) : Later find c c :=
  ⟨.refl _, rfl, rfl, rfl⟩

theorem trans (first : Later find a b) (second : Later find b c) :
    Later find a c where
  base := first.base.trans second.base
  length := second.length.trans first.length
  perms := second.perms.trans first.perms
  offset := by
    have one := first.offset
    have two := second.offset
    omega

theorem mono (larger : Extends find find') (later : Later find a b) :
    Later find' a b :=
  { later with base := later.base.mono larger }

theorem sweepCap (later : Later find a b) (shadow : Revoke.Shadow) :
    Later find a (Revoke.sweepCap shadow b) :=
  ⟨later.base, later.length, later.perms, later.offset⟩

end Later

theorem Heap.later_int {ext : Extents} {m : Machine} (heap : Heap arena ext m)
    {n : Nat} {c : Cap} (ok : CapOk arena ext c)
    (later : Later (ftFind m.table) (Cap.ofInt n) c) : c = Cap.ofInt n := by
  have zero : c.base = 0 := later.base.eq_of_end (ftFind_zero m.table)
  rcases ok with ⟨k, rfl⟩ | based
  · have offset : k + 0 = n + 0 := later.offset
    rw [Nat.add_zero, Nat.add_zero] at offset
    rw [offset]
  · have there := based.extent
    rw [zero, heap.packed.zero] at there
    cases there

/-- An address that is not in free arena memory. -/
def Arena.Used (arena : Arena cheri) (m : Machine) (q : Nat) : Prop :=
  q < arena.base.base + m.bumpOffset ∨ arena.base.base + arena.size ≤ q

theorem Moves.outside_used {ext : Extents} {m : Machine} {p size start bump : Nat}
    {o : Cap} (moves : Moves arena ext m p o size start bump) {q : Nat}
    (used : arena.Used m q) : q < start ∨ start + o.length ≤ q := by
  have lower := moves.fresh.lower
  have upper := moves.fresh.upper
  have fits := moves.fresh.fits
  have place : q < arena.base.base + m.bumpOffset ∨
    arena.base.base + arena.size ≤ q := used
  omega

theorem Visit.later (laws : cheri.Laws) {env : Env} {granted : Bool}
    {p q : Nat} {ext ext' : Extents} {m m' : Machine} {news : List Cap}
    (visit : Visit arena env granted False p ext m ext' m' news)
    (used : arena.Used m q) {c : Cap} (word : m.mem q = .value c) :
    ∃ c', m'.mem q = .value c' ∧ Later (ftFind m'.table) c c' := by
  have fixed : ∀ {m₁ : Machine} {o : Cap} {b : Nat}, m₁.mem q = .value c →
      (q = p → c = o) → o.address = o.base →
      o.perms = { arena.base.perms with swVmem := false } →
      Leads (ftFind m₁.table) o.base b →
      ∃ c', (fix env m₁ p (objectCap arena b o.length)).mem q = .value c' ∧
        Later (ftFind m₁.table) c c' := by
    intro m₁ o b still same atStart perms leads
    unfold fix
    split
    · exact ⟨c, still, .refl _ c⟩
    · by_cases here : q = p
      · rw [same here, here]
        refine ⟨_, m₁.store_mem_self .., leads, rfl, perms.symm, ?_⟩
        rw [atStart]
        exact Nat.add_comm ..
      · rw [m₁.store_mem_of_ne _ here]
        exact ⟨c, still, .refl _ c⟩
  cases visit with
  | quiet => exact ⟨c, word, .refl _ c⟩
  | @fixed o b slot based atStart present ends there =>
      rw [fix_table]
      apply fixed word _ atStart based.perms ends.1
      intro here
      rw [here, slot] at word
      cases word
      rfl
  | @moved o size start bump table moves absent room live added =>
      rw [fix_table]
      apply fixed _ _ moves.atStart moves.based.perms
      · change Leads (ftFind table) o.base start
        rw [added]
        exact .single (Function.update_self ..)
      · rw [← word]
        exact moves.frame laws (moves.outside_used used)
      · intro here
        rw [here, moves.word] at word
        cases word
        rfl
  | lost loses => exact loses.elim

theorem Visit.regs_eq {env : Env} {granted : Bool} {lossy : Prop} {p : Nat}
    {ext ext' : Extents} {m m' : Machine} {news : List Cap}
    (visit : Visit arena env granted lossy p ext m ext' m' news) :
    m'.regs = m.regs := by
  have fixed : ∀ (m₁ : Machine) (c : Cap), (fix env m₁ p c).regs = m₁.regs := by
    intro m₁ c
    unfold fix
    split <;> rfl
  cases visit with
  | quiet => rfl
  | fixed word based atStart present ends there => exact fixed ..
  | moved moves absent room live added =>
      exact (fixed ..).trans (copyOf_regs ..)
  | lost loses moves missing live same =>
      exact (fixed ..).trans (copyOf_regs ..)

/-- What a transition keeps: every used word and every register holds the same
or a later reference. -/
structure KeepsReferences (arena : Arena cheri) (m m' : Machine) : Prop where
  words : ∀ {q c}, arena.Used m q → m.mem q = .value c →
    ∃ c', m'.mem q = .value c' ∧ Later (ftFind m'.table) c c'
  regs : ∀ i, Later (ftFind m'.table) (m.regs i) (m'.regs i)

theorem Visit.used {env : Env} {granted : Bool} {lossy : Prop} {p q : Nat}
    {ext ext' : Extents} {m m' : Machine} {news : List Cap}
    (visit : Visit arena env granted lossy p ext m ext' m' news)
    (used : arena.Used m q) : arena.Used m' q :=
  used.imp_left (fun below => Nat.lt_of_lt_of_le below
    (Nat.add_le_add_left visit.bump_le _))

theorem Visits.used {env : Env} {granted : Bool} {lossy : Prop}
    {roots : List Nat} {ext ext' : Extents} {m m' : Machine} {all : List Cap}
    (visits : Visits arena env granted lossy roots ext m ext' m' all) {q : Nat}
    (used : arena.Used m q) : arena.Used m' q := by
  induction visits with
  | nil => exact used
  | cons visit _ ih => exact ih (visit.used used)

theorem Visits.later (laws : cheri.Laws) {env : Env} {granted : Bool}
    {roots : List Nat} {ext ext' : Extents} {m m' : Machine} {all : List Cap}
    (visits : Visits arena env granted False roots ext m ext' m' all)
    {q : Nat} (used : arena.Used m q) {c : Cap} (word : m.mem q = .value c) :
    ∃ c', m'.mem q = .value c' ∧ Later (ftFind m'.table) c c' := by
  induction visits generalizing c with
  | nil => exact ⟨c, word, .refl _ c⟩
  | cons visit visits ih =>
      obtain ⟨c₁, word₁, later₁⟩ := visit.later laws used word
      obtain ⟨c₂, word₂, later₂⟩ := ih (visit.used used) word₁
      exact ⟨c₂, word₂, (later₁.mono visits.extends).trans later₂⟩

theorem Visits.regs_eq {env : Env} {granted : Bool} {lossy : Prop}
    {roots : List Nat} {ext ext' : Extents} {m m' : Machine} {all : List Cap}
    (visits : Visits arena env granted lossy roots ext m ext' m' all) :
    m'.regs = m.regs := by
  induction visits with
  | nil => rfl
  | cons visit _ ih => exact ih.trans visit.regs_eq

theorem Resumed.later {m m' : Machine} {marks : Revoke.Shadow} {swept : Prop}
    (resumed : Resumed m marks swept m') : KeepsReferences arena m m' := by
  rcases resumed.words with ⟨_, mem, regs⟩ | ⟨_, mem, regs⟩
  · constructor
    · intro q c _ word
      refine ⟨Revoke.sweepCap marks c, ?_, (Later.refl _ c).sweepCap marks⟩
      rw [mem]
      change sweepWord marks (m.mem q) = _
      rw [word]
      rfl
    · intro i
      rw [regs]
      exact (Later.refl _ _).sweepCap marks
  · constructor
    · intro q c _ word
      exact ⟨c, by rw [mem, word], .refl _ c⟩
    · intro i
      rw [regs]
      exact .refl _ _

theorem CycleFits.extends (laws : cheri.Laws) {env : Env} {replies : Replies}
    {roots : List Nat} {ext : Extents} {m m' : Machine} {moved : List Cap}
    (heap : Heap arena ext m) (mode : env.Synchronous)
    (slots : ∀ p, p ∈ roots → RootSlot arena m p)
    (returned : doit arena env replies roots m = .ok (m', moved))
    (fits : CycleFits arena env replies roots m m') :
    Extends (ftFind m.table) (ftFind m'.table) := by
  obtain ⟨table, ext', s, _, same, visits, resumed⟩ :=
    fits.phases laws heap mode slots returned
  rw [← same, resumed.table]
  exact visits.extends

theorem CycleFits.keepsReferences (laws : cheri.Laws) {env : Env}
    {replies : Replies} {roots : List Nat} {ext : Extents} {m m' : Machine}
    {moved : List Cap} (heap : Heap arena ext m) (mode : env.Synchronous)
    (slots : ∀ p, p ∈ roots → RootSlot arena m p)
    (returned : doit arena env replies roots m = .ok (m', moved))
    (fits : CycleFits arena env replies roots m m') :
    KeepsReferences arena m m' := by
  obtain ⟨table, ext', s, _, _, visits, resumed⟩ :=
    fits.phases laws heap mode slots returned
  have resumes : KeepsReferences arena s m' := resumed.later
  have larger : Extends (ftFind s.table) (ftFind m'.table) := by
    rw [resumed.table]
    exact .refl _
  constructor
  · intro q c used word
    have started : arena.Used { m with table := table } q := used
    obtain ⟨c₁, word₁, later₁⟩ := visits.later laws started word
    obtain ⟨c₂, word₂, later₂⟩ := resumes.words (visits.used started) word₁
    exact ⟨c₂, word₂, (later₁.mono larger).trans later₂⟩
  · intro i
    have kept := resumes.regs i
    rw [visits.regs_eq] at kept
    exact kept

/-- The object a reference is to, by the place where the mutator has allocated
it. -/
def Denotes (m : Machine) (objs : List Nat) (c : Cap) (o : Nat) : Prop :=
  o ∈ objs ∧ Leads (ftFind m.table) o c.base

theorem Denotes.later {m m' : Machine} {objs : List Nat} {c c' : Cap} {o : Nat}
    (denotes : Denotes m objs c o)
    (larger : Extends (ftFind m.table) (ftFind m'.table))
    (later : Later (ftFind m'.table) c c') : Denotes m' objs c' o :=
  ⟨denotes.1, (denotes.2.mono larger).trans later.base⟩

namespace Sound

variable {objs : List Nat} {ext : Extents} {m : Machine} {pending : List Cap}

theorem denotes (sound : Sound arena objs ext m pending) {c : Cap} {l : Nat}
    (there : ext c.base = some l) : ∃ o, Denotes m objs c o := by
  obtain ⟨o, member, leads⟩ := sound.rooted there
  exact ⟨o, member, leads⟩

/-- References denote one object if and only if their chains have one end. -/
theorem same_object_iff (sound : Sound arena objs ext m pending) {a b : Cap}
    {o o' e e' : Nat} (first : Denotes m objs a o)
    (second : Denotes m objs b o') (firstEnd : Ends (ftFind m.table) a.base e)
    (secondEnd : Ends (ftFind m.table) b.base e') : o = o' ↔ e = e' := by
  have wholeFirst : Ends (ftFind m.table) o e :=
    ⟨first.2.trans firstEnd.1, firstEnd.2⟩
  have wholeSecond : Ends (ftFind m.table) o' e' :=
    ⟨second.2.trans secondEnd.1, secondEnd.2⟩
  constructor
  · intro same
    subst same
    exact wholeFirst.unique wholeSecond
  · intro same
    subst same
    exact (sound.linked.graph sound.heap).apart first.1 second.1 wholeFirst
      wholeSecond

end Sound

/-- Whether a cycle is one of a sound run, by the sizes of the table and the
heap. -/
def soundCycle (arena : Arena cheri) (m : Machine) (env : Env)
    (replies : Replies) (roots : List Nat) (m' : Machine) (moved : List Cap) :
    Bool :=
  fitsSmall arena m env replies roots m' moved &&
    decide (env.Synchronous ∧ KernelSucceeds replies moved)

theorem soundCycle_sound (laws : cheri.Laws) {ext : Extents} {m m' : Machine}
    (heap : Heap arena ext m) {env : Env} {replies : Replies}
    {roots : List Nat} {moved : List Cap}
    (slots : ∀ p, p ∈ roots → RootSlot arena m p)
    (returned : doit arena env replies roots m = .ok (m', moved))
    (accepted : soundCycle arena m env replies roots m' moved = true) :
    env.Synchronous ∧ CycleFits arena env replies roots m m' ∧
      KernelSucceeds replies moved := by
  rw [soundCycle, Bool.and_eq_true, decide_eq_true_eq] at accepted
  obtain ⟨small, mode, succeeds⟩ := accepted
  exact ⟨mode, fitsSmall_sound laws heap slots returned small, succeeds⟩

theorem soundRun_perform (laws : cheri.Laws) {acts : List Act}
    {objs : List Nat} {m : Machine}
    (ran : performWhen arena (soundCycle arena) [] Machine.boot acts =
      some (objs, m)) : SoundRun arena objs m := by
  refine performWhen_induction ?_ ?_ SoundRun.boot ran
  · intro objs m m' op granted run admissible executed
    exact .op op 0 4 run admissible executed
  · intro objs m env replies roots m' moved run slots returned accepted
    obtain ⟨ext, sound, _⟩ := run.sound laws
    obtain ⟨mode, fits, succeeds⟩ :=
      soundCycle_sound laws sound.heap slots returned accepted
    exact .cycle run mode slots returned fits succeeds

end StoplessGC
