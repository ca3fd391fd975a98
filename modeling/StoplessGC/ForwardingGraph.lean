import StoplessGC.RootLoss

/-!
# The forwarding graph

The entries of the table as links between copies of objects, along runs in
which the table never fills up and no chain outgrows `FT_CHASE_MAX`.  A new
link always leads to fresh memory, so that the links are injective, and the
place where the mutator allocated an object is never the target of a link.
Chains of different objects therefore never meet.
-/

namespace StoplessGC

open ForwardTable Allocator Forwarding Collector Mutator

variable {cheri : Intrinsics} {arena : Arena cheri}

/-- A cycle in which the table is never full, and after which no object has
been relocated more than `FT_CHASE_MAX` times. -/
structure CycleFits (arena : Arena cheri) (env : Env) (replies : Replies)
    (roots : List Nat) (m m' : Machine) : Prop where
  room : AtInsertion arena env replies (cycleLimit env m) roots
    (Scan.start (grown replies m)) (fun table _ =>
      HasRoom replies.callocInsert table)
  short : Within (ftFind m'.table) chaseMax

theorem doit_scan {env : Env} {replies : Replies} {roots : List Nat}
    {m m' : Machine} {moved : List Cap} (live : Live m.table)
    (returned : doit arena env replies roots m = .ok (m', moved)) :
    ∃ s, Live (grown replies m).table ∧
      ftFind (grown replies m).table = ftFind m.table ∧
      (∃ table, grown replies m = { m with table := table }) ∧
      scanRoots arena env replies (cycleLimit env m) roots
        (Scan.start (grown replies m)) = .ok s ∧
      moved = s.movedFrom ∧ m'.table = s.machine.table ∧
      (∀ ext, Heap arena ext s.machine → Heap arena ext m') := by
  obtain ⟨table, s, grew, tableLive, same, scanned, rfl, branch⟩ :=
    doit_cases live returned
  have start_eq : grown replies m = { m with table := table } := by
    simp only [grown, grew]
  rw [start_eq]
  refine ⟨s, tableLive, same, ⟨table, rfl⟩, scanned, rfl, ?_⟩
  rcases branch with ⟨_, rfl⟩ | ⟨_, _, concurrent⟩ | ⟨_, _, rfl⟩
  · exact ⟨rfl, fun _ heap => heap⟩
  · obtain ⟨swept, resumed⟩ := revokeConcurrent_resumed concurrent
    exact ⟨resumed.table, fun _ heap => resumed.heap heap⟩
  · have resumed := revokeSynchronous_resumed env replies s.movedFrom s.machine
    exact ⟨resumed.table, fun _ heap => resumed.heap heap⟩

theorem Visits.extends {env : Env} {granted : Bool} {lossy : Prop}
    {roots : List Nat} {ext ext' : Extents} {m m' : Machine} {all : List Cap}
    (visits : Visits arena env granted lossy roots ext m ext' m' all) :
    Extends (ftFind m.table) (ftFind m'.table) := by
  induction visits with
  | nil => exact .refl _
  | cons visit _ ih => exact visit.extends.trans ih

theorem Heap.absent_of_lookup (laws : cheri.Laws) {ext : Extents} {m : Machine}
    (heap : Heap arena ext m) (within : Within (ftFind m.table) chaseMax)
    {key : Nat}
    (missing : forwardTableLookup cheri (some arena.base) m.table key = none) :
    ftFind m.table key = none := by
  by_contra present
  obtain ⟨fwd, found⟩ := heap.lookup_complete laws within present
  rw [missing] at found
  cases found

theorem CycleFits.insertionsFit (laws : cheri.Laws) {env : Env}
    {replies : Replies} {roots : List Nat} {ext : Extents} {m m' : Machine}
    {moved : List Cap} (heap : Heap arena ext m)
    (slots : ∀ p, p ∈ roots → RootSlot arena m p)
    (returned : doit arena env replies roots m = .ok (m', moved))
    (fits : CycleFits arena env replies roots m m') :
    InsertionsFit arena env replies roots m := by
  intro before after p s o split early reaches
  refine ⟨fits.room split early reaches, ?_⟩
  obtain ⟨s', live, same, ⟨table, start_eq⟩, scanned, _, table_eq, _⟩ :=
    doit_scan heap.live returned
  rw [start_eq] at live same early scanned
  have startHeap := heap.start live same
  have startSlots : ∀ q, q ∈ before ++ p :: after →
      RootSlot arena (Scan.start { m with table := table }).machine q := by
    intro q member
    rw [← split] at member
    exact (slots q member).start table
  obtain ⟨⟨ext₁, heap₁⟩, _⟩ := scanRoots_middle laws startHeap startSlots early
  have laterSlots : ∀ q, q ∈ p :: after → RootSlot arena s.machine q := by
    intro q member
    have first : ∀ q, q ∈ before →
        RootSlot arena (Scan.start { m with table := table }).machine q :=
      fun q member => startSlots q (List.mem_append_left _ member)
    obtain ⟨_, _, visits, _⟩ := scanRoots_visits laws startHeap first
      (AtInsertion.trivial ..) early
    exact (visits.invariant laws (fun _ m _ => RootSlot arena m q)
      (fun _ _ visit root => visit.rootSlot laws root) startHeap first []
      (startSlots q (List.mem_append_right _ member))).2
  rw [split, scanRoots_append early] at scanned
  obtain ⟨_, _, visits, _⟩ := scanRoots_visits laws heap₁ laterSlots
    (AtInsertion.trivial ..) scanned
  have larger := visits.extends
  rw [← table_eq] at larger
  exact heap₁.absent_of_lookup laws (fits.short.of_extends larger)
    reaches.unforwarded

/-- The scan of a cycle whose insertions fit, visit by visit, without a
loss. -/
theorem InsertionsFit.visits (laws : cheri.Laws) {env : Env}
    {replies : Replies} {roots : List Nat} {ext : Extents} {m m' : Machine}
    {moved : List Cap} (heap : Heap arena ext m)
    (slots : ∀ p, p ∈ roots → RootSlot arena m p)
    (returned : doit arena env replies roots m = .ok (m', moved))
    (fit : InsertionsFit arena env replies roots m) :
    ∃ ext' s, scanRoots arena env replies (cycleLimit env m) roots
        (Scan.start (grown replies m)) = .ok s ∧
      Heap arena ext (grown replies m) ∧
      (∀ p, p ∈ roots → RootSlot arena (grown replies m) p) ∧
      ftFind (grown replies m).table = ftFind m.table ∧
      Visits arena env replies.callocInsert False roots ext (grown replies m)
        ext' s.machine moved ∧
      moved = s.movedFrom ∧ m'.table = s.machine.table ∧
      (∀ ext, Heap arena ext s.machine → Heap arena ext m') := by
  obtain ⟨s, live, same, ⟨table, start_eq⟩, scanned, moved_eq, table_eq,
    resumed⟩ := doit_scan heap.live returned
  have startHeap : Heap arena ext (Scan.start (grown replies m)).machine := by
    rw [start_eq] at live same ⊢
    exact heap.start live same
  have startSlots : ∀ p, p ∈ roots →
      RootSlot arena (Scan.start (grown replies m)).machine p := by
    rw [start_eq]
    exact fun p member => (slots p member).start table
  have room : AtInsertion arena env replies (cycleLimit env m) roots
      (Scan.start (grown replies m)) (fun table key =>
        False ∨ HasRoom replies.callocInsert table ∧ ftFind table key = none) :=
    fun _ _ _ _ _ split ran reaches => .inr (fit split ran reaches)
  obtain ⟨ext', all, visits, movedFrom⟩ :=
    scanRoots_visits laws startHeap startSlots room scanned
  have all_eq : s.movedFrom = all := movedFrom
  subst all_eq moved_eq
  exact ⟨ext', s, scanned, startHeap, startSlots, same, visits, rfl, table_eq,
    resumed⟩

/-- Links are injective, and lead nowhere where the mutator has allocated. -/
structure Linked (ext : Extents) (objs : List Nat) (m : Machine) : Prop where
  injective : Injective (ftFind m.table)
  objects : ∀ o, o ∈ objs → ext o ≠ none
  sources : ∀ o, o ∈ objs → ¬ Target (ftFind m.table) o
  distinct : objs.Nodup

theorem Heap.not_target {ext : Extents} {m : Machine} (heap : Heap arena ext m)
    {a : Nat} (unused : ext a = none) : ¬ Target (ftFind m.table) a := by
  intro target
  obtain ⟨k, l, linked⟩ := target
  rw [heap.target linked] at unused
  cases unused

namespace Linked

variable {ext ext' : Extents} {objs : List Nat} {m m' : Machine}

theorem grows (linked : Linked ext objs m) (grows : ext.Grows ext')
    (same : ftFind m'.table = ftFind m.table) : Linked ext' objs m' := by
  constructor
  · rw [same]
    exact linked.injective
  · intro o member
    obtain ⟨l, there⟩ := Option.ne_none_iff_exists'.mp (linked.objects o member)
    rw [grows there]
    exact Option.some_ne_none l
  · rw [same]
    exact linked.sources
  · exact linked.distinct

theorem visit {env : Env} {granted : Bool} {lossy : Prop} {p : Nat}
    {news : List Cap} (heap : Heap arena ext m) (linked : Linked ext objs m)
    (visit : Visit arena env granted lossy p ext m ext' m' news) :
    Linked ext' objs m' := by
  have larger := visit.grows heap
  cases visit with
  | quiet => exact linked
  | fixed word based atStart present ends there =>
      exact linked.grows larger (by rw [fix_table])
  | @moved o size start bump table moves absent room live added =>
      have unused := moves.fresh.unused heap.packed
      have next : Linked _ objs m := linked.grows larger rfl
      constructor
      · rw [fix_table, added]
        exact linked.injective.update (heap.not_target unused)
      · exact next.objects
      · intro a member target
        rw [fix_table, added] at target
        rcases target_update target with rfl | before
        · exact linked.objects a member unused
        · exact linked.sources a member before
      · exact linked.distinct
  | lost loses moves missing live same =>
      exact linked.grows larger (by rw [fix_table, same])

theorem born (heap : Heap arena ext m) (linked : Linked ext objs m)
    {start l bump : Nat} (fresh : Fresh arena m.bumpOffset start l bump)
    (same : ftFind m'.table = ftFind m.table) :
    Linked (Function.update ext start (some l)) (objs ++ [start]) m' := by
  have unused := fresh.unused heap.packed
  have next : Linked _ objs m' := linked.grows (fresh.grows heap.packed) same
  have new : start ∉ objs := fun member => linked.objects start member unused
  constructor
  · exact next.injective
  · intro o member
    rcases List.mem_append.mp member with old | last
    · exact next.objects o old
    · rw [List.mem_singleton.mp last, Function.update_self]
      exact Option.some_ne_none l
  · intro o member
    rcases List.mem_append.mp member with old | last
    · exact next.sources o old
    · rw [List.mem_singleton.mp last, same]
      exact heap.not_target unused
  · apply List.Nodup.append linked.distinct (List.nodup_singleton start)
    intro o old last
    rw [List.mem_singleton.mp last] at old
    exact new old

end Linked

/-- The keys that a scan has added so far are the addresses on `moved_from`. -/
structure Recorded (find : Nat → Option (Nat × Nat)) (m : Machine)
    (done : List Cap) : Prop where
  keys : ∀ k, ftFind m.table k ≠ none ↔
    find k ≠ none ∨ k ∈ done.map Cap.address
  new : ∀ k, k ∈ done.map Cap.address → find k = none
  nodup : (done.map Cap.address).Nodup

theorem Recorded.visit {env : Env} {granted : Bool} {p : Nat}
    {ext ext' : Extents} {m m' : Machine} {done news : List Cap}
    {find : Nat → Option (Nat × Nat)} (recorded : Recorded find m done)
    (visit : Visit arena env granted False p ext m ext' m' news) :
    Recorded find m' (done ++ news) := by
  cases visit with
  | quiet =>
      rw [List.append_nil]
      exact recorded
  | fixed word based atStart present ends there =>
      rw [List.append_nil]
      refine ⟨?_, recorded.new, recorded.nodup⟩
      rw [fix_table]
      exact recorded.keys
  | @moved o size start bump table moves absent room live added =>
      have unknown : ¬ (find o.address ≠ none ∨
          o.address ∈ done.map Cap.address) := by
        rw [← recorded.keys, moves.atStart]
        exact not_not_intro absent
      rw [not_or, not_not] at unknown
      constructor
      · intro k
        rw [fix_table, added, List.map_append, List.mem_append, ← or_assoc,
          ← recorded.keys]
        by_cases here : k = o.base
        · simp [here, moves.atStart]
        · simp [moves.atStart, here]
      · intro k member
        rw [List.map_append, List.mem_append] at member
        rcases member with old | last
        · exact recorded.new k old
        · rw [List.map_singleton, List.mem_singleton] at last
          rw [last]
          exact unknown.1
      · rw [List.map_append]
        apply List.Nodup.append recorded.nodup (List.nodup_singleton _)
        intro k old last
        rw [List.mem_singleton.mp last] at old
        exact unknown.2 old
  | lost loses => exact loses.elim

/-- A visit moves at most one object, and none beyond the limit. -/
theorem doOop_count {env : Env} {replies : Replies} {limit : Nat}
    {s s' : Scan} {p : Nat}
    (ran : doOop arena env replies limit s p = .ok s') :
    s'.moved = s.moved ∧ s'.movedFrom = s.movedFrom ∨
      s.moved < limit ∧ s'.moved = s.moved + 1 ∧
        ∃ o, s'.movedFrom = s.movedFrom ++ [o] := by
  unfold doOop at ran
  simp only at ran
  split at ran
  · cases ran
    exact .inl ⟨rfl, rfl⟩
  split at ran
  · cases ran
    exact .inl ⟨rfl, rfl⟩
  split at ran
  · cases ran
    exact .inl ⟨rfl, rfl⟩
  split at ran
  · cases ran
    exact .inl ⟨fixup_moved .., fixup_movedFrom ..⟩
  split at ran
  · cases ran
    exact .inl ⟨rfl, rfl⟩
  rename_i below
  split at ran
  · cases ran
  split at ran
  · unfold relocate at ran
    split at ran
    · cases ran
      exact .inl ⟨rfl, rfl⟩
    split at ran
    · cases ran
    · cases ran
      exact .inr ⟨Nat.lt_of_not_le below, fixup_moved .., _,
        fixup_movedFrom ..⟩
  · cases ran
    exact .inl ⟨rfl, rfl⟩

theorem scanRoots_count {env : Env} {replies : Replies} {limit : Nat}
    {roots : List Nat} {s s' : Scan}
    (ran : scanRoots arena env replies limit roots s = .ok s')
    (counted : s.movedFrom.length = s.moved) (within : s.moved ≤ limit) :
    s'.movedFrom.length = s'.moved ∧ s'.moved ≤ limit := by
  induction roots generalizing s with
  | nil =>
      cases ran
      exact ⟨counted, within⟩
  | cons p rest ih =>
      obtain ⟨s₁, visited, later⟩ := scanRoots_cons ran
      rcases doOop_count visited with ⟨same, movedFrom⟩ |
        ⟨below, more, o, movedFrom⟩
      · exact ih later (by rw [movedFrom, same, counted])
          (by rw [same]; exact within)
      · exact ih later (by rw [movedFrom, more, List.length_append, counted]; rfl)
          (by rw [more]; exact below)

/-- Runs in which the table is never full and no object is relocated more than
`FT_CHASE_MAX` times, with the places where the mutator has allocated. -/
inductive FitRun (arena : Arena cheri) : List Nat → Machine → Prop where
  | boot : FitRun arena [] Machine.boot
  | op {objs : List Nat} {m m' : Machine} (op : Op) (pc fuel : Nat)
      {granted : Bool} :
      FitRun arena objs m → op.Admissible cheri m →
      exec arena none pc fuel m op = some (m', granted) →
      FitRun arena (objs ++ births arena m op) m'
  | cycle {objs : List Nat} {m m' : Machine} {env : Env} {replies : Replies}
      {roots : List Nat} {moved : List Cap} :
      FitRun arena objs m → (∀ p, p ∈ roots → RootSlot arena m p) →
      doit arena env replies roots m = .ok (m', moved) →
      CycleFits arena env replies roots m m' → FitRun arena objs m'
  | revoked {objs : List Nat} {m : Machine} (words : Nat → Bool)
      (regs : Fin 30 → Bool) :
      FitRun arena objs m →
      FitRun arena objs
        { m with
          mem := fun p =>
            if words p then sweepWord m.shadow (m.mem p) else m.mem p
          regs := fun i =>
            if regs i then Revoke.sweepCap m.shadow (m.regs i) else m.regs i }
  | closed {objs : List Nat} {m : Machine} :
      FitRun arena objs m → FitRun arena objs { m with closePending := false }

theorem Linked.exec (laws : cheri.Laws) {ext : Extents} {objs : List Nat}
    {m m' : Machine} (heap : Heap arena ext m) (linked : Linked ext objs m)
    {op : Op} {pc fuel : Nat} {granted : Bool}
    (admissible : op.Admissible cheri m)
    (ran : exec arena none pc fuel m op = some (m', granted)) :
    ∃ ext', Heap arena ext' m' ∧ Linked ext' (objs ++ births arena m op) m' := by
  obtain ⟨ext', effect, born⟩ := exec_effect laws heap admissible ran
  have same : ftFind m'.table = ftFind m.table := by rw [effect.table_eq]
  refine ⟨ext', effect.heap laws heap, ?_⟩
  generalize births arena m op = new at born
  cases born with
  | none =>
      rw [List.append_nil]
      exact linked.grows (fun _ _ there => there) same
  | object fresh => exact linked.born heap fresh same

theorem Linked.visits (laws : cheri.Laws) {ext ext' : Extents}
    {objs roots : List Nat} {m m' : Machine} {env : Env} {granted : Bool}
    {lossy : Prop} {all : List Cap} (linked : Linked ext objs m)
    (visits : Visits arena env granted lossy roots ext m ext' m' all)
    (heap : Heap arena ext m) (slots : ∀ p, p ∈ roots → RootSlot arena m p) :
    Heap arena ext' m' ∧ Linked ext' objs m' :=
  visits.invariant laws (fun ext m _ => Linked ext objs m)
    (fun heap _ visit before => before.visit heap visit) heap slots [] linked

theorem FitRun.linked (laws : cheri.Laws) {objs : List Nat} {m : Machine}
    (run : FitRun arena objs m) :
    ∃ ext, Heap arena ext m ∧ Linked ext objs m := by
  induction run with
  | boot =>
      refine ⟨_, heap_boot, ?_⟩
      constructor
      · intro a b c v w first
        cases first
      · simp
      · simp
      · exact List.nodup_nil
  | op op pc fuel _ admissible ran ih =>
      obtain ⟨ext, heap, linked⟩ := ih
      exact linked.exec laws heap admissible ran
  | @cycle objs m m' env replies roots moved _ slots returned fits ih =>
      obtain ⟨ext, heap, linked⟩ := ih
      obtain ⟨ext', s, _, startHeap, startSlots, same, visits, _, table_eq,
        resumed⟩ := (fits.insertionsFit laws heap slots returned).visits laws
          heap slots returned
      have start : Linked ext objs (grown replies m) :=
        linked.grows (fun _ _ there => there) same
      obtain ⟨after, last⟩ := start.visits laws visits startHeap startSlots
      refine ⟨ext', resumed ext' after, ?_⟩
      exact last.grows (fun _ _ there => there) (by rw [table_eq])
  | @revoked objs m words regs _ ih =>
      obtain ⟨ext, heap, linked⟩ := ih
      exact ⟨ext, heap.revoked words regs,
        linked.grows (fun _ _ there => there) rfl⟩
  | closed _ ih =>
      obtain ⟨ext, heap, linked⟩ := ih
      exact ⟨ext, heap.congr rfl rfl rfl rfl,
        linked.grows (fun _ _ there => there) rfl⟩

/-- Links stay injective in every run, also where objects are lost. -/
theorem Step.injective (laws : cheri.Laws) {ext : Extents} {m m' : Machine}
    (heap : Heap arena ext m) (injective : Injective (ftFind m.table))
    (step : Step arena m m') :
    ∃ ext', Heap arena ext' m' ∧ Injective (ftFind m'.table) := by
  have linked : Linked ext [] m :=
    ⟨injective, by simp, by simp, List.nodup_nil⟩
  cases step with
  | op op pc fuel admissible ran =>
      obtain ⟨ext', after, last⟩ := linked.exec laws heap admissible ran
      exact ⟨ext', after, last.injective⟩
  | @cycle _ env replies roots moved slots returned =>
      obtain ⟨s, live, same, ⟨table, start_eq⟩, scanned, _, table_eq,
        resumed⟩ := doit_scan heap.live returned
      rw [start_eq] at live same scanned
      have startSlots : ∀ p, p ∈ roots →
          RootSlot arena (Scan.start { m with table := table }).machine p :=
        fun p member => (slots p member).start table
      obtain ⟨ext', all, visits, _⟩ := scanRoots_visits laws
        (heap.start live same) startSlots (AtInsertion.trivial ..) scanned
      have start : Linked ext [] (Scan.start { m with table := table }).machine :=
        linked.grows (fun _ _ there => there) same
      obtain ⟨after, last⟩ := start.visits laws visits (heap.start live same)
        startSlots
      refine ⟨ext', resumed ext' after, ?_⟩
      rw [table_eq]
      exact last.injective
  | revoked words regs => exact ⟨ext, heap.revoked words regs, injective⟩
  | closed => exact ⟨ext, heap.congr rfl rfl rfl rfl, injective⟩

theorem Runs.injective (laws : cheri.Laws) {m : Machine}
    (runs : Runs arena Machine.boot m) :
    ∃ ext, Heap arena ext m ∧ Injective (ftFind m.table) := by
  induction runs with
  | refl =>
      refine ⟨_, heap_boot, ?_⟩
      intro a b c v w first
      cases first
  | tail _ last ih =>
      obtain ⟨ext, heap, injective⟩ := ih
      exact last.injective laws heap injective

/-- An allocated object of `l` bytes starts here. -/
structure ObjectAt (arena : Arena cheri) (m : Machine) (a l : Nat) : Prop where
  header : ∃ klass size, m.mem a = .header klass size ∧ Sized cheri size l
  lower : arena.base.base ≤ a
  upper : a + l ≤ arena.base.base + m.bumpOffset
  positive : 0 < l

theorem Heap.objectAt {ext : Extents} {m : Machine} (heap : Heap arena ext m)
    {a l : Nat} (there : ext a = some l) : ObjectAt arena m a l where
  header := heap.headers there
  lower := heap.packed.lower there
  upper := heap.packed.upper there
  positive := heap.packed.positive there

/-- The table as a graph on the objects of the arena, with the places where
the mutator has allocated. -/
structure Graph (arena : Arena cheri) (objs : List Nat) (m : Machine) :
    Prop where
  entries : ∀ {k b l}, ftFind m.table k = some (b, l) →
    ObjectAt arena m k l ∧ ObjectAt arena m b l
  upward : ∀ {k b l}, ftFind m.table k = some (b, l) →
    k < b ∧ b < arena.base.base + m.bumpOffset
  injective : Injective (ftFind m.table)
  acyclic : ∀ {n k}, 0 < n → ¬ Hops (ftFind m.table) n k k
  ends : ∀ a, ∃! b, Ends (ftFind m.table) a b
  current : ∀ {k b}, ftFind m.table k ≠ none → Ends (ftFind m.table) k b →
    ftFind m.table b = none ∧ ∃ l, ObjectAt arena m b l
  objects : ∀ o, o ∈ objs → ∃ l, ObjectAt arena m o l
  distinct : objs.Nodup
  apart : ∀ {o o' b}, o ∈ objs → o' ∈ objs → Ends (ftFind m.table) o b →
    Ends (ftFind m.table) o' b → o = o'

/-- Every link of a chain leads to a higher address. -/
theorem Heap.hops_le {ext : Extents} {m : Machine} (heap : Heap arena ext m)
    {n a b : Nat} (hops : Hops (ftFind m.table) n a b) : a + n ≤ b := by
  induction hops with
  | here a => exact Nat.le_refl a
  | hop linked _ ih =>
      have higher := heap.upward linked
      omega

theorem Linked.graph {ext : Extents} {objs : List Nat} {m : Machine}
    (heap : Heap arena ext m) (linked : Linked ext objs m) :
    Graph arena objs m := by
  constructor
  · intro k b l link
    exact ⟨heap.objectAt (heap.source link), heap.objectAt (heap.target link)⟩
  · intro k b l link
    have upper := heap.packed.upper (heap.target link)
    have positive := heap.packed.positive (heap.target link)
    exact ⟨heap.upward link, by omega⟩
  · exact linked.injective
  · intro n k positive hops
    have higher := heap.hops_le hops
    omega
  · intro a
    obtain ⟨b, ends⟩ := heap.exists_end a
    exact ⟨b, ends, fun c other => other.unique ends⟩
  · intro k b present ends
    obtain ⟨⟨b', l⟩, link⟩ := Option.ne_none_iff_exists'.mp present
    obtain ⟨⟨n, hops⟩, ended⟩ := ends
    have there : ext b = some l := by
      rw [← heap.ext_of_hops hops]
      exact heap.source link
    exact ⟨ended, l, heap.objectAt there⟩
  · intro o member
    obtain ⟨l, there⟩ := Option.ne_none_iff_exists'.mp (linked.objects o member)
    exact ⟨l, heap.objectAt there⟩
  · exact linked.distinct
  · intro o o' b member member' ends ends'
    obtain ⟨⟨n, hops⟩, _⟩ := ends
    obtain ⟨⟨n', hops'⟩, _⟩ := ends'
    exact hops.source_unique linked.injective hops' (linked.sources o member)
      (linked.sources o' member')

/-- What a cycle adds to the table. -/
structure CycleKeys (env : Env) (m m' : Machine) (moved : List Cap) : Prop where
  kept : Extends (ftFind m.table) (ftFind m'.table)
  keys : ∀ k, ftFind m.table k = none ∧ ftFind m'.table k ≠ none ↔
    k ∈ moved.map Cap.address
  nodup : (moved.map Cap.address).Nodup
  limit : moved.length ≤ cycleLimit env m

theorem CycleFits.cycleKeys (laws : cheri.Laws) {env : Env} {replies : Replies}
    {roots : List Nat} {ext : Extents} {m m' : Machine} {moved : List Cap}
    (heap : Heap arena ext m) (slots : ∀ p, p ∈ roots → RootSlot arena m p)
    (returned : doit arena env replies roots m = .ok (m', moved))
    (fits : CycleFits arena env replies roots m m') :
    CycleKeys env m m' moved := by
  obtain ⟨ext', s, scanned, startHeap, startSlots, same, visits, moved_eq,
    table_eq, _⟩ := (fits.insertionsFit laws heap slots returned).visits laws
      heap slots returned
  have start : Recorded (ftFind m.table) (grown replies m) [] := by
    refine ⟨?_, by simp, List.nodup_nil⟩
    intro k
    rw [same]
    simp
  have recorded : Recorded (ftFind m.table) s.machine moved :=
    (visits.invariant laws (fun _ m' done => Recorded (ftFind m.table) m' done)
      (fun _ _ visit before => before.visit visit) startHeap startSlots []
      start).2
  constructor
  · rw [table_eq, ← same]
    exact visits.extends
  · intro k
    rw [table_eq, recorded.keys]
    constructor
    · intro added
      exact added.2.resolve_left (not_not_intro added.1)
    · intro member
      exact ⟨recorded.new k member, .inr member⟩
  · exact recorded.nodup
  · obtain ⟨counted, within⟩ := scanRoots_count scanned rfl (Nat.zero_le _)
    rw [moved_eq, counted]
    exact within

/-- In every state of such a run the table is a graph of this kind, and every
further cycle of such a run adds exactly the objects it moves. -/
theorem forwarding_graph (laws : cheri.Laws) {objs : List Nat} {m : Machine}
    (run : FitRun arena objs m) :
    Graph arena objs m ∧
      ∀ {env : Env} {replies : Replies} {roots : List Nat} {m' : Machine}
        {moved : List Cap}, (∀ p, p ∈ roots → RootSlot arena m p) →
        doit arena env replies roots m = .ok (m', moved) →
        CycleFits arena env replies roots m m' →
        CycleKeys env m m' moved := by
  obtain ⟨ext, heap, linked⟩ := run.linked laws
  exact ⟨linked.graph heap, fun slots returned fits =>
    fits.cycleKeys laws heap slots returned⟩

theorem Heap.within {ext : Extents} {m : Machine} (heap : Heap arena ext m) :
    Within (ftFind m.table) m.bumpOffset := by
  intro n a b hops
  have higher := heap.hops_le hops
  cases hops with
  | here => exact Nat.zero_le _
  | hop linked rest =>
      have lower := heap.packed.lower (heap.source linked)
      have there := heap.target linked
      rw [heap.ext_of_hops rest] at there
      have upper := heap.packed.upper there
      omega

/-- Whether the table has room at every visit of a scan. -/
def roomy (arena : Arena cheri) (env : Env) (replies : Replies) (limit : Nat) :
    List Nat → Scan → Bool
  | [], _ => true
  | p :: rest, s =>
      decide ((forwardTableInit replies.callocInsert s.machine.table).gSize <
        (forwardTableInit replies.callocInsert s.machine.table).gCapacity) &&
      match doOop arena env replies limit s p with
      | .error _ => true
      | .ok s' => roomy arena env replies limit rest s'

theorem roomy_sound {env : Env} {replies : Replies} {limit : Nat}
    {roots : List Nat} {start : Scan}
    (accepted : roomy arena env replies limit roots start = true) :
    AtInsertion arena env replies limit roots start (fun table _ =>
      HasRoom replies.callocInsert table) := by
  intro before after p s o split ran reaches
  subst split
  induction before generalizing start with
  | nil =>
      cases ran
      rw [List.nil_append, roomy, Bool.and_eq_true, decide_eq_true_eq]
        at accepted
      exact accepted.1
  | cons q before ih =>
      obtain ⟨s₁, visited, later⟩ := scanRoots_cons ran
      rw [List.cons_append, roomy, Bool.and_eq_true, visited] at accepted
      exact ih later accepted.2

/-- Whether a cycle fits, by the sizes of the table and the heap. -/
def fitsSmall (arena : Arena cheri) (m : Machine) (env : Env)
    (replies : Replies) (roots : List Nat) (m' : Machine) (_ : List Cap) :
    Bool :=
  roomy arena env replies (cycleLimit env m) roots
    (Scan.start (grown replies m)) && decide (m'.bumpOffset ≤ chaseMax)

theorem fitsSmall_sound (laws : cheri.Laws) {ext : Extents} {m m' : Machine}
    (heap : Heap arena ext m) {env : Env} {replies : Replies}
    {roots : List Nat} {moved : List Cap}
    (slots : ∀ p, p ∈ roots → RootSlot arena m p)
    (returned : doit arena env replies roots m = .ok (m', moved))
    (accepted : fitsSmall arena m env replies roots m' moved = true) :
    CycleFits arena env replies roots m m' := by
  rw [fitsSmall, Bool.and_eq_true, decide_eq_true_eq] at accepted
  obtain ⟨ext', after⟩ := heap.doit laws slots returned
  refine ⟨roomy_sound accepted.1, ?_⟩
  intro n a b hops
  exact (after.within hops).trans accepted.2

theorem fitRun_perform (laws : cheri.Laws) {acts : List Act} {objs : List Nat}
    {m : Machine}
    (ran : performWhen arena (fitsSmall arena) [] Machine.boot acts =
      some (objs, m)) : FitRun arena objs m := by
  refine performWhen_induction ?_ ?_ FitRun.boot ran
  · intro objs m m' op granted run admissible executed
    exact .op op 0 4 run admissible executed
  · intro objs m env replies roots m' moved run slots returned accepted
    obtain ⟨ext, heap, _⟩ := run.linked laws
    exact .cycle run slots returned
      (fitsSmall_sound laws heap slots returned accepted)

/-- An object with a reference to itself has been moved; its slot was presented
twice. -/
def movedOnce : List Act :=
  [.op (.alloc 0 none 2), .op (.spill 16 0), .op (.store 0 16 0),
    .cycle Env.unset Replies.granted [16, 16]]

/-- The next cycle also presents the stale field of the copy. -/
theorem forwarding_graph_movedOnce :
    ∃ objs m m' moved,
      performWhen Arena.small (fitsSmall Arena.small) [] Machine.boot
        movedOnce = some (objs, m) ∧
      doit Arena.small Env.unset Replies.granted [2 ^ 30 + 48, 16] m =
        .ok (m', moved) ∧
      ftFind m.table (2 ^ 30) = some (2 ^ 30 + 32, 32) ∧
      Graph Arena.small objs m ∧ CycleKeys Env.unset m m' moved := by
  have laws := Intrinsics.exact_laws
  obtain ⟨⟨objs, m⟩, ran, checked⟩ := (Option.any_eq_true _ _).mp
    (by decide +kernel : (performWhen Arena.small (fitsSmall Arena.small) []
      Machine.boot movedOnce).any (fun r =>
        decide (ftFind r.2.table (2 ^ 30) = some (2 ^ 30 + 32, 32)) &&
        [2 ^ 30 + 48, 16].all (rootSlot Arena.small r.2) &&
        (doit Arena.small Env.unset Replies.granted [2 ^ 30 + 48, 16]
          r.2).toOption.any (fun next => fitsSmall Arena.small r.2 Env.unset
            Replies.granted [2 ^ 30 + 48, 16] next.1 next.2)) = true)
  rw [Bool.and_eq_true, Bool.and_eq_true, decide_eq_true_eq] at checked
  obtain ⟨⟨entry, accepted⟩, next⟩ := checked
  have run := fitRun_perform laws ran
  obtain ⟨⟨m', moved⟩, returned, small⟩ := Except.exists_of_any next
  have slots : ∀ p, p ∈ [2 ^ 30 + 48, 16] → RootSlot Arena.small m p :=
    fun p member => rootSlot_sound (List.all_eq_true.mp accepted p member)
  obtain ⟨ext, heap, _⟩ := run.linked laws
  obtain ⟨graph, keys⟩ := forwarding_graph laws run
  exact ⟨objs, m, m', moved, ran, returned, entry, graph, keys slots returned
    (fitsSmall_sound laws heap slots returned small)⟩

end StoplessGC
