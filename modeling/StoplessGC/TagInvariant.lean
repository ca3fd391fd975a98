import StoplessGC.Execution

/-!
# Tags, marks and entries

What marks and sweeps have to do with the forwarding table.  Along a cycle of
the synchronous mode the objects moved so far are pending: a tagged capability
is based at a copy without an entry or at a pending one.  Marking all pending
objects and sweeping leaves no tagged capability that is based at a key.
-/

namespace StoplessGC

open ForwardTable Allocator Forwarding Collector Handler Mutator

variable {cheri : Intrinsics} {arena : Arena cheri}

theorem markAll_iff {markRc : Nat → Int} {moved : List Cap} {n : Nat}
    (succeed : ∀ i, i < moved.length → markRc (n + i) = 0)
    (nonnull : ∀ o, o ∈ moved → o.address ≠ 0) (shadow : Revoke.Shadow)
    (a : Nat) :
    markAll markRc n moved shadow a = true ↔
      shadow a = true ∨
        ∃ o, o ∈ moved ∧ o.base ≤ a ∧ a < o.base + o.length := by
  induction moved generalizing n shadow with
  | nil => simp [markAll]
  | cons o rest ih =>
      obtain ⟨zero, later⟩ := marks_succeed succeed
      rw [markAll, ih later
        (fun other member => nonnull other (List.mem_cons_of_mem o member))]
      simp only [Revoke.stoplessMarkRevokeCap,
        if_neg (nonnull o List.mem_cons_self), zero, ne_eq, not_true_eq_false,
        if_false, Bool.or_eq_true, Bool.and_eq_true, decide_eq_true_eq,
        List.mem_cons]
      constructor
      · rintro ((marked | inside) | ⟨other, member, inside⟩)
        · exact .inl marked
        · exact .inr ⟨o, .inl rfl, inside⟩
        · exact .inr ⟨other, .inr member, inside⟩
      · rintro (marked | ⟨other, rfl | member, inside⟩)
        · exact .inl (.inl marked)
        · exact .inl (.inr inside)
        · exact .inr ⟨other, member, inside⟩

theorem markAll_zero_iff {markRc : Nat → Int} {moved : List Cap}
    (succeed : ∀ n, n < moved.length → markRc n = 0)
    (nonnull : ∀ o, o ∈ moved → o.address ≠ 0) (shadow : Revoke.Shadow)
    (a : Nat) :
    markAll markRc 0 moved shadow a = true ↔
      shadow a = true ∨
        ∃ o, o ∈ moved ∧ o.base ≤ a ∧ a < o.base + o.length := by
  apply markAll_iff _ nonnull
  intro n below
  rw [Nat.zero_add]
  exact succeed n below

/-- Tagged capabilities are based at copies without an entry, keys are marked,
both apart from the objects whose revocation is pending. -/
structure Revocable (arena : Arena cheri) (ext : Extents) (m : Machine)
    (pending : List Cap) : Prop where
  tagged : m.Every (fun c => c.tag = true →
    ftFind m.table c.base = none ∨ ∃ o, o ∈ pending ∧ o.base = c.base)
  marked : ∀ {k b l}, ftFind m.table k = some (b, l) →
    (∀ a, k ≤ a → a < k + l → m.shadow a = true) ∨
      ∃ o, o ∈ pending ∧ o.base = k
  pending : ∀ o, o ∈ pending → Based arena ext o ∧ o.address = o.base

namespace Machine.Every

variable {m : Machine} {P : Cap → Prop}

theorem fix (every : m.Every P) (env : Env) (p : Nat) {c : Cap} (holds : P c) :
    (fix env m p c).Every P := by
  unfold StoplessGC.fix
  split
  · exact every
  · exact every.store p holds

theorem congr (every : m.Every P) {m' : Machine} (mem : m'.mem = m.mem)
    (regs : m'.regs = m.regs) : m'.Every P := by
  constructor
  · rw [mem]
    exact every.mem
  · rw [regs]
    exact every.regs

theorem retable (every : m.Every P) (table : State) :
    ({ m with table := table } : Machine).Every P :=
  ⟨every.mem, every.regs⟩

end Machine.Every

@[simp] theorem fix_shadow (env : Env) (m : Machine) (p : Nat) (c : Cap) :
    (fix env m p c).shadow = m.shadow := by
  unfold fix
  split <;> rfl

namespace Revocable

variable {ext ext' : Extents} {m m' : Machine} {done news : List Cap}

theorem retable (before : Revocable arena ext m done) {table : State}
    (same : ftFind table = ftFind m.table) :
    Revocable arena ext { m with table := table } done := by
  constructor
  · change Machine.Every _ (fun c => c.tag = true →
      ftFind table c.base = none ∨ _)
    rw [same]
    exact before.tagged.retable table
  · change ∀ {k b l}, ftFind table k = some (b, l) → _
    rw [same]
    exact before.marked
  · exact before.pending

/-- A new copy that is pending changes nothing for those before. -/
theorem moves {p size start bump : Nat} {o : Cap} {table : State}
    (heap : Heap arena ext m) (before : Revocable arena ext m done)
    (moves : Moves arena ext m p o size start bump)
    (kept : ∀ {k}, k ≠ o.base → ftFind table k = ftFind m.table k) :
    Revocable arena (Function.update ext start (some o.length))
      { copyOf m o size start bump with table := table } (done ++ [o]) := by
  have last : o ∈ done ++ [o] :=
    List.mem_append_right _ (List.mem_singleton_self o)
  constructor
  · refine Machine.Every.retable ?_ table
    refine (before.tagged.copyOf o size start bump).imp ?_
    intro c earlier tag
    by_cases here : c.base = o.base
    · exact .inr ⟨o, last, here.symm⟩
    · rcases earlier tag with current | ⟨other, member, same⟩
      · exact .inl ((kept here).trans current)
      · exact .inr ⟨other, List.mem_append_left _ member, same⟩
  · intro k b l link
    by_cases here : k = o.base
    · exact .inr ⟨o, last, here.symm⟩
    · rw [show ftFind table k = _ from kept here] at link
      rcases before.marked link with marked | ⟨other, member, same⟩
      · refine .inl fun a lower upper => ?_
        change (copyOf m o size start bump).shadow a = true
        rw [copyOf_shadow]
        exact marked a lower upper
      · exact .inr ⟨other, List.mem_append_left _ member, same⟩
  · intro other member
    have grows := moves.fresh.grows heap.packed
    rcases List.mem_append.mp member with early | same
    · obtain ⟨based, atStart⟩ := before.pending other early
      exact ⟨based.grows grows, atStart⟩
    · rw [List.mem_singleton.mp same]
      exact ⟨moves.based.grows grows, moves.atStart⟩

theorem fix {env : Env} {p : Nat} {c : Cap}
    (before : Revocable arena ext m done)
    (holds : c.tag = true → ftFind m.table c.base = none) :
    Revocable arena ext (fix env m p c) done := by
  constructor
  · rw [fix_table]
    exact before.tagged.fix env p (fun tag => .inl (holds tag))
  · rw [fix_table, fix_shadow]
    exact before.marked
  · exact before.pending

theorem visit {env : Env} {granted : Bool} {lossy : Prop} {p : Nat}
    (heap : Heap arena ext m) (before : Revocable arena ext m done)
    (visit : Visit arena env granted lossy p ext m ext' m' news) :
    Revocable arena ext' m' (done ++ news) := by
  cases visit with
  | quiet =>
      rw [List.append_nil]
      exact before
  | fixed word based atStart present ends there =>
      rw [List.append_nil]
      exact before.fix (fun _ => ends.2)
  | @moved o size start bump table moves absent room live added =>
      have unused := moves.fresh.unused heap.packed
      have apart : start ≠ o.base := by
        intro same
        rw [same, moves.based.extent] at unused
        cases unused
      refine fix (before.moves heap moves ?_) ?_
      · intro k other
        rw [added, Function.update_of_ne other]
      · intro _
        change ftFind table start = none
        rw [added, Function.update_of_ne apart]
        exact heap.unlinked unused
  | lost loses moves missing live same =>
      refine fix (before.moves heap moves ?_) ?_
      · intro k _
        rw [same]
      · intro tag
        cases tag

theorem nonnull (heap : Heap arena ext m) (before : Revocable arena ext m done) :
    ∀ o, o ∈ done → o.address ≠ 0 := by
  intro o member
  obtain ⟨based, atStart⟩ := before.pending o member
  rw [atStart]
  exact heap.packed.nonzero based.extent

theorem idle (before : Revocable arena ext m []) {swept : Prop}
    (unswept : ¬ swept) (resumed : Resumed m m.shadow swept m') :
    Revocable arena ext m' [] := by
  rcases resumed.words with ⟨done, _⟩ | ⟨_, mem, regs⟩
  · exact absurd done unswept
  · constructor
    · rw [resumed.table]
      exact before.tagged.congr mem regs
    · rw [resumed.table, resumed.shadow]
      exact before.marked
    · exact before.pending

/-- Marks that succeed and a completed sweep revoke what is pending. -/
theorem swept {markRc : Nat → Int} {swept : Prop} (heap : Heap arena ext m)
    (before : Revocable arena ext m done)
    (succeed : ∀ n, n < done.length → markRc n = 0) (completed : swept)
    (resumed : Resumed m (markAll markRc 0 done m.shadow) swept m') :
    Revocable arena ext m' [] := by
  have marks := markAll_zero_iff succeed (before.nonnull heap) m.shadow
  rcases resumed.words with ⟨_, mem, regs⟩ | ⟨unswept, _⟩
  case inr => exact absurd completed unswept
  constructor
  · rw [resumed.table]
    refine Machine.Every.congr ?_ mem regs
    have both : ({ m with shadow := markAll markRc 0 done m.shadow } :
        Machine).Every (fun c => CapOk arena ext c ∧ (c.tag = true →
          ftFind m.table c.base = none ∨ ∃ o, o ∈ done ∧ o.base = c.base)) :=
      ⟨fun loaded => ⟨heap.caps.mem loaded, before.tagged.mem loaded⟩,
        fun i => ⟨heap.caps.regs i, before.tagged.regs i⟩⟩
    apply both.sweep
    rintro c ⟨ok, earlier⟩ tag
    simp only [Revoke.sweepCap, Bool.and_eq_true, Bool.or_eq_true,
      Bool.not_eq_true'] at tag
    obtain ⟨tagged, spared⟩ := tag
    rcases ok with ⟨n, rfl⟩ | based
    · cases tagged
    rcases earlier tagged with current | ⟨o, member, same⟩
    · exact .inl current
    · exfalso
      rcases spared with exempt | unmarked
      · rw [based.perms] at exempt
        cases exempt
      · have positive := heap.packed.positive (before.pending o member).1.extent
        have marked := (marks c.base).mpr
          (.inr ⟨o, member, Nat.le_of_eq same, by omega⟩)
        rw [unmarked] at marked
        cases marked
  · intro k b l link
    rw [resumed.table] at link
    left
    intro a lower upper
    rw [resumed.shadow, marks]
    rcases before.marked link with marked | ⟨o, member, same⟩
    · exact .inl (marked a lower upper)
    · have length : o.length = l := by
        have extent := (before.pending o member).1.extent
        rw [same, heap.source link] at extent
        exact (Option.some.inj extent).symm
      exact .inr ⟨o, member, by omega, by omega⟩
  · simp

theorem derived (laws : cheri.Laws) (heap : Heap arena ext m)
    (before : Revocable arena ext m []) {c : Cap}
    (derived : Derived arena m c) :
    c.tag = true → ftFind m.table c.base = none := by
  have every : m.Every (fun c => CapOk arena ext c ∧
      (c.tag = true → ftFind m.table c.base = none)) := by
    refine ⟨fun loaded => ⟨heap.caps.mem loaded, fun tag => ?_⟩,
      fun i => ⟨heap.caps.regs i, fun tag => ?_⟩⟩
    · simpa using before.tagged.mem loaded tag
    · simpa using before.tagged.regs i tag
  refine (Derived.property every ?_ ?_ ?_ derived).2
  · intro n
    exact ⟨CapOk.ofInt arena ext n, fun tag => by cases tag⟩
  · intro c address before lower upper
    refine ⟨before.1.addressSet lower upper, ?_⟩
    intro tag
    exact before.2 (Bool.and_eq_true _ _ ▸ tag).1
  · intro c fwd before healed
    obtain ⟨based, _, current⟩ := heap.tryCap_sound laws before.1 healed
    exact ⟨.inr based, fun _ => current⟩

theorem effect (laws : cheri.Laws) (heap : Heap arena ext m)
    (before : Revocable arena ext m []) (effect : Effect arena ext m ext' m') :
    Revocable arena ext' m' [] := by
  have zero : ∀ {n : Nat}, (Cap.ofInt n).tag = true →
      ftFind m.table (Cap.ofInt n).base = none ∨
        ∃ o, o ∈ ([] : List Cap) ∧ o.base = (Cap.ofInt n).base := by
    intro n tag
    cases tag
  cases effect with
  | regs new =>
      refine ⟨⟨before.tagged.mem, fun i tag => ?_⟩, before.marked, by simp⟩
      exact .inl (before.derived laws heap (new i) tag)
  | @write regs p c new free stored =>
      have changed : Machine.Every { m with regs := regs } (fun c =>
          c.tag = true → ftFind m.table c.base = none ∨
            ∃ o, o ∈ ([] : List Cap) ∧ o.base = c.base) :=
        ⟨before.tagged.mem, fun i tag =>
          .inl (before.derived laws heap (new i) tag)⟩
      refine ⟨changed.store _ fun tag => ?_, before.marked, by simp⟩
      exact .inl (before.derived laws heap stored tag)
  | @alloc dst klass size start l bump fresh sized =>
      have reserved : Machine.Every { m with bumpOffset := bump } _ :=
        ⟨before.tagged.mem, before.tagged.regs⟩
      have written := reserved.initialise zero start klass size (size - 1)
      have table : (initialise { m with bumpOffset := bump } start klass size
          (size - 1)).table = m.table := by
        rw [initialise_eq]
      have shadow : (initialise { m with bumpOffset := bump } start klass size
          (size - 1)).shadow = m.shadow := by
        rw [initialise_eq]
      constructor
      · change Machine.Every (setReg _ dst _) (fun c => c.tag = true →
          ftFind (initialise _ start klass size _).table c.base = none ∨ _)
        rw [table]
        exact written.setReg dst fun _ =>
          .inl (heap.unlinked (fresh.unused heap.packed))
      · change ∀ {k b l}, ftFind (initialise _ start klass size _).table k =
          some (b, l) → (∀ a, k ≤ a → a < k + l →
            (initialise _ start klass size _).shadow a = true) ∨ _
        rw [table, shadow]
        exact before.marked
      · simp

end Revocable

/-- Untagged references are based at keys, and marks are set only for keys.
This needs scans that lose nothing. -/
structure Guarded (ext : Extents) (m : Machine) (pending : List Cap) :
    Prop where
  stale : m.Every (fun c => c.tag = false → c.base ≠ 0 →
    ftFind m.table c.base ≠ none)
  marks : ∀ {a}, m.shadow a = true → ∃ k l, ext k = some l ∧ k ≤ a ∧
    a < k + l ∧ ftFind m.table k ≠ none
  keys : ∀ o, o ∈ pending → ftFind m.table o.base ≠ none

namespace Guarded

variable {ext ext' : Extents} {m m' : Machine} {done news : List Cap}

theorem grows (before : Guarded ext m done) (grows : ext.Grows ext')
    (larger : Extends (ftFind m.table) (ftFind m'.table))
    (shadow : m'.shadow = m.shadow)
    (stale : m'.Every (fun c => c.tag = false → c.base ≠ 0 →
      ftFind m'.table c.base ≠ none)) : Guarded ext' m' done := by
  have still : ∀ {k}, ftFind m.table k ≠ none → ftFind m'.table k ≠ none := by
    intro k present
    obtain ⟨pair, link⟩ := Option.ne_none_iff_exists'.mp present
    rw [larger link]
    exact Option.some_ne_none pair
  constructor
  · exact stale
  · intro a marked
    rw [shadow] at marked
    obtain ⟨k, l, there, lower, upper, present⟩ := before.marks marked
    exact ⟨k, l, grows there, lower, upper, still present⟩
  · exact fun o member => still (before.keys o member)

theorem visit {env : Env} {granted : Bool} {p : Nat} (heap : Heap arena ext m)
    (before : Guarded ext m done)
    (visit : Visit arena env granted False p ext m ext' m' news) :
    Guarded ext' m' (done ++ news) := by
  have grows := visit.grows heap
  have larger := visit.extends
  have stale : m.Every (fun c => c.tag = false → c.base ≠ 0 →
      ftFind m'.table c.base ≠ none) := by
    refine before.stale.imp ?_
    intro c present untagged nonzero
    obtain ⟨pair, link⟩ := Option.ne_none_iff_exists'.mp
      (present untagged nonzero)
    rw [larger link]
    exact Option.some_ne_none pair
  have tagged : ∀ b l : Nat, (objectCap arena b l).tag = false →
      (objectCap arena b l).base ≠ 0 →
      ftFind m'.table (objectCap arena b l).base ≠ none := by
    intro b l untagged
    cases untagged
  cases visit with
  | quiet =>
      rw [List.append_nil]
      exact before
  | fixed word based atStart present ends there =>
      rw [List.append_nil]
      exact before.grows grows larger (fix_shadow ..)
        (stale.fix env p (tagged _ _))
  | @moved o size start bump table moves absent room live added =>
      have copied := ((stale.copyOf o size start bump).retable table).fix env p
        (tagged start o.length)
      have next := before.grows grows larger
        ((fix_shadow ..).trans (copyOf_shadow ..)) copied
      refine ⟨next.stale, next.marks, ?_⟩
      intro other member
      rcases List.mem_append.mp member with early | last
      · exact next.keys other early
      · rw [List.mem_singleton.mp last, fix_table]
        change ftFind table o.base ≠ none
        rw [added, Function.update_self]
        exact Option.some_ne_none _
  | lost loses => exact loses.elim

theorem derived (laws : cheri.Laws) (heap : Heap arena ext m)
    (before : Guarded ext m []) {c : Cap} (derived : Derived arena m c) :
    c.tag = false → c.base ≠ 0 → ftFind m.table c.base ≠ none := by
  have every : m.Every (fun c => CapOk arena ext c ∧ (c.tag = false →
      c.base ≠ 0 → ftFind m.table c.base ≠ none)) :=
    ⟨fun loaded => ⟨heap.caps.mem loaded, before.stale.mem loaded⟩,
      fun i => ⟨heap.caps.regs i, before.stale.regs i⟩⟩
  refine (Derived.property every ?_ ?_ ?_ derived).2
  · intro n
    exact ⟨CapOk.ofInt arena ext n, fun _ nonzero => absurd rfl nonzero⟩
  · intro c address before lower upper
    refine ⟨before.1.addressSet lower upper, ?_⟩
    intro untagged nonzero
    have kept := laws.representable_inBounds c address lower upper
    simp only [Intrinsics.addressSet, kept, Bool.and_true] at untagged
    exact before.2 untagged nonzero
  · intro c fwd before healed
    obtain ⟨based, tagged, _⟩ := heap.tryCap_sound laws before.1 healed
    refine ⟨.inr based, fun untagged => ?_⟩
    rw [tagged] at untagged
    cases untagged

theorem effect (laws : cheri.Laws) (heap : Heap arena ext m)
    (before : Guarded ext m []) (effect : Effect arena ext m ext' m') :
    Guarded ext' m' [] := by
  have larger : Extends (ftFind m.table) (ftFind m'.table) := by
    rw [effect.table_eq]
    exact .refl _
  have grows := effect.grows heap
  have new := fun {c} => before.derived laws heap (c := c)
  cases effect with
  | regs regs =>
      exact before.grows grows larger rfl
        ⟨before.stale.mem, fun i => new (regs i)⟩
  | @write regs p c held free stored =>
      have changed : Machine.Every { m with regs := regs } (fun c =>
          c.tag = false → c.base ≠ 0 → ftFind m.table c.base ≠ none) :=
        ⟨before.stale.mem, fun i => new (held i)⟩
      exact before.grows grows larger rfl (changed.store p (new stored))
  | @alloc dst klass size start l bump fresh sized =>
      have reserved : Machine.Every { m with bumpOffset := bump } (fun c =>
          c.tag = false → c.base ≠ 0 → ftFind m.table c.base ≠ none) :=
        ⟨before.stale.mem, before.stale.regs⟩
      have written := reserved.initialise (fun _ nonzero => absurd rfl nonzero)
        start klass size (size - 1)
      have shadow : (initialise { m with bumpOffset := bump } start klass size
          (size - 1)).shadow = m.shadow := by
        rw [initialise_eq]
      have table : (initialise { m with bumpOffset := bump } start klass size
          (size - 1)).table = m.table := by
        rw [initialise_eq]
      refine before.grows grows larger shadow ?_
      change Machine.Every (setReg _ dst _) (fun c => c.tag = false →
        c.base ≠ 0 → ftFind (initialise _ start klass size _).table c.base ≠ none)
      rw [table]
      exact written.setReg dst (fun untagged => by cases untagged)

/-- What a sweep takes the tag of is a key. -/
theorem resumed {markRc : Nat → Int} {swept : Prop} (heap : Heap arena ext m)
    (before : Guarded ext m done) (revocable : Revocable arena ext m done)
    (succeed : ∀ n, n < done.length → markRc n = 0)
    (resumed : Resumed m (markAll markRc 0 done m.shadow) swept m') :
    Guarded ext m' [] := by
  have marks : ∀ {a}, markAll markRc 0 done m.shadow a = true →
      ∃ k l, ext k = some l ∧ k ≤ a ∧ a < k + l ∧ ftFind m.table k ≠ none := by
    intro a marked
    rw [markAll_zero_iff succeed (revocable.nonnull heap)] at marked
    rcases marked with early | ⟨o, member, lower, upper⟩
    · exact before.marks early
    · exact ⟨o.base, o.length, (revocable.pending o member).1.extent, lower,
        upper, before.keys o member⟩
  constructor
  · rw [resumed.table]
    rcases resumed.words with ⟨_, mem, regs⟩ | ⟨_, mem, regs⟩
    · refine Machine.Every.congr ?_ mem regs
      have both : ({ m with shadow := markAll markRc 0 done m.shadow } :
          Machine).Every (fun c => CapOk arena ext c ∧ (c.tag = false →
            c.base ≠ 0 → ftFind m.table c.base ≠ none)) :=
        ⟨fun loaded => ⟨heap.caps.mem loaded, before.stale.mem loaded⟩,
          fun i => ⟨heap.caps.regs i, before.stale.regs i⟩⟩
      apply both.sweep
      rintro c ⟨ok, stale⟩ untagged nonzero
      cases tag : c.tag with
      | false => exact stale tag nonzero
      | true =>
          simp only [Revoke.sweepCap, tag, Bool.true_and, Bool.or_eq_false_iff,
            Bool.not_eq_false'] at untagged
          obtain ⟨k, l, there, lower, upper, key⟩ := marks untagged.2
          rcases ok with ⟨n, rfl⟩ | based
          · exact absurd rfl nonzero
          · have positive := heap.packed.positive based.extent
            have same := heap.packed.unique there based.extent ⟨lower, upper⟩
              ⟨Nat.le_refl _, by omega⟩
            change ftFind m.table c.base ≠ none
            rw [← same]
            exact key
    · exact before.stale.congr mem regs
  · intro a marked
    rw [resumed.shadow] at marked
    rw [resumed.table]
    exact marks marked
  · simp

end Guarded

end StoplessGC
