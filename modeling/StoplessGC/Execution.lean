import StoplessGC.RootScan

/-!
# Runs of the machine

`Effect` lists what an instruction can do to a well-formed heap, with every
heal on the way, and `Step` is one instruction, one collection cycle in any
mode, or a part of a revocation that the kernel makes in the background.  Every
reachable machine has a well-formed heap.
-/

namespace StoplessGC

open ForwardTable Allocator Forwarding Collector Handler Mutator

variable {cheri : Intrinsics} {arena : Arena cheri}

/-- The capabilities a mutator gets hold of: those in memory and registers,
integers, pointers into the same bounds, and healed ones. -/
inductive Derived (arena : Arena cheri) (m : Machine) : Cap → Prop where
  | mem {p : Nat} {c : Cap} : m.mem p = .value c → Derived arena m c
  | reg (i : Fin 30) : Derived arena m (m.regs i)
  | int (n : Nat) : Derived arena m (Cap.ofInt n)
  | lea {c : Cap} {address : Nat} :
      Derived arena m c → c.base ≤ address → address ≤ c.base + c.length →
      Derived arena m (cheri.addressSet c address)
  | healed {c fwd : Cap} :
      Derived arena m c → tryCap arena none m.table c = some fwd →
      Derived arena m fwd

/-- A property of all capabilities of the machine that pointer arithmetic and
healing keep. -/
theorem Derived.property {m : Machine} {P : Cap → Prop} (every : m.Every P)
    (int : ∀ n, P (Cap.ofInt n))
    (lea : ∀ {c address}, P c → c.base ≤ address →
      address ≤ c.base + c.length → P (cheri.addressSet c address))
    (healed : ∀ {c fwd}, P c → tryCap arena none m.table c = some fwd → P fwd)
    {c : Cap} (derived : Derived arena m c) : P c := by
  induction derived with
  | mem loaded => exact every.mem loaded
  | reg i => exact every.regs i
  | int n => exact int n
  | lea _ lower upper ih => exact lea ih lower upper
  | healed _ healedTo ih => exact healed ih healedTo

theorem Derived.update {m : Machine} {regs : Fin 30 → Cap}
    (derived : ∀ i, Derived arena m (regs i)) (dst : Fin 30) {c : Cap}
    (new : Derived arena m c) :
    ∀ i, Derived arena m (Function.update regs dst c i) := by
  intro i
  by_cases here : i = dst
  · subst here
    rw [Function.update_self]
    exact new
  · rw [Function.update_of_ne here]
    exact derived i

/-- The effects of one instruction. -/
inductive Effect (arena : Arena cheri) (ext : Extents) (m : Machine) :
    Extents → Machine → Prop where
  | regs {regs : Fin 30 → Cap} :
      (∀ i, Derived arena m (regs i)) →
      Effect arena ext m ext { m with regs := regs }
  | write {regs : Fin 30 → Cap} {p : Nat} {c : Cap} :
      (∀ i, Derived arena m (regs i)) → ext p = none → Derived arena m c →
      Effect arena ext m ext
        (({ m with regs := regs } : Machine).store p (.value c))
  | alloc {dst : Fin 30} {klass : Option Klass} {size start l bump : Nat} :
      Fresh arena m.bumpOffset start l bump → Sized cheri size l →
      Effect arena ext m (Function.update ext start (some l))
        (setReg (initialise { m with bumpOffset := bump } start klass size
          (size - 1)) dst (objectCap arena start l))

theorem stoplessTryHeal_cases {evacuate : Option (Nat → Option Cap)}
    {table : State} {fault : Fault} {regs regs' : Fin 30 → Cap}
    (healed : stoplessTryHeal arena evacuate table fault regs = some regs') :
    regs' = regs ∨ ∃ i fwd, tryCap arena evacuate table (regs i) = some fwd ∧
      regs' = Function.update regs i fwd := by
  have tried : ∀ {i : Nat} {fwd : Cap} {j : Fin 30},
      tryReg arena evacuate table regs i = some (fwd, j) →
      tryCap arena evacuate table (regs j) = some fwd := by
    intro i fwd j found
    unfold tryReg at found
    split at found
    · split at found
      · cases found
      · cases found
        assumption
    · cases found
  have scanned : ∀ {fuel i : Nat} {fwd : Cap} {j : Fin 30},
      scanRegs arena evacuate table regs fuel i = some (fwd, j) →
      tryCap arena evacuate table (regs j) = some fwd := by
    intro fuel
    induction fuel with
    | zero =>
        intro i fwd j found
        cases found
    | succ fuel ih =>
        intro i fwd j found
        unfold scanRegs at found
        cases here : tryReg arena evacuate table regs i with
        | none =>
            simp only [here] at found
            exact ih found
        | some result =>
            simp only [here] at found
            cases found
            exact tried here
  unfold stoplessTryHeal at healed
  split at healed
  · cases healed
  cases direct : tryReg arena evacuate table regs fault.rn with
  | some result =>
      simp only [direct] at healed
      cases healed
      exact .inr ⟨_, _, tried direct, rfl⟩
  | none =>
      simp only [direct] at healed
      cases other : scanRegs arena evacuate table regs 30 0 with
      | some result =>
          simp only [other] at healed
          cases healed
          exact .inr ⟨_, _, scanned other, rfl⟩
      | none =>
          simp only [other] at healed
          split at healed
          · cases healed
            exact .inl rfl
          · cases healed

theorem access_derived {m : Machine} {pc : Nat} {base : Fin 30} {delta : Nat}
    {fuel : Nat} {regs regs' : Fin 30 → Cap}
    (derived : ∀ i, Derived arena m (regs i))
    (passed : access arena none m.table pc base delta fuel regs = some regs') :
    ∀ i, Derived arena m (regs' i) := by
  induction fuel generalizing regs with
  | zero => cases passed
  | succ fuel ih =>
      unfold access at passed
      cases checked : check (regs base) delta with
      | none =>
          simp only [checked] at passed
          cases passed
          exact derived
      | some code =>
          simp only [checked] at passed
          cases healed : stoplessTryHeal arena none m.table
              { siCode := code, siAddr := pc, rn := base } regs with
          | none =>
              simp only [healed] at passed
              cases passed
          | some patched =>
              simp only [healed] at passed
              rcases stoplessTryHeal_cases healed with rfl | ⟨i, fwd, tried, rfl⟩
              · exact ih derived passed
              · exact ih (Derived.update derived i (.healed (derived i) tried))
                  passed

/-- What compiled code guarantees: requests that do not wrap, and pointer
arithmetic within bounds. -/
def Mutator.Op.Admissible (cheri : Intrinsics) (m : Machine) : Op → Prop
  | .alloc _ _ size => size * heapWordSize < addressSpace ∧
      NoWrap cheri m.bumpOffset
        (cheri.representableLength (size * heapWordSize))
  | .lea _ src delta =>
      (m.regs src).base ≤ effective (m.regs src) delta ∧
        effective (m.regs src) delta ≤ (m.regs src).base + (m.regs src).length
  | _ => True

/-- Where the objects start that an instruction allocates. -/
def births (arena : Arena cheri) (m : Machine) : Op → List Nat
  | .alloc _ _ size =>
      match memAllocate arena m size with
      | none => []
      | some (obj, _) => [obj.address]
  | _ => []

/-- What an instruction adds to the extents: nothing, or a new object. -/
inductive Births (arena : Arena cheri) (m : Machine) (ext : Extents) :
    List Nat → Extents → Prop where
  | none : Births arena m ext [] ext
  | object {start l bump : Nat} :
      Fresh arena m.bumpOffset start l bump →
      Births arena m ext [start] (Function.update ext start (some l))

theorem exec_effect (laws : cheri.Laws) {ext : Extents} {m m' : Machine}
    (heap : Heap arena ext m) {op : Op} {pc fuel : Nat} {granted : Bool}
    (admissible : op.Admissible cheri m)
    (ran : exec arena none pc fuel m op = some (m', granted)) :
    ∃ ext', Effect arena ext m ext' m' ∧
      Births arena m ext (births arena m op) ext' := by
  have own : ∀ i, Derived arena m (m.regs i) := Derived.reg
  cases op with
  | alloc dst klass size =>
      unfold exec at ran
      cases allocated : memAllocate arena m size with
      | none =>
          simp only [allocated] at ran
          cases ran
          refine ⟨ext, .regs (Derived.update own dst (.int 0)), ?_⟩
          simp only [births, allocated]
          exact .none
      | some result =>
          obtain ⟨obj, reserved⟩ := result
          simp only [allocated] at ran
          cases ran
          obtain ⟨start, l, bump, fresh, sized, rfl, rfl⟩ :=
            memAllocate_eq_some laws heap.packed admissible.1 admissible.2
              allocated
          refine ⟨_, .alloc fresh sized, ?_⟩
          simp only [births, allocated]
          exact .object fresh
  | imm dst n =>
      cases ran
      exact ⟨ext, .regs (Derived.update own dst (.int n)), .none⟩
  | move dst src =>
      cases ran
      exact ⟨ext, .regs (Derived.update own dst (.reg src)), .none⟩
  | lea dst src delta =>
      cases ran
      exact ⟨ext, .regs (Derived.update own dst
        (.lea (.reg src) admissible.1 admissible.2)), .none⟩
  | fill dst p =>
      simp only [exec] at ran
      split at ran
      · cases ran
      cases word : m.load p with
      | header klass size =>
          simp only [word] at ran
          cases ran
      | value c =>
          simp only [word] at ran
          cases ran
          exact ⟨ext, .regs (Derived.update own dst (.mem word)), .none⟩
  | spill p src =>
      simp only [exec] at ran
      split at ran
      · cases ran
      rename_i outside
      cases ran
      refine ⟨ext, .write own ?_ (.reg src), .none⟩
      cases there : ext p with
      | none => rfl
      | some l =>
          have positive := heap.packed.positive there
          exact absurd (heap.packed.covers there (Nat.le_refl p) (by omega))
            outside
  | load dst base delta =>
      obtain ⟨regs, c, passed, word, rfl⟩ := exec_load arena ran
      have healed := access_derived own passed
      exact ⟨ext, .regs (Derived.update healed dst (.mem word)), .none⟩
  | store base delta src =>
      obtain ⟨regs, c, passed, word, rfl⟩ := exec_store arena ran
      have healed := access_derived own passed
      exact ⟨ext, .write healed (heap.ext_of_value word) (healed src), .none⟩

theorem Handler.offset_of_le {a b : Nat} (lower : b ≤ a)
    (small : a - b < addressSpace) : offset a b = a - b := by
  rw [offset, Nat.add_comm a, Nat.add_sub_assoc lower, Nat.add_mod_left]
  exact Nat.mod_eq_of_lt small

namespace Heap

variable {ext : Extents} {m : Machine}

theorem offset_eq (heap : Heap arena ext m) {c : Cap}
    (based : Based arena ext c) :
    offset c.address c.base = c.address - c.base := by
  have lower := based.lower
  have upper := based.upper
  have last := heap.packed.upper based.extent
  have below := heap.packed.bump_le
  have user := arena.userSpace
  apply offset_of_le lower
  rw [addressSpace]
  omega

theorem reapply_eq (laws : cheri.Laws) (heap : Heap arena ext m) {b l off : Nat}
    (there : ext b = some l) (inside : off ≤ l) :
    reapply cheri (objectCap arena b l) off =
      { objectCap arena b l with address := b + off } := by
  have last := heap.packed.upper there
  have below := heap.packed.bump_le
  have user := arena.userSpace
  unfold reapply
  split
  · have small : b + off < addressSpace := by
      rw [addressSpace]
      omega
    have kept := laws.representable_inBounds (objectCap arena b l) (b + off)
      (Nat.le_add_right b off) (Nat.add_le_add_left inside b)
    simp only [Intrinsics.addressSet, objectCap] at kept ⊢
    rw [Nat.mod_eq_of_lt small, kept]
    rfl
  · rename_i zero
    have none : off = 0 := by omega
    subst none
    rfl

/-- What the handler heals a capability to: a tagged reference to a copy that
has not been moved. -/
theorem tryCap_sound (laws : cheri.Laws) (heap : Heap arena ext m) {c fwd : Cap}
    (ok : CapOk arena ext c)
    (healed : tryCap arena none m.table c = some fwd) :
    Based arena ext fwd ∧ fwd.tag = true ∧
      ftFind m.table fwd.base = none := by
  have rebuilt : ∀ {key off : Nat} {new : Cap},
      forwardTableLookup cheri (some arena.base) m.table key = some new →
      (∀ l, ext key = some l → off ≤ l) →
      reapply cheri new off = fwd →
      Based arena ext fwd ∧ fwd.tag = true ∧
        ftFind m.table fwd.base = none := by
    intro key off new found inside same
    obtain ⟨b, l, rfl, there, keyThere, _, ends⟩ := heap.lookup_sound laws found
    have fits := inside l keyThere
    rw [heap.reapply_eq laws there fits] at same
    subst same
    refine ⟨?_, rfl, ends.2⟩
    exact
      { extent := there
        perms := rfl
        lower := Nat.le_add_right b off
        upper := Nat.add_le_add_left fits b }
  unfold tryCap at healed
  split at healed
  · cases healed
  cases byBase : forwardTableLookup cheri (some arena.base) m.table c.base with
  | some new =>
      simp only [byBase] at healed
      apply rebuilt byBase _ (Option.some.inj healed)
      intro l there
      rcases ok with ⟨n, rfl⟩ | based
      · rw [Cap.ofInt_base, heap.packed.zero] at there
        cases there
      · rw [based.extent] at there
        cases there
        rw [heap.offset_eq based]
        have upper := based.upper
        omega
  | none =>
      simp only [byBase] at healed
      cases byAddress : (if c.address ≠ c.base then
          forwardTableLookup cheri (some arena.base) m.table c.address
        else none) with
      | none =>
          simp only [byAddress] at healed
          cases healed
      | some new =>
          simp only [byAddress] at healed
          split at byAddress
          · exact rebuilt byAddress (fun l _ => Nat.zero_le l)
              (Option.some.inj healed)
          · cases byAddress

theorem derived_ok (laws : cheri.Laws) (heap : Heap arena ext m) {c : Cap}
    (derived : Derived arena m c) : CapOk arena ext c := by
  apply Derived.property heap.caps (CapOk.ofInt arena ext) _ _ derived
  · intro c address ok lower upper
    exact ok.addressSet lower upper
  · intro c fwd ok healed
    exact .inr (heap.tryCap_sound laws ok healed).1

theorem withRegs (laws : cheri.Laws) (heap : Heap arena ext m)
    {regs : Fin 30 → Cap} (derived : ∀ i, Derived arena m (regs i)) :
    Heap arena ext { m with regs := regs } :=
  { heap with
    caps := ⟨heap.caps.mem, fun i => heap.derived_ok laws (derived i)⟩ }

end Heap

section Initialise

variable (m : Machine) (start : Nat) (klass : Option Klass) (size n : Nat)

theorem initialise_eq :
    initialise m start klass size n =
      { m with mem := (initialise m start klass size n).mem } := by
  induction n with
  | zero => rfl
  | succ n ih =>
      rw [initialise, ih]
      rfl

theorem initialise_frame {p : Nat}
    (outside : p < start ∨ start + (n + 1) * heapWordSize ≤ p) :
    (initialise m start klass size n).mem p = m.mem p := by
  induction n with
  | zero =>
      have elsewhere : p ≠ start := by
        rw [heapWordSize] at outside
        omega
      exact m.store_mem_of_ne _ elsewhere
  | succ n ih =>
      have elsewhere : p ≠ start + (n + 1) * heapWordSize := by
        rw [heapWordSize] at outside ⊢
        omega
      have inner : p < start ∨ start + (n + 1) * heapWordSize ≤ p := by
        refine outside.imp_right (Nat.le_trans ?_)
        exact Nat.add_le_add_left (Nat.mul_le_mul_right _ (Nat.le_succ _)) _
      rw [initialise, Machine.store_mem_of_ne _ _ elsewhere]
      exact ih inner

theorem initialise_header :
    (initialise m start klass size n).mem start = .header klass size := by
  induction n with
  | zero => exact m.store_mem_self ..
  | succ n ih =>
      have elsewhere : start ≠ start + (n + 1) * heapWordSize := by
        rw [heapWordSize]
        omega
      rw [initialise, Machine.store_mem_of_ne _ _ elsewhere]
      exact ih

theorem initialise_field {i : Nat} (positive : 0 < i) (below : i ≤ n) :
    (initialise m start klass size n).mem (start + i * heapWordSize) =
      .value (Cap.ofInt 0) := by
  induction n with
  | zero => omega
  | succ n ih =>
      rw [initialise]
      by_cases last : i = n + 1
      · rw [last, Machine.store_mem_self]
      · have elsewhere : start + i * heapWordSize ≠
            start + (n + 1) * heapWordSize := by
          rw [heapWordSize]
          omega
        rw [Machine.store_mem_of_ne _ _ elsewhere]
        exact ih (by omega)

end Initialise

theorem Heap.initialised {ext : Extents} {m : Machine}
    (heap : Heap arena ext m) {klass : Option Klass} {size start l bump : Nat}
    (fresh : Fresh arena m.bumpOffset start l bump)
    (sized : Sized cheri size l) :
    Heap arena (Function.update ext start (some l))
      (initialise { m with bumpOffset := bump } start klass size
        (size - 1)) := by
  apply heap.extend fresh
  · rw [initialise_eq]
  · rw [initialise_eq]
  · intro p below
    exact initialise_frame _ _ _ _ _ (.inl below)
  · exact ⟨klass, size, initialise_header .., sized⟩
  · have reserved : ({ m with bumpOffset := bump } : Machine).Every
        (CapOk arena ext) := ⟨heap.caps.mem, heap.caps.regs⟩
    exact reserved.initialise (CapOk.ofInt ..) ..

theorem Effect.heap (laws : cheri.Laws) {ext ext' : Extents} {m m' : Machine}
    (before : Heap arena ext m) (effect : Effect arena ext m ext' m') :
    Heap arena ext' m' := by
  cases effect with
  | regs derived => exact before.withRegs laws derived
  | write derived free new =>
      exact (before.withRegs laws derived).store free (before.derived_ok laws new)
  | alloc fresh sized =>
      exact (before.initialised fresh sized).setReg _
        (.inr (based_objectCap (Function.update_self ..)))

theorem Effect.grows {ext ext' : Extents} {m m' : Machine}
    (before : Heap arena ext m) (effect : Effect arena ext m ext' m') :
    ext.Grows ext' := by
  cases effect with
  | regs derived => exact fun _ _ there => there
  | write derived free new => exact fun _ _ there => there
  | alloc fresh sized => exact fresh.grows before.packed

theorem Effect.table_eq {ext ext' : Extents} {m m' : Machine}
    (effect : Effect arena ext m ext' m') : m'.table = m.table := by
  cases effect with
  | regs derived => rfl
  | write derived free new => rfl
  | alloc fresh sized =>
      change (initialise _ _ _ _ _).table = _
      rw [initialise_eq]

theorem doit_cases {env : Env} {replies : Replies} {roots : List Nat}
    {m m' : Machine} {moved : List Cap} (live : Live m.table)
    (returned : doit arena env replies roots m = .ok (m', moved)) :
    ∃ table s,
      forwardTableMaybeGrow replies.callocGrow m.table = .ok table ∧
      Live table ∧ ftFind table = ftFind m.table ∧
      scanRoots arena env replies (cycleLimit env m) roots
        (Scan.start { m with table := table }) = .ok s ∧
      moved = s.movedFrom ∧
      (env.noRevoke = true ∧ m' = s.machine ∨
        env.noRevoke = false ∧ env.revokeConcurrent = true ∧
          Collector.revokeConcurrent replies moved s.machine = .ok m' ∨
        env.noRevoke = false ∧ env.revokeConcurrent = false ∧
          m' = revokeSynchronous env replies moved s.machine) := by
  obtain ⟨table, grown, tableLive, same⟩ := live.maybeGrow replies.callocGrow
  simp only [doit, grown] at returned
  cases scanned : scanRoots arena env replies (cycleLimit env m) roots
      (Scan.start { m with table := table }) with
  | error reason =>
      rw [scanned] at returned
      cases returned
  | ok s =>
      rw [scanned] at returned
      refine ⟨table, s, grown, tableLive, same, scanned, ?_⟩
      change (if env.noRevoke = true then _ else _) = _ at returned
      cases noRevoke : env.noRevoke with
      | true =>
          rw [if_pos noRevoke] at returned
          cases returned
          exact ⟨rfl, .inl ⟨rfl, rfl⟩⟩
      | false =>
          rw [if_neg (by simp [noRevoke])] at returned
          cases concurrent : env.revokeConcurrent with
          | true =>
              rw [if_pos concurrent] at returned
              cases revoked : Collector.revokeConcurrent replies s.movedFrom
                  s.machine with
              | error reason =>
                  rw [revoked] at returned
                  cases returned
              | ok resumed =>
                  rw [revoked] at returned
                  cases returned
                  exact ⟨rfl, .inr (.inl ⟨rfl, rfl, revoked⟩)⟩
          | false =>
              rw [if_neg (by simp [concurrent])] at returned
              cases returned
              exact ⟨rfl, .inr (.inr ⟨rfl, rfl, rfl⟩)⟩

theorem Heap.congr {ext : Extents} {m m' : Machine} (heap : Heap arena ext m)
    (mem : m'.mem = m.mem) (regs : m'.regs = m.regs)
    (bump : m'.bumpOffset = m.bumpOffset) (table : m'.table = m.table) :
    Heap arena ext m' := by
  constructor
  · rw [bump]
    exact heap.packed
  · rw [mem]
    exact heap.headers
  · rw [table]
    exact heap.live
  · rw [table]
    exact heap.source
  · rw [table]
    exact heap.target
  · rw [table]
    exact heap.upward
  · refine ⟨?_, ?_⟩
    · rw [mem]
      exact heap.caps.mem
    · rw [regs]
      exact heap.caps.regs

/-- What the mutators resume on after marks have been set: `swept` tells
whether a completed sweep followed. -/
structure Resumed (m : Machine) (marks : Revoke.Shadow) (swept : Prop)
    (m' : Machine) : Prop where
  table : m'.table = m.table
  bump : m'.bumpOffset = m.bumpOffset
  shadow : m'.shadow = marks
  words : swept ∧ m'.mem = (sweep { m with shadow := marks }).mem ∧
      m'.regs = (sweep { m with shadow := marks }).regs ∨
    ¬ swept ∧ m'.mem = m.mem ∧ m'.regs = m.regs

theorem Resumed.heap {ext : Extents} {m m' : Machine}
    {marks : Revoke.Shadow} {swept : Prop} (heap : Heap arena ext m)
    (resumed : Resumed m marks swept m') : Heap arena ext m' := by
  rcases resumed.words with ⟨_, mem, regs⟩ | ⟨_, mem, regs⟩
  · have marked : Heap arena ext { m with shadow := marks } :=
      heap.congr rfl rfl rfl rfl
    exact marked.sweep.congr mem regs resumed.bump resumed.table
  · exact heap.congr mem regs resumed.bump resumed.table

/-- A cycle of the synchronous mode sweeps when marks are pending and the batch
is complete. -/
theorem revokeSynchronous_resumed (env : Env) (replies : Replies)
    (moved : List Cap) (m : Machine) :
    Resumed m (markAll replies.markRc 0 moved m.shadow)
      ((0 < m.sMarkedPending + moved.length ∧
        (m.sCycle + 1) % max 1 env.revokeBatch = 0) ∧
        Revoke.stoplessRevokeNow replies.sweep = 0)
      (revokeSynchronous env replies moved m) := by
  unfold revokeSynchronous revokeSweep
  simp only
  split
  · rename_i due
    by_cases reported : Revoke.stoplessRevokeNow replies.sweep = 0
    · simp only [if_pos reported]
      exact ⟨rfl, rfl, rfl, .inl ⟨⟨due, reported⟩, rfl, rfl⟩⟩
    · simp only [if_neg reported]
      exact ⟨rfl, rfl, rfl, .inr ⟨fun met => reported met.2, rfl, rfl⟩⟩
  · rename_i early
    exact ⟨rfl, rfl, rfl, .inr ⟨fun met => early met.1, rfl, rfl⟩⟩

theorem revokeConcurrent_resumed {replies : Replies} {moved : List Cap}
    {m m' : Machine}
    (returned : Collector.revokeConcurrent replies moved m = .ok m') :
    ∃ swept, Resumed m (markAll replies.markRc 0 moved m.shadow) swept m' := by
  unfold Collector.revokeConcurrent revokeSweep at returned
  simp only at returned
  split at returned
  · cases returned
    exact ⟨False, rfl, rfl, rfl, .inr ⟨id, rfl, rfl⟩⟩
  · split at returned
    · cases returned
      exact ⟨False, rfl, rfl, rfl, .inr ⟨id, rfl, rfl⟩⟩
    · split at returned
      · cases returned
      · rename_i reported
        push Not at reported
        rw [if_pos reported] at returned
        cases returned
        exact ⟨True, rfl, rfl, rfl, .inl ⟨trivial, rfl, rfl⟩⟩

theorem Heap.start {ext : Extents} {m : Machine} (heap : Heap arena ext m)
    {table : State} (live : Live table)
    (same : ftFind table = ftFind m.table) :
    Heap arena ext (Scan.start { m with table := table }).machine :=
  heap.retable live same

theorem RootSlot.start {m : Machine} {p : Nat} (root : RootSlot arena m p)
    (table : State) :
    RootSlot arena (Scan.start { m with table := table }).machine p :=
  ⟨root.place, root.content⟩

/-- A cycle in any mode keeps the heap well formed and every entry. -/
theorem Heap.doit (laws : cheri.Laws) {ext : Extents} {m m' : Machine}
    (heap : Heap arena ext m) {env : Env} {replies : Replies}
    {roots : List Nat} {moved : List Cap}
    (slots : ∀ p, p ∈ roots → RootSlot arena m p)
    (returned : doit arena env replies roots m = .ok (m', moved)) :
    ∃ ext', Heap arena ext' m' := by
  obtain ⟨table, s, _, live, same, scanned, _, branch⟩ :=
    doit_cases heap.live returned
  obtain ⟨ext', all, visits, _⟩ := scanRoots_visits laws
    (heap.start live same) (fun p member => (slots p member).start table)
    (AtInsertion.trivial ..) scanned
  have after := (visits.invariant laws (fun _ _ _ => True)
    (fun _ _ _ _ => trivial) (heap.start live same)
    (fun p member => (slots p member).start table) [] trivial).1
  refine ⟨ext', ?_⟩
  rcases branch with ⟨_, rfl⟩ | ⟨_, _, concurrent⟩ | ⟨_, _, rfl⟩
  · exact after
  · obtain ⟨swept, resumed⟩ := revokeConcurrent_resumed concurrent
    exact resumed.heap after
  · exact (revokeSynchronous_resumed ..).heap after

/-- The machine after start-up: nothing allocated, all words zero. -/
def Machine.boot : Machine :=
  { mem := fun _ => .value (Cap.ofInt 0)
    regs := fun _ => Cap.ofInt 0
    bumpOffset := 0
    table := initial
    shadow := fun _ => false
    sCycle := 0
    sMarkedPending := 0
    closePending := false }

theorem heap_boot : Heap arena (fun _ => none) Machine.boot := by
  constructor
  · constructor
    · exact Nat.zero_le _
    · exact Nat.dvd_zero _
    all_goals intros; simp_all
  · intro a l there
    cases there
  · exact live_initial
  · intro a b l linked
    cases linked
  · intro a b l linked
    cases linked
  · intro a b l linked
    cases linked
  · refine ⟨?_, fun i => .inl ⟨0, rfl⟩⟩
    intro p c loaded
    cases loaded
    exact .inl ⟨0, rfl⟩

/-- One step of the system.  In the concurrent mode the kernel takes the tags
of marked capabilities at any time, and the collector thread clears the
pending flag. -/
inductive Step (arena : Arena cheri) : Machine → Machine → Prop where
  | op {m m' : Machine} (op : Op) (pc fuel : Nat) {granted : Bool} :
      op.Admissible cheri m →
      exec arena none pc fuel m op = some (m', granted) → Step arena m m'
  | cycle {m m' : Machine} {env : Env} {replies : Replies} {roots : List Nat}
      {moved : List Cap} :
      (∀ p, p ∈ roots → RootSlot arena m p) →
      doit arena env replies roots m = .ok (m', moved) → Step arena m m'
  | revoked {m : Machine} (words : Nat → Bool) (regs : Fin 30 → Bool) :
      Step arena m
        { m with
          mem := fun p =>
            if words p then sweepWord m.shadow (m.mem p) else m.mem p
          regs := fun i =>
            if regs i then Revoke.sweepCap m.shadow (m.regs i) else m.regs i }
  | closed {m : Machine} : Step arena m { m with closePending := false }

abbrev Runs (arena : Arena cheri) : Machine → Machine → Prop :=
  Relation.ReflTransGen (Step arena)

/-- A sweep that has only got to some of the words and registers. -/
theorem Heap.revoked {ext : Extents} {m : Machine} (heap : Heap arena ext m)
    (words : Nat → Bool) (regs : Fin 30 → Bool) :
    Heap arena ext
      { m with
        mem := fun p =>
          if words p then sweepWord m.shadow (m.mem p) else m.mem p
        regs := fun i =>
          if regs i then Revoke.sweepCap m.shadow (m.regs i)
          else m.regs i } := by
  refine ⟨heap.packed, ?_, heap.live, heap.source, heap.target, heap.upward,
    ?_, ?_⟩
  · intro a l there
    obtain ⟨klass, size, header, sized⟩ := heap.headers there
    refine ⟨klass, size, ?_, sized⟩
    simp [header, sweepWord]
  · intro p c loaded
    change (if words p then sweepWord m.shadow (m.mem p) else m.mem p) =
      .value c at loaded
    split at loaded
    · exact heap.sweep.caps.mem loaded
    · exact heap.caps.mem loaded
  · intro i
    change CapOk arena ext
      (if regs i then Revoke.sweepCap m.shadow (m.regs i) else m.regs i)
    split
    · exact heap.sweep.caps.regs i
    · exact heap.caps.regs i

theorem Step.heap (laws : cheri.Laws) {ext : Extents} {m m' : Machine}
    (heap : Heap arena ext m) (step : Step arena m m') :
    ∃ ext', Heap arena ext' m' := by
  cases step with
  | op op pc fuel admissible ran =>
      obtain ⟨ext', effect, _⟩ := exec_effect laws heap admissible ran
      exact ⟨ext', effect.heap laws heap⟩
  | cycle slots returned => exact heap.doit laws slots returned
  | revoked words regs => exact ⟨ext, heap.revoked words regs⟩
  | closed => exact ⟨ext, heap.congr rfl rfl rfl rfl⟩

theorem Runs.heap (laws : cheri.Laws) {m : Machine}
    (runs : Runs arena Machine.boot m) : ∃ ext, Heap arena ext m := by
  induction runs with
  | refl => exact ⟨_, heap_boot⟩
  | tail _ last ih =>
      obtain ⟨ext, heap⟩ := ih
      exact last.heap laws heap

theorem Except.exists_of_any {ε α : Type*} {result : Except ε α}
    {check : α → Bool} (checked : result.toOption.any check = true) :
    ∃ a, result = .ok a ∧ check a = true := by
  cases result with
  | error reason => cases checked
  | ok a => exact ⟨a, rfl, checked⟩

/-- What a program asks for: an instruction or a cycle. -/
inductive Act where
  | op (op : Op)
  | cycle (env : Env) (replies : Replies) (roots : List Nat)

instance (m : Machine) (op : Op) : Decidable (op.Admissible cheri m) :=
  match op with
  | .alloc _ _ _ => inferInstanceAs (Decidable (_ ∧ _ + _ < _))
  | .lea _ _ _ => inferInstanceAs (Decidable (_ ∧ _))
  | .imm _ _ => inferInstanceAs (Decidable True)
  | .move _ _ => inferInstanceAs (Decidable True)
  | .fill _ _ => inferInstanceAs (Decidable True)
  | .spill _ _ => inferInstanceAs (Decidable True)
  | .load _ _ _ => inferInstanceAs (Decidable True)
  | .store _ _ _ => inferInstanceAs (Decidable True)

/-- Whether a slot may be presented as a root. -/
def rootSlot (arena : Arena cheri) (m : Machine) (p : Nat) : Bool :=
  (decide (p < arena.base.base + m.bumpOffset) ||
    decide (arena.base.base + arena.size ≤ p)) &&
  match m.mem p with
  | .header _ _ => false
  | .value c => !isIn arena c || decide (c.address = c.base)

theorem rootSlot_sound {m : Machine} {p : Nat}
    (accepted : rootSlot arena m p = true) : RootSlot arena m p := by
  simp only [rootSlot, Bool.and_eq_true, Bool.or_eq_true,
    decide_eq_true_eq] at accepted
  obtain ⟨place, content⟩ := accepted
  refine ⟨place, ?_⟩
  cases word : m.mem p with
  | header klass size =>
      simp only [word] at content
      cases content
  | value c =>
      refine ⟨c, rfl, ?_⟩
      simpa [word, or_iff_not_imp_left] using content

/-- A program, as far as it gets: an access is retried after each of up to four
heals. -/
def perform (arena : Arena cheri) (m : Machine) : List Act → Option Machine
  | [] => some m
  | .op op :: rest =>
      if op.Admissible cheri m then
        match exec arena none 0 4 m op with
        | none => none
        | some (m', _) => perform arena m' rest
      else none
  | .cycle env replies roots :: rest =>
      if roots.all (rootSlot arena m) then
        match doit arena env replies roots m with
        | .error _ => none
        | .ok (m', _) => perform arena m' rest
      else none

theorem runs_perform {m m' : Machine} {acts : List Act}
    (ran : perform arena m acts = some m') : Runs arena m m' := by
  induction acts generalizing m with
  | nil =>
      cases ran
      exact .refl
  | cons act rest ih =>
      cases act with
      | op op =>
          rw [perform] at ran
          split at ran
          case isTrue admissible =>
            cases executed : exec arena none 0 4 m op with
            | none =>
                rw [executed] at ran
                cases ran
            | some result =>
                rw [executed] at ran
                exact .head (.op op 0 4 admissible executed) (ih ran)
          case isFalse => cases ran
      | cycle env replies roots =>
          rw [perform] at ran
          split at ran
          case isTrue accepted =>
            cases returned : doit arena env replies roots m with
            | error reason =>
                rw [returned] at ran
                cases ran
            | ok result =>
                rw [returned] at ran
                have slots : ∀ p, p ∈ roots → RootSlot arena m p := by
                  intro p member
                  exact rootSlot_sound (List.all_eq_true.mp accepted p member)
                exact .head (.cycle slots returned) (ih ran)
          case isFalse => cases ran

/-- A program whose cycles are checked, with the objects it allocates. -/
def performWhen (arena : Arena cheri)
    (accept : Machine → Env → Replies → List Nat → Machine → List Cap → Bool)
    (objs : List Nat) (m : Machine) : List Act → Option (List Nat × Machine)
  | [] => some (objs, m)
  | .op op :: rest =>
      if op.Admissible cheri m then
        match exec arena none 0 4 m op with
        | none => none
        | some (m', _) =>
            performWhen arena accept (objs ++ births arena m op) m' rest
      else none
  | .cycle env replies roots :: rest =>
      if roots.all (rootSlot arena m) then
        match doit arena env replies roots m with
        | .error _ => none
        | .ok (m', moved) =>
            if accept m env replies roots m' moved then
              performWhen arena accept objs m' rest
            else none
      else none

/-- What instructions and accepted cycles keep, such a program keeps. -/
theorem performWhen_induction
    {accept : Machine → Env → Replies → List Nat → Machine → List Cap → Bool}
    {P : List Nat → Machine → Prop}
    (op : ∀ {objs m m' op granted}, P objs m → op.Admissible cheri m →
      exec arena none 0 4 m op = some (m', granted) →
      P (objs ++ births arena m op) m')
    (cycle : ∀ {objs m env replies roots m' moved}, P objs m →
      (∀ p, p ∈ roots → RootSlot arena m p) →
      doit arena env replies roots m = .ok (m', moved) →
      accept m env replies roots m' moved = true → P objs m')
    {acts : List Act} {objs objs' : List Nat} {m m' : Machine}
    (start : P objs m)
    (ran : performWhen arena accept objs m acts = some (objs', m')) :
    P objs' m' := by
  induction acts generalizing objs m with
  | nil =>
      cases ran
      exact start
  | cons act rest ih =>
      cases act with
      | op action =>
          rw [performWhen] at ran
          split at ran
          case isTrue admissible =>
            cases executed : exec arena none 0 4 m action with
            | none =>
                rw [executed] at ran
                cases ran
            | some result =>
                rw [executed] at ran
                exact ih (op start admissible executed) ran
          case isFalse => cases ran
      | cycle env replies roots =>
          rw [performWhen] at ran
          split at ran
          case isTrue accepted =>
            cases returned : doit arena env replies roots m with
            | error reason =>
                rw [returned] at ran
                cases ran
            | ok result =>
                obtain ⟨next, moved⟩ := result
                simp only [returned] at ran
                split at ran
                case isTrue met =>
                  have slots : ∀ p, p ∈ roots → RootSlot arena m p := by
                    intro p member
                    exact rootSlot_sound (List.all_eq_true.mp accepted p member)
                  exact ih (cycle start slots returned met) ran
                case isFalse => cases ran
          case isFalse => cases ran

end StoplessGC
