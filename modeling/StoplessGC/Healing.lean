import StoplessGC.SignalHandler

/-!
# What a heal puts into the register

A capability whose base is in the table is rebuilt for the last copy, with its
offset, and compares afterwards as it did before.  The search also accepts an
untagged value whose address alone is in the table, and that value may be an
integer.
-/

namespace StoplessGC

namespace Handler

open ForwardTable Allocator Forwarding

variable {cheri : Intrinsics} {arena : Arena cheri}

/-- Only revoked capabilities are healed. -/
theorem revoked_of_tryCap {evacuate : Option (Nat → Option Cap)}
    {table : State} {c : Cap}
    (candidate : tryCap arena evacuate table c ≠ none) : revoked c = true := by
  by_contra live
  apply candidate
  unfold tryCap
  rw [if_pos (by simpa using live)]

/-- The base decides, whatever the address. -/
theorem tryCap_base {evacuate : Option (Nat → Option Cap)} {table : State}
    {c fwd : Cap} (gone : revoked c = true)
    (found : forwardTableLookup cheri (some arena.base) table c.base =
      some fwd) :
    tryCap arena evacuate table c =
      some (reapply cheri fwd (offset c.address c.base)) := by
  simp only [tryCap, gone, found, Bool.not_true, Bool.false_eq_true, if_false]

theorem healContext_of_first {evacuate : Option (Nat → Option Cap)}
    {table : State} {fault : Fault} {ctx : Context} {i : Fin 30}
    (revocation : fault.revocation)
    (first : First arena evacuate table ctx.regs fault.rn i) :
    ∃ fwd, tryCap arena evacuate table (ctx.regs i) = some fwd ∧
      healContext arena evacuate table fault ctx =
        some ((ctx.install fwd (some i)).selfHeal fwd, some i) := by
  have accepted : ¬ (fault.siCode ≠ 2 ∧ fault.siCode ≠ 5) := by
    rintro ⟨notTag, notPerm⟩
    exact revocation.elim notTag notPerm
  obtain ⟨fwd, found, tried⟩ := searchForwarded_of_first first
  refine ⟨fwd, tried, ?_⟩
  simp only [healContext, if_neg accepted, found]

theorem reapply_address (arena : Arena cheri) {b : Nat} (l : Nat)
    (small : b < addressSpace) (off : Nat) :
    (reapply cheri (objectCap arena b l) off).address =
      (b + off) % addressSpace := by
  unfold reapply
  split
  · rfl
  · rename_i zero
    have none : off = 0 := by omega
    subst none
    exact (Nat.mod_eq_of_lt small).symm

theorem reapply_fields (cheri : Intrinsics) (fwd : Cap) (off : Nat) :
    (reapply cheri fwd off).base = fwd.base ∧
      (reapply cheri fwd off).length = fwd.length ∧
      (reapply cheri fwd off).perms = fwd.perms := by
  unfold reapply
  split <;> exact ⟨rfl, rfl, rfl⟩

theorem normalize_of_end {table : State} {c : Cap}
    (ended : ftFind table c.base = none) :
    stoplessAcmpNormalize arena table c = c.address := by
  unfold stoplessAcmpNormalize
  split
  · rename_i null
    exact null.symm
  · split
    · rfl
    · simp only [forwardTableLookup, resolve_eq_none ended]

theorem normalize_of_lookup {table : State} {c fwd : Cap}
    (nonnull : c.address ≠ 0) (gone : revoked c = true)
    (found : forwardTableLookup cheri (some arena.base) table c.base =
      some fwd) :
    stoplessAcmpNormalize arena table c =
      (fwd.address + offset c.address c.base) % addressSpace := by
  have stale : ¬ (c.tag && !c.perms.isZero) = true := by
    simp only [revoked, Bool.or_eq_true, Bool.not_eq_true'] at gone
    simp only [Bool.and_eq_true, Bool.not_eq_true', not_and]
    intro tagged
    rcases gone with untagged | stripped
    · rw [untagged] at tagged
      cases tagged
    · simp [stripped]
  unfold stoplessAcmpNormalize
  rw [if_neg nonnull, if_neg stale]
  simp only [found]

theorem stoplessAcmpEq_congr {table : State} {c d : Cap}
    (same : stoplessAcmpNormalize arena table c =
      stoplessAcmpNormalize arena table d) (other : Cap) :
    stoplessAcmpEq arena table c other = stoplessAcmpEq arena table d other ∧
      stoplessAcmpEq arena table other c =
        stoplessAcmpEq arena table other d := by
  simp only [stoplessAcmpEq, same, and_self]

/-- What the heal of register `i` does, when the chain of its base ends at
`b`, a copy of `l` bytes. -/
structure ExactHeal (arena : Arena cheri)
    (evacuate : Option (Nat → Option Cap)) (table : State) (ctx : Context)
    (i : Fin 30) (b l : Nat) (healed : Context) : Prop where
  base : (healed.regs i).base = b
  length : (healed.regs i).length = l
  perms : (healed.regs i).perms = { arena.base.perms with swVmem := false }
  address : (healed.regs i).address =
    (b + offset (ctx.regs i).address (ctx.regs i).base) % addressSpace
  inBounds : (ctx.regs i).base ≤ (ctx.regs i).address →
    (ctx.regs i).address ≤ (ctx.regs i).base + l →
    (healed.regs i).tag = true
  others : ∀ j, j ≠ i → healed.regs j = ctx.regs j
  elr : healed.elr = ctx.elr
  mem : ctx.pendingSlot = none → healed.mem = ctx.mem
  normalized : (ctx.regs i).address ≠ 0 →
    (healed.regs i).address = stoplessAcmpNormalize arena table (ctx.regs i)
  identity : (ctx.regs i).address ≠ 0 → ∀ other,
    stoplessAcmpEq arena table (healed.regs i) other =
        stoplessAcmpEq arena table (ctx.regs i) other ∧
      stoplessAcmpEq arena table other (healed.regs i) =
        stoplessAcmpEq arena table other (ctx.regs i)
  settled : (healed.regs i).tag = true →
    (healed.regs i).perms.isZero = false →
    tryCap arena evacuate table (healed.regs i) = none

/-- In every reachable machine and for every register file: the register that
the search picks, when its base is the key of a chain that the lookup follows
to the end, is healed exactly, to the bounds of the copy whose header stands at
the end of the chain. -/
theorem healContext_exact (laws : cheri.Laws) {m : Machine}
    (runs : Runs arena Machine.boot m) {evacuate : Option (Nat → Option Cap)}
    {fault : Fault} {ctx : Context} {i : Fin 30} {n b : Nat}
    (revocation : fault.revocation)
    (first : First arena evacuate m.table ctx.regs fault.rn i)
    (key : ftFind m.table (ctx.regs i).base ≠ none)
    (hops : Hops (ftFind m.table) n (ctx.regs i).base b)
    (ended : ftFind m.table b = none) (short : n ≤ chaseMax) :
    ∃ healed klass size l,
      healContext arena evacuate m.table fault ctx = some (healed, some i) ∧
      m.mem b = .header klass size ∧
      cheri.representableLength (size * heapWordSize) = l ∧
      ExactHeal arena evacuate m.table ctx i b l healed := by
  obtain ⟨ext, heap⟩ := runs.heap laws
  obtain ⟨l, there, found⟩ := heap.lookup_of_hops laws key hops ended short
  obtain ⟨klass, size, header, sized⟩ := heap.headers there
  have upper := heap.packed.upper there
  have bumped := heap.packed.bump_le
  have user := arena.userSpace
  have small : b < addressSpace := by
    rw [addressSpace]
    omega
  have gone := revoked_of_tryCap first.candidate
  have healsTo : tryCap arena evacuate m.table (ctx.regs i) = _ :=
    tryCap_base gone found
  obtain ⟨fwd, tried, healed_eq⟩ := healContext_of_first revocation first
  rw [healsTo] at tried
  cases tried
  refine ⟨_, klass, size, l, healed_eq, header, sized.length, ?_⟩
  have register : (((ctx.install (reapply cheri (objectCap arena b l)
      (offset (ctx.regs i).address (ctx.regs i).base)) (some i)).selfHeal
        (reapply cheri (objectCap arena b l)
          (offset (ctx.regs i).address (ctx.regs i).base))).regs i) =
      reapply cheri (objectCap arena b l)
        (offset (ctx.regs i).address (ctx.regs i).base) := by
    rw [Context.selfHeal_regs]
    exact Function.update_self ..
  obtain ⟨base_eq, length_eq, perms_eq⟩ := reapply_fields cheri
    (objectCap arena b l) (offset (ctx.regs i).address (ctx.regs i).base)
  have address := reapply_address arena l small
    (offset (ctx.regs i).address (ctx.regs i).base)
  have same : (ctx.regs i).address ≠ 0 →
      stoplessAcmpNormalize arena m.table (reapply cheri (objectCap arena b l)
          (offset (ctx.regs i).address (ctx.regs i).base)) =
        stoplessAcmpNormalize arena m.table (ctx.regs i) := by
    intro nonnull
    rw [normalize_of_end (by rw [base_eq]; exact ended), address,
      normalize_of_lookup nonnull gone found]
    rfl
  constructor
  · rw [register, base_eq]
    rfl
  · rw [register, length_eq]
    rfl
  · rw [register, perms_eq]
    rfl
  · rw [register, address]
  · intro lower upper
    have inside : offset (ctx.regs i).address (ctx.regs i).base ≤ l := by
      rw [offset_of_le lower (by rw [addressSpace]; omega)]
      omega
    rw [register, heap.reapply_eq laws there inside]
    rfl
  · intro j other
    rw [Context.selfHeal_regs]
    exact Function.update_of_ne other ..
  · rw [Context.selfHeal_elr]
    rfl
  · intro idle
    exact Context.selfHeal_mem idle
  · intro nonnull
    rw [register, ← same nonnull,
      normalize_of_end (by rw [base_eq]; exact ended)]
  · intro nonnull other
    rw [register]
    exact stoplessAcmpEq_congr (same nonnull) other
  · intro tagged usable
    by_contra again
    have gone' := revoked_of_tryCap again
    simp [revoked, tagged, usable] at gone'

/-- A program that keeps one object in a frame slot and in `x0` while a cycle
moves it. -/
def moveOne : List Act :=
  [.op (.alloc 0 none 1), .op (.spill 16 0),
    .cycle Env.unset Replies.granted [16]]

/-- A revoked capability that points below its object, at address zero. -/
def belowObject : Cap :=
  { objectCap Arena.small (2 ^ 30) 16 with tag := false, address := 0 }

/-- The heal of `belowObject` changes how it compares: as a null pointer
before, as an address afterwards. -/
theorem healContext_changes_identity :
    ∃ m, Runs Arena.small Machine.boot m ∧
      ftFind m.table belowObject.base ≠ none ∧
      ∃ healed, healContext Arena.small none m.table ⟨2, 64, 0⟩
          (.holding belowObject) = some (healed, some 0) ∧
        (healed.regs 0).address ≠
          stoplessAcmpNormalize Arena.small m.table belowObject ∧
        stoplessAcmpEq Arena.small m.table belowObject Cap.null = true ∧
        stoplessAcmpEq Arena.small m.table (healed.regs 0) Cap.null =
          false := by
  obtain ⟨m, ran, checked⟩ := (Option.any_eq_true _ _).mp (by decide +kernel :
    (perform Arena.small Machine.boot moveOne).any (fun m =>
      decide (ftFind m.table belowObject.base ≠ none) &&
      (healContext Arena.small none m.table ⟨2, 64, 0⟩
        (.holding belowObject)).any (fun r =>
          decide (r.2 = some 0 ∧ (r.1.regs 0).address ≠
            stoplessAcmpNormalize Arena.small m.table belowObject ∧
          stoplessAcmpEq Arena.small m.table belowObject Cap.null = true ∧
          stoplessAcmpEq Arena.small m.table (r.1.regs 0) Cap.null =
            false))) = true)
  simp only [Bool.and_eq_true, decide_eq_true_eq, Option.any_eq_true] at checked
  obtain ⟨present, ⟨healed, reg⟩, healedTo, rfl, differs, before, after⟩ := checked
  exact ⟨m, runs_perform ran, present, healed, healedTo, differs, before, after⟩

/-- The middle of the object to which the stale reference in `x0` points after
`moveOne`. -/
def staleMiddle : Cap := { staleObject with address := 2 ^ 30 + 8 }

theorem healContext_exact_middle :
    ∃ m, Runs Arena.small Machine.boot m ∧ m.regs 0 = staleObject ∧
      ∃ healed klass size l,
        healContext Arena.small none m.table ⟨2, 64, 0⟩
          (.holding staleMiddle) = some (healed, some 0) ∧
        m.mem (2 ^ 30 + 16) = .header klass size ∧
        Intrinsics.exact.representableLength (size * heapWordSize) = l ∧
        ExactHeal Arena.small none m.table (.holding staleMiddle) 0
          (2 ^ 30 + 16) l healed := by
  obtain ⟨m, ran, checked⟩ := (Option.any_eq_true _ _).mp (by decide +kernel :
    (perform Arena.small Machine.boot moveOne).any (fun m =>
      decide (m.regs 0 = staleObject ∧
        ftFind m.table (2 ^ 30) = some (2 ^ 30 + 16, 16) ∧
        ftFind m.table (2 ^ 30 + 16) = none ∧
        tryCap Arena.small none m.table staleMiddle ≠ none)) = true)
  simp only [decide_eq_true_eq] at checked
  obtain ⟨held, linked, ended, candidate⟩ := checked
  refine ⟨m, runs_perform ran, held, ?_⟩
  apply healContext_exact Intrinsics.exact_laws (runs_perform ran) (.inl rfl)
    ⟨candidate, .inl rfl⟩
  · intro missing
    cases missing.symm.trans linked
  · exact .hop linked (.here _)
  · exact ended
  · decide

section Integers

variable {evacuate : Option (Nat → Option Cap)} {table : State}
  {fault : Fault} {regs : Fin 30 → Cap}

/-- The capability is derived from a relocated object: its base has an entry,
or the callback evacuates the object because the table knows nothing. -/
def Relocated (arena : Arena cheri) (evacuate : Option (Nat → Option Cap))
    (table : State) (c : Cap) : Prop :=
  ftFind table c.base ≠ none ∨
    tryCap arena none table c = none ∧
      ∃ callback, evacuate = some callback ∧ callback c.base ≠ none

/-- A revoked value that is only found through its address. -/
structure AddressOnly (arena : Arena cheri) (table : State) (c : Cap) :
    Prop where
  gone : revoked c = true
  noEntry : ftFind table c.base = none
  elsewhere : c.address ≠ c.base
  resolves : forwardTableLookup cheri (some arena.base) table c.address ≠ none

/-- A heal only replaces capabilities that are derived from a relocated
object, and leaves integers alone. -/
structure RewritesOnlyRelocated (arena : Arena cheri)
    (evacuate : Option (Nat → Option Cap)) (table : State) (fault : Fault)
    (regs : Fin 30 → Cap) : Prop where
  replaced : ∀ i fwd, fault.revocation →
    searchForwarded arena evacuate table fault regs = some (fwd, some i) →
    Relocated arena evacuate table (regs i)
  integers : ∀ regs' i n,
    stoplessTryHeal arena evacuate table fault regs = some regs' →
    regs i = Cap.ofInt n → regs' i = regs i

theorem tryCap_addressOnly {c : Cap} (only : AddressOnly arena table c) :
    tryCap arena none table c ≠ none := by
  have missed : forwardTableLookup cheri (some arena.base) table c.base =
      none := by
    simp only [forwardTableLookup, resolve_eq_none only.noEntry]
  obtain ⟨fwd, found⟩ := Option.ne_none_iff_exists'.mp only.resolves
  simp [tryCap, only.gone, missed, only.elsewhere, found]

/-- What can be healed is relocated or found through its address only. -/
theorem relocated_or_addressOnly {c fwd : Cap}
    (tried : tryCap arena evacuate table c = some fwd) :
    Relocated arena evacuate table c ∨ AddressOnly arena table c := by
  have gone := revoked_of_tryCap (Option.ne_none_iff_exists'.mpr ⟨fwd, tried⟩)
  by_cases noEntry : ftFind table c.base = none
  case neg => exact .inl (.inl noEntry)
  have missed : forwardTableLookup cheri (some arena.base) table c.base =
      none := by
    simp only [forwardTableLookup, resolve_eq_none noEntry]
  cases byAddress : (if c.address ≠ c.base then
      forwardTableLookup cheri (some arena.base) table c.address
    else none) with
  | some new =>
      split at byAddress
      · rename_i elsewhere
        refine .inr ⟨gone, noEntry, elsewhere, ?_⟩
        rw [byAddress]
        simp
      · cases byAddress
  | none =>
      refine .inl (.inr ⟨?_, ?_⟩)
      · unfold tryCap
        rw [if_neg (by simp [gone])]
        simp only [missed, byAddress]
      · unfold tryCap at tried
        rw [if_neg (by simp [gone])] at tried
        simp only [missed, byAddress] at tried
        cases evacuate with
        | none => cases tried
        | some callback =>
            refine ⟨callback, rfl, fun refused => ?_⟩
            simp only [refused] at tried
            cases tried

/-- Integers are not derived from objects.  The callback answers `NULL` for an
address at which no object lives. -/
theorem not_relocated_ofInt
    (spares : ∀ callback, evacuate = some callback → callback 0 = none)
    (n : Nat) : ¬ Relocated arena evacuate table (Cap.ofInt n) := by
  rintro (entered | ⟨_, callback, registered, evacuated⟩)
  · exact entered (ftFind_zero table)
  · exact evacuated (spares callback registered)

theorem stoplessTryHeal_frame {regs' : Fin 30 → Cap} {i : Fin 30}
    (healed : stoplessTryHeal arena evacuate table fault regs = some regs')
    (spared : ∀ fwd, fault.revocation →
      searchForwarded arena evacuate table fault regs ≠ some (fwd, some i)) :
    regs' i = regs i := by
  have heals := stoplessTryHeal_eq arena evacuate table fault
    { Context.idle with regs := regs }
  rw [healed] at heals
  split at heals
  · cases heals
  · rename_i accepted
    have revocation : fault.revocation := by
      by_contra other
      exact accepted (not_or.mp other)
    cases search : searchForwarded arena evacuate table fault regs with
    | none =>
        rw [search] at heals
        cases heals
    | some found =>
        obtain ⟨fwd, reg⟩ := found
        rw [search] at heals
        cases heals
        cases reg with
        | none => rfl
        | some j =>
            apply Function.update_of_ne
            intro same
            subst same
            exact spared fwd revocation search

/-- A heal rewrites only what is derived from a relocated object, unless the
first register that the search accepts is found through its address only. -/
theorem stoplessTryHeal_rewrites_iff
    (spares : ∀ callback, evacuate = some callback → callback 0 = none) :
    RewritesOnlyRelocated arena evacuate table fault regs ↔
      ¬ (fault.revocation ∧
        ∃ i, First arena evacuate table regs fault.rn i ∧
          AddressOnly arena table (regs i)) := by
  constructor
  · rintro only ⟨revocation, i, first, addressOnly⟩
    obtain ⟨fwd, found, _⟩ := searchForwarded_of_first first
    rcases only.replaced i fwd revocation found with entered | ⟨unknown, _⟩
    · exact entered addressOnly.noEntry
    · exact tryCap_addressOnly addressOnly unknown
  · intro genuine
    have replaced : ∀ i fwd, fault.revocation →
        searchForwarded arena evacuate table fault regs = some (fwd, some i) →
        Relocated arena evacuate table (regs i) := by
      intro i fwd revocation found
      obtain ⟨first, tried⟩ := searchForwarded_register found
      rcases relocated_or_addressOnly tried with relocated | addressOnly
      · exact relocated
      · exact absurd ⟨revocation, i, first, addressOnly⟩ genuine
    refine ⟨replaced, ?_⟩
    intro regs' i n healed integer
    apply stoplessTryHeal_frame healed
    intro fwd revocation found
    have relocated := replaced i fwd revocation found
    rw [integer] at relocated
    exact not_relocated_ofInt spares n relocated

end Integers

/-- A null dereference through `x1`, while `x0` holds an integer that equals
the old address of the moved object: `x0` becomes a pointer. -/
theorem stoplessTryHeal_rewrites_integer :
    ∃ m, Runs Arena.small Machine.boot m ∧
      ∃ regs', stoplessTryHeal Arena.small none m.table ⟨2, 64, 1⟩
          (Context.holding (Cap.ofInt (2 ^ 30))).regs = some regs' ∧
        regs' 0 = objectCap Arena.small (2 ^ 30 + 16) 16 ∧
        ¬ RewritesOnlyRelocated Arena.small none m.table ⟨2, 64, 1⟩
          (Context.holding (Cap.ofInt (2 ^ 30))).regs := by
  obtain ⟨m, ran, checked⟩ := (Option.any_eq_true _ _).mp (by decide +kernel :
    (perform Arena.small Machine.boot moveOne).any (fun m =>
      (stoplessTryHeal Arena.small none m.table ⟨2, 64, 1⟩
        (Context.holding (Cap.ofInt (2 ^ 30))).regs).any (fun regs' =>
          decide (regs' 0 = objectCap Arena.small (2 ^ 30 + 16) 16))) = true)
  simp only [decide_eq_true_eq, Option.any_eq_true] at checked
  obtain ⟨regs', healed, pointer⟩ := checked
  refine ⟨m, runs_perform ran, regs', healed, pointer, fun only => ?_⟩
  have kept := only.integers regs' 0 (2 ^ 30) healed rfl
  rw [pointer] at kept
  exact absurd (congrArg Cap.tag kept) (by decide)

/-- The callback of a mutator that evacuates the object at `2^30` on demand. -/
def evacuateOne (fromAddr : Nat) : Option Cap :=
  if fromAddr = 2 ^ 30 then some (objectCap Arena.small (2 ^ 30 + 16) 16)
  else none

/-- A stale reference to an object that nobody has moved yet is evacuated. -/
theorem stoplessTryHeal_rewrites_iff_evacuated :
    RewritesOnlyRelocated Arena.small (some evacuateOne) initial ⟨2, 64, 0⟩
      (Context.holding staleObject).regs := by
  apply (stoplessTryHeal_rewrites_iff ?_).mpr
  · rintro ⟨_, i, _, addressOnly⟩
    exact addressOnly.resolves rfl
  · rintro callback ⟨⟩
    decide

end Handler

end StoplessGC
