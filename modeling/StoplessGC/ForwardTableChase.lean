import StoplessGC.ForwardTableMap
import StoplessGC.Foundation.Forwarding

/-!
# Lookups as chains of entries

The table of a collector only gets entries that lead to higher addresses, and
it never loses one.  Its lookups then end at the last copy of a chain, and the
only ways to get `NULL` are a key without an entry and a chain longer than
`FT_CHASE_MAX`.  An insertion either adds one link or, in a full table, leaves
every lookup as it was.
-/

namespace StoplessGC

namespace ForwardTable

open OpenAddressing Forwarding

/-- Entries lead upwards. -/
def Upward (find : Nat → Option (Nat × Nat)) : Prop :=
  ∀ ⦃a b l : Nat⦄, find a = some (b, l) → a < b

section Chase

variable {find : Nat → Option (Nat × Nat)}

theorem chase_sound (upward : Upward find) {fuel na nl b l : Nat}
    (reached : chase find fuel na nl = some (b, l)) :
    Ends find na b ∧ (b = na ∧ l = nl ∨ ∃ a, find a = some (b, l)) := by
  induction fuel generalizing na nl with
  | zero => cases reached
  | succ fuel ih =>
      unfold chase at reached
      cases link : find na with
      | none =>
          simp only [link] at reached
          cases reached
          exact ⟨⟨.refl _, link⟩, .inl ⟨rfl, rfl⟩⟩
      | some pair =>
          obtain ⟨nna, nnl⟩ := pair
          have higher := upward link
          simp only [link, if_neg (Nat.ne_of_gt higher)] at reached
          obtain ⟨⟨leads, ended⟩, last⟩ := ih reached
          refine ⟨⟨(Leads.single link).trans leads, ended⟩, .inr ?_⟩
          rcases last with ⟨rfl, rfl⟩ | known
          · exact ⟨na, link⟩
          · exact known

theorem chase_complete (upward : Upward find) {fuel n na b : Nat}
    (hops : Hops find n na b) (ended : find b = none) (nl : Nat)
    (enough : n < fuel) :
    ∃ l, chase find fuel na nl = some (b, l) := by
  induction fuel generalizing n na nl with
  | zero => omega
  | succ fuel ih =>
      unfold chase
      cases hops with
      | here => exact ⟨nl, by simp only [ended]⟩
      | hop linked rest =>
          have higher := upward linked
          simp only [linked, if_neg (Nat.ne_of_gt higher)]
          exact ih rest _ (by omega)

theorem chase_exhausted (upward : Upward find) {fuel n na b : Nat}
    (hops : Hops find n na b) (nl : Nat) (long : fuel ≤ n) :
    chase find fuel na nl = none := by
  induction fuel generalizing n na nl with
  | zero => rfl
  | succ fuel ih =>
      unfold chase
      cases hops with
      | here => omega
      | hop linked rest =>
          have higher := upward linked
          simp only [linked, if_neg (Nat.ne_of_gt higher)]
          exact ih rest _ (by omega)

/-- What a successful lookup found: the end of the chain, with the length that
belongs to it. -/
theorem resolve_sound (upward : Upward find) {key b l : Nat}
    (resolved : resolve find key = some (b, l)) :
    find key ≠ none ∧ Ends find key b ∧ ∃ a, find a = some (b, l) := by
  unfold resolve at resolved
  cases link : find key with
  | none =>
      simp only [link] at resolved
      cases resolved
  | some pair =>
      obtain ⟨na, nl⟩ := pair
      simp only [link] at resolved
      obtain ⟨⟨leads, ended⟩, last⟩ := chase_sound upward resolved
      refine ⟨by simp, ⟨(Leads.single link).trans leads, ended⟩, ?_⟩
      rcases last with ⟨rfl, rfl⟩ | known
      · exact ⟨key, link⟩
      · exact known

theorem resolve_exhausted (upward : Upward find) {n key b : Nat}
    (hops : Hops find n key b) (long : chaseMax < n) :
    resolve find key = none := by
  cases hops with
  | here => omega
  | hop linked rest =>
      simp only [resolve, linked]
      exact chase_exhausted upward rest _ (by omega)

theorem resolve_eq_none {key : Nat} (missing : find key = none) :
    resolve find key = none := by
  simp only [resolve, missing]

end Chase

/-- A table from which nothing has been deleted. -/
def Live (s : State) : Prop :=
  ∃ m, Refines s m ∧ ∀ k, k ∈ m.keys → m.map k ≠ none

theorem live_initial : Live initial :=
  ⟨Spec.empty, refines_initial, by simp [Spec.empty]⟩

/-- Key zero marks free slots and is never found. -/
theorem ftFind_zero (s : State) : ftFind s 0 = none := by
  have stops : ∀ {t : Table} {mask fuel i j : Nat},
      probeLoop t mask 0 fuel i = some j → (t.slot j).fromAddr = 0 := by
    intro t mask fuel
    induction fuel with
    | zero =>
        intro i j found
        cases found
    | succ fuel ih =>
        intro i j found
        unfold probeLoop at found
        split at found
        · rename_i free
          cases found
          exact free.elim id id
        · exact ih found
  unfold ftFind
  split
  · rfl
  · split
    · rfl
    · rename_i found
      rw [if_pos (stops found)]

namespace Live

variable {s : State}

theorem init (live : Live s) (granted : Bool) :
    Live (forwardTableInit granted s) := by
  obtain ⟨m, refines, alive⟩ := live
  exact ⟨m, refines.init granted, alive⟩

theorem ftFind_init (live : Live s) (granted : Bool) :
    ftFind (forwardTableInit granted s) = ftFind s := by
  obtain ⟨m, refines, _⟩ := live
  funext key
  rw [(refines.init granted).ftFind_eq, refines.ftFind_eq]

theorem maybeGrow (live : Live s) (granted : Bool) :
    ∃ s', forwardTableMaybeGrow granted s = .ok s' ∧ Live s' ∧
      ftFind s' = ftFind s := by
  obtain ⟨m, refines, alive⟩ := live
  obtain ⟨s', ran, next⟩ := refines.maybeGrow granted
  refine ⟨s', ran, ⟨m, next, alive⟩, ?_⟩
  funext key
  rw [next.ftFind_eq, refines.ftFind_eq]

end Live

/-- The table `cas_insert` works on has a free slot. -/
def HasRoom (granted : Bool) (s : State) : Prop :=
  (forwardTableInit granted s).gSize < (forwardTableInit granted s).gCapacity

theorem Shape.room_of_free {s : State} {t : Table} (shape : Shape s t) {i : Nat}
    (below : i < t.size) (free : t.key i = none) : s.gSize < s.gCapacity := by
  have fewer : (occupied t.size t.key).card < (Finset.range t.size).card := by
    apply Finset.card_lt_card
    refine ⟨Finset.filter_subset _ _, fun all => ?_⟩
    obtain ⟨_, k, stored⟩ := mem_occupied.mp (all (Finset.mem_range.mpr below))
    rw [free] at stored
    cases stored
  rw [shape.count, ← shape.size_eq]
  simpa using fewer

theorem Shape.full_of_passed {s : State} {t : Table} (shape : Shape s t)
    {key : Nat} (passed : Passed t.size mix t.key key t.size) :
    s.gCapacity ≤ s.gSize := by
  have full := passed.full
  rw [shape.count, ← shape.size_eq]
  omega

/-- The outcomes of `forward_table_cas_insert` for a nonzero key. -/
inductive CasOutcome (cheri : Intrinsics) (arenaBase : Option Cap)
    (granted : Bool) (s : State) (key : Nat) (newCap : Cap) :
    State → Option Cap → Prop where
  | added {s' : State} :
      ftFind s key = none → HasRoom granted s → Live s' →
      ftFind s' = Function.update (ftFind s) key
        (some (newCap.address, newCap.length)) →
      CasOutcome cheri arenaBase granted s key newCap s'
        (ftDerive cheri arenaBase newCap.address newCap.length)
  | found {s' : State} :
      ftFind s key ≠ none → Live s' → ftFind s' = ftFind s →
      CasOutcome cheri arenaBase granted s key newCap s'
        (forwardTableLookup cheri arenaBase s key)
  | full {s' : State} :
      ftFind s key = none → ¬ HasRoom granted s → Live s' →
      ftFind s' = ftFind s →
      CasOutcome cheri arenaBase granted s key newCap s' none

theorem forwardTableLookup_congr {cheri : Intrinsics} {arenaBase : Option Cap}
    {s s' : State} (same : ftFind s' = ftFind s) (key : Nat) :
    forwardTableLookup cheri arenaBase s' key =
      forwardTableLookup cheri arenaBase s key := by
  unfold forwardTableLookup
  rw [same]

/-- `cas_insert` on a live table has one of these outcomes, unless the first
allocation of the table is refused. -/
theorem Live.casInsert (cheri : Intrinsics) (arenaBase : Option Cap)
    (granted : Bool) {s : State} (live : Live s) {key : Nat} {newCap : Cap}
    (nonzero : key ≠ 0) (placed : newCap.address ≠ 0) :
    forwardTableCasInsert cheri arenaBase granted s key newCap =
        .error .nullTable ∧ granted = false ∨
      ∃ s' fwd, forwardTableCasInsert cheri arenaBase granted s key newCap =
          .ok (s', fwd) ∧
        CasOutcome cheri arenaBase granted s key newCap s' fwd := by
  have sameFind := live.ftFind_init granted
  obtain ⟨m, refines, alive⟩ := live
  have ready := refines.init granted
  cases table : (forwardTableInit granted s).gTable with
  | none =>
      refine .inl ⟨?_, granted_eq_false_of_init table⟩
      simp only [forwardTableCasInsert, table]
  | some t =>
      right
      have shape := ready.shape table
      have entryOf : ftFind s key = m.map key := refines.ftFind_eq key
      simp only [forwardTableCasInsert, table]
      rcases shape.findSlot_cases key with
        ⟨i, found, below, stored⟩ | ⟨p, below, passed, found, free⟩ |
        ⟨found, passed⟩
      · have owned : key ∈ m.keys :=
          (ready.keys table key).mpr ⟨i, below, stored⟩
        have published : (t.slot i).newAddr ≠ 0 := by
          intro zero
          apply alive key owned
          rw [ready.entries table below stored, Slot.entry, if_pos zero]
        simp only [found, if_pos (Table.key_eq_some.mp stored).1,
          if_neg published]
        refine ⟨_, _, rfl, ?_⟩
        rw [forwardTableLookup_congr sameFind]
        apply CasOutcome.found
        · rw [entryOf]
          exact alive key owned
        · exact ⟨m, ready, alive⟩
        · exact sameFind
      · have missing := (ready.holds table).unmapped
          (shape.layout.absent_of_stop passed free)
        have free' := probe_lt (mix key) p shape.size_pos
        simp only [found, if_neg (Table.ne_key_of_free free nonzero)]
        have next := ready.claim table ⟨key, newCap.address, newCap.length⟩
          nonzero below passed free
        have published : Slot.entry ⟨key, newCap.address, newCap.length⟩ =
            some (newCap.address, newCap.length) := by
          simp [Slot.entry, placed]
        rw [published] at next
        refine ⟨_, _, rfl, ?_⟩
        apply CasOutcome.added
        · rw [entryOf]
          exact missing
        · exact shape.room_of_free free' free
        · refine ⟨_, next, ?_⟩
          intro k member
          by_cases same : k = key
          · simp [same]
          · simp only [Function.update_of_ne same]
            apply alive
            exact Finset.mem_of_mem_insert_of_ne member same
        · funext k
          rw [next.ftFind_eq]
          by_cases same : k = key
          · simp [same]
          · simp only [Function.update_of_ne same]
            exact (refines.ftFind_eq k).symm
      · have missing := (ready.holds table).unmapped
          (shape.layout.absent_of_passed_all passed)
        simp only [found]
        refine ⟨_, _, rfl, ?_⟩
        apply CasOutcome.full
        · rw [entryOf]
          exact missing
        · exact Nat.not_lt_of_le (shape.full_of_passed passed)
        · exact ⟨m, ready, alive⟩
        · exact sameFind

/-- An insertion neither replaces an allocated table nor resizes it, and takes
at most one slot. -/
theorem forwardTableCasInsert_capacity {cheri : Intrinsics}
    {arenaBase : Option Cap} {granted : Bool} {s s' : State} {t : Table}
    {key : Nat} {newCap : Cap} {fwd : Option Cap}
    (allocated : s.gTable = some t)
    (ran : forwardTableCasInsert cheri arenaBase granted s key newCap =
      .ok (s', fwd)) :
    (∃ t', s'.gTable = some t') ∧ s'.gCapacity = s.gCapacity ∧
      s'.gSize ≤ s.gSize + 1 := by
  have ready : forwardTableInit granted s = s := by
    simp only [forwardTableInit, allocated]
  simp only [forwardTableCasInsert, ready, allocated] at ran
  split at ran
  · cases ran
    exact ⟨⟨t, allocated⟩, rfl, Nat.le_succ _⟩
  · split at ran
    · split at ran
      · cases ran
      · cases ran
        exact ⟨⟨t, allocated⟩, rfl, Nat.le_succ _⟩
    · cases ran
      exact ⟨⟨_, rfl⟩, rfl, Nat.le_refl _⟩

end ForwardTable

end StoplessGC
