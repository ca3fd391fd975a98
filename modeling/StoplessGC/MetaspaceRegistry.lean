import StoplessGC.Cheri
import Mathlib.Data.List.Basic

/-!
# Capabilities of the metaspace reservations

Pointers into metaspace go through Java `long` arrays, where they lose their
tags.  A registry of the reservations gives them back.  It is filled by the
constructor of `VirtualSpaceNode` and has a fixed number of entries.
-/

namespace StoplessGC

namespace Metaspace

/-- `STOPLESS_MS_MAX_RANGES` -/
def stoplessMsMaxRanges : Nat := 16

/-- `stopless_register_metaspace_cap`, on the used part of
`g_stopless_ms_caps`. -/
def stoplessRegisterMetaspaceCap (caps : List Cap) (baseCap : Cap) : List Cap :=
  if caps.length < stoplessMsMaxRanges then caps ++ [baseCap] else caps

/-- The test for an address in a range of the registry. -/
def covers (c : Cap) (addr : Nat) : Bool :=
  let b := c.base
  let t := (b + c.length) % addressSpace
  decide (b ≤ addr ∧ addr < t)

/-- `stopless_rederive_metaspace` -/
def stoplessRederiveMetaspace (cheri : Intrinsics) (caps : List Cap)
    (addr : Nat) : Cap :=
  match caps.find? fun c => covers c addr with
  | some c => cheri.addressSet c addr
  | none => Cap.ofInt addr

/-- A mapping from the operating system, below the top of the address space. -/
structure Reservation where
  cap : Cap
  tagged : cap.tag = true
  nonempty : 0 < cap.length
  top : cap.base + cap.length < addressSpace

namespace Reservation

def Contains (r : Reservation) (addr : Nat) : Prop :=
  r.cap.base ≤ addr ∧ addr < r.cap.base + r.cap.length

def Apart (r s : Reservation) : Prop :=
  r.cap.base + r.cap.length ≤ s.cap.base ∨
    s.cap.base + s.cap.length ≤ r.cap.base

/-- The registry after the constructions of some nodes. -/
def registry (rs : List Reservation) : List Cap :=
  rs.foldl (fun caps r => stoplessRegisterMetaspaceCap caps r.cap) []

variable {cheri : Intrinsics} {rs : List Reservation} {r : Reservation}
  {addr : Nat}

theorem covers_iff (r : Reservation) (addr : Nat) :
    covers r.cap addr = true ↔ r.Contains addr := by
  rw [covers, Nat.mod_eq_of_lt r.top, decide_eq_true_iff]
  exact Iff.rfl

theorem Apart.not_contains {s : Reservation} (apart : r.Apart s)
    (inside : r.Contains addr) : ¬ s.Contains addr := by
  rintro ⟨lower, upper⟩
  obtain ⟨lower', upper'⟩ := inside
  rcases apart with below | above
  · omega
  · omega

theorem foldl_register {caps : List Cap}
    (short : caps.length ≤ stoplessMsMaxRanges) :
    rs.foldl (fun caps r => stoplessRegisterMetaspaceCap caps r.cap) caps =
      (caps ++ rs.map cap).take stoplessMsMaxRanges := by
  induction rs generalizing caps with
  | nil =>
      rw [List.map_nil, List.append_nil, List.take_of_length_le short]
      rfl
  | cons r rs ih =>
      rw [List.foldl_cons, stoplessRegisterMetaspaceCap]
      split
      · rename_i room
        have longer : (caps ++ [r.cap]).length ≤ stoplessMsMaxRanges := by
          rw [List.length_append]
          exact room
        rw [ih longer, List.append_assoc]
        rfl
      · rename_i full
        have length : stoplessMsMaxRanges ≤ caps.length := Nat.le_of_not_lt full
        rw [ih short, List.take_append_of_le_length length,
          List.take_append_of_le_length length]

theorem registry_eq_take (rs : List Reservation) :
    registry rs = (rs.map cap).take stoplessMsMaxRanges :=
  foldl_register (Nat.zero_le _)

theorem getElem?_registry {i : Nat} {c : Cap} :
    (registry rs)[i]? = some c ↔
      i < stoplessMsMaxRanges ∧ ∃ r, rs[i]? = some r ∧ r.cap = c := by
  rw [registry_eq_take, List.getElem?_take, Option.ite_none_right_eq_some,
    List.getElem?_map, Option.map_eq_some_iff]

theorem place_unique (apart : rs.Pairwise Apart) {s : Reservation} {j k : Nat}
    (left : rs[j]? = some r) (right : rs[k]? = some s)
    (insideLeft : r.Contains addr) (insideRight : s.Contains addr) : j = k := by
  obtain ⟨belowJ, rfl⟩ := List.getElem?_eq_some_iff.mp left
  obtain ⟨belowK, rfl⟩ := List.getElem?_eq_some_iff.mp right
  rcases Nat.lt_trichotomy j k with before | same | after
  · have disjoint := List.pairwise_iff_getElem.mp apart j k belowJ belowK before
    exact absurd insideRight (disjoint.not_contains insideLeft)
  · exact same
  · have disjoint := List.pairwise_iff_getElem.mp apart k j belowK belowJ after
    exact absurd insideLeft (disjoint.not_contains insideRight)

theorem find?_covers_place {c : Cap}
    (found : (registry rs).find? (fun c => covers c addr) = some c) :
    ∃ k r, k < stoplessMsMaxRanges ∧ rs[k]? = some r ∧ r.cap = c ∧
      r.Contains addr := by
  obtain ⟨i, at_⟩ := List.getElem?_of_mem (List.mem_of_find?_eq_some found)
  obtain ⟨small, r, there, rfl⟩ := getElem?_registry.mp at_
  have inside := List.find?_some found
  exact ⟨i, r, small, there, rfl, (covers_iff r addr).mp inside⟩

theorem find?_covers (apart : rs.Pairwise Apart) {k : Nat}
    (here : rs[k]? = some r) (inside : r.Contains addr) :
    (registry rs).find? (fun c => covers c addr) =
      if k < stoplessMsMaxRanges then some r.cap else none := by
  cases found : (registry rs).find? fun c => covers c addr with
  | some c =>
      obtain ⟨j, s, small, there, rfl, inside'⟩ := find?_covers_place found
      obtain rfl := place_unique apart there here inside' inside
      obtain rfl : s = r := Option.some.inj (there.symm.trans here)
      rw [if_pos small]
  | none =>
      by_cases small : k < stoplessMsMaxRanges
      · have member := getElem?_registry.mpr ⟨small, r, here, rfl⟩
        have missed := List.find?_eq_none.mp found r.cap
          (List.mem_of_getElem? member)
        exact absurd ((covers_iff r addr).mpr inside) missed
      · rw [if_neg small]

theorem addressSet_inside (laws : cheri.Laws) (inside : r.Contains addr) :
    cheri.addressSet r.cap addr = { r.cap with address := addr } := by
  have representable := laws.representable_inBounds r.cap addr inside.1
    inside.2.le
  rw [Intrinsics.addressSet, representable, Bool.and_true]

/-- An address comes back as a capability for its reservation exactly if that
was among the first. -/
theorem rederive_eq_iff (laws : cheri.Laws) (apart : rs.Pairwise Apart)
    {k : Nat} (here : rs[k]? = some r) (inside : r.Contains addr) :
    stoplessRederiveMetaspace cheri (registry rs) addr =
        { r.cap with address := addr } ↔ k < stoplessMsMaxRanges := by
  rw [stoplessRederiveMetaspace, find?_covers apart here inside]
  by_cases small : k < stoplessMsMaxRanges
  · rw [if_pos small]
    exact iff_of_true (addressSet_inside laws inside) small
  · rw [if_neg small]
    refine iff_of_false ?_ small
    intro same
    have tags : false = r.cap.tag := congrArg Cap.tag same
    rw [r.tagged] at tags
    cases tags

/-- Pointers into metaspace survive the way through an integer. -/
structure RoundTrips (cheri : Intrinsics) (rs : List Reservation) : Prop where
  inside : ∀ r ∈ rs, ∀ addr, r.Contains addr →
    stoplessRederiveMetaspace cheri (registry rs) addr =
      { r.cap with address := addr }
  outside : ∀ addr, (∀ r ∈ rs, ¬ r.Contains addr) →
    (stoplessRederiveMetaspace cheri (registry rs) addr).tag = false
  later : ∀ more, (rs ++ more).Pairwise Apart → ∀ r ∈ rs, ∀ addr,
    r.Contains addr →
    stoplessRederiveMetaspace cheri (registry (rs ++ more)) addr =
      stoplessRederiveMetaspace cheri (registry rs) addr

theorem rederive_outside (outside : ∀ r ∈ rs, ¬ r.Contains addr) :
    (stoplessRederiveMetaspace cheri (registry rs) addr).tag = false := by
  rw [stoplessRederiveMetaspace]
  cases found : (registry rs).find? fun c => covers c addr with
  | none => rfl
  | some c =>
      obtain ⟨k, r, -, there, -, inside⟩ := find?_covers_place found
      exact absurd inside (outside r (List.mem_of_getElem? there))

theorem rederive_append {more : List Reservation}
    (apart : (rs ++ more).Pairwise Apart) (member : r ∈ rs)
    (inside : r.Contains addr) :
    stoplessRederiveMetaspace cheri (registry (rs ++ more)) addr =
      stoplessRederiveMetaspace cheri (registry rs) addr := by
  obtain ⟨k, here⟩ := List.getElem?_of_mem member
  have below := (List.getElem?_eq_some_iff.mp here).1
  have still : (rs ++ more)[k]? = some r :=
    (List.getElem?_append_left below).trans here
  have before := (List.pairwise_append.mp apart).1
  rw [stoplessRederiveMetaspace, stoplessRederiveMetaspace,
    find?_covers apart still inside, find?_covers before here inside]

/-- There is room for the ranges of sixteen nodes. -/
theorem metaspace_round_trips_iff (laws : cheri.Laws)
    (apart : rs.Pairwise Apart) :
    RoundTrips cheri rs ↔ rs.length ≤ stoplessMsMaxRanges := by
  constructor
  · intro trips
    refine Nat.le_of_not_lt fun more => ?_
    have here := List.getElem?_eq_getElem more
    have nonempty := rs[stoplessMsMaxRanges].nonempty
    have inside : rs[stoplessMsMaxRanges].Contains
        rs[stoplessMsMaxRanges].cap.base := ⟨Nat.le_refl _, by omega⟩
    have small := (rederive_eq_iff laws apart here inside).mp
      (trips.inside _ (List.getElem_mem more) _ inside)
    exact absurd small (Nat.lt_irrefl _)
  · intro few
    refine ⟨?_, fun addr => rederive_outside, ?_⟩
    · intro r member addr inside
      obtain ⟨k, here⟩ := List.getElem?_of_mem member
      have below := (List.getElem?_eq_some_iff.mp here).1
      exact (rederive_eq_iff laws apart here inside).mpr (below.trans_le few)
    · intro more apart' r member addr inside
      exact rederive_append apart' member inside

/-- Reservations of 4 MiB, far from each other. -/
def sample (n : Nat) : List Reservation :=
  (List.range n).map fun i =>
    { cap :=
        { tag := true
          base := 2 ^ 32 + 2 ^ 23 * (i % 256)
          length := 2 ^ 22
          address := 2 ^ 32 + 2 ^ 23 * (i % 256)
          perms := { swVmem := false, rest := 1 } }
      tagged := rfl
      nonempty := Nat.two_pow_pos 22
      top := by
        change 2 ^ 32 + 2 ^ 23 * (i % 256) + 2 ^ 22 < addressSpace
        rw [addressSpace]
        omega }

theorem sample_apart {n : Nat} (few : n ≤ 256) : (sample n).Pairwise Apart := by
  rw [sample, List.pairwise_map]
  refine List.pairwise_lt_range.imp_of_mem ?_
  intro i j _ member before
  have small := List.mem_range.mp member
  left
  change 2 ^ 32 + 2 ^ 23 * (i % 256) + 2 ^ 22 ≤ 2 ^ 32 + 2 ^ 23 * (j % 256)
  omega

theorem metaspace_round_trips_iff_sample :
    RoundTrips Intrinsics.exact (sample 2) ↔
      (sample 2).length ≤ stoplessMsMaxRanges :=
  metaspace_round_trips_iff Intrinsics.exact_laws (sample_apart (by decide))

/-- The seventeenth reservation gets no entry. -/
theorem metaspace_registry_overflows :
    (sample 17).Pairwise Apart ∧ ¬ RoundTrips Intrinsics.exact (sample 17) := by
  refine ⟨sample_apart (by decide), ?_⟩
  intro trips
  have member : (sample 17)[16] ∈ sample 17 := List.getElem_mem _
  have found := trips.inside _ member (2 ^ 32 + 2 ^ 23 * 16)
    ⟨by decide, by decide⟩
  exact absurd (congrArg Cap.tag found) (by decide)

end Reservation

end Metaspace

end StoplessGC
