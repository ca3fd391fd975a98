import StoplessGC.CapRuntimeTable
import StoplessGC.Foundation.FirstInsert

/-!
# The forwarding table of the C++ runtime is a map

The calls of `cap_runtime/forwarding_table.cc` one after the other, with the
counter of installed objects.  Each call is what its atomic steps come to when
nobody else is running, and the calls together keep the map in which the first
install of an address wins.
-/

namespace StoplessGC

namespace CapRuntime

open OpenAddressing FirstInsert

/-- `ForwardingTable` with `installed_`. -/
structure CountedTable where
  table : ForwardingTable
  installed : Nat

namespace CountedTable

/-- The slot gets the pair. -/
def fill (s : CountedTable) (i : Nat) (src dst : Cap) : CountedTable :=
  { table := setCap (setFrom s.table i src.address) i dst
    installed := (s.installed + 1) % addressSpace }

/-- The loop of `install` with so many probes left. -/
def installFrom (src dst : Cap) (s : CountedTable) (probe : Nat) :
    Nat → CountedTable
  | 0 => s
  | left + 1 =>
      let i := slotOf s.table src.address probe
      if (s.table.slots i).fromAddr = 0 then s.fill i src dst
      else if (s.table.slots i).fromAddr = src.address then s
      else installFrom src dst s (probe + 1) left

/-- `ForwardingTable::install` -/
def install (src dst : Cap) (s : CountedTable) : CountedTable :=
  if src.address = 0 then s
  else installFrom src dst s 0 s.table.slotsCount

/-- `ForwardingTable::clear_region`, which clears all regions. -/
def clearRegion (s : CountedTable) : CountedTable :=
  { table := CapRuntime.clearRegion s.table
    installed := 0 }

end CountedTable

/-- The loop of `lookup` with so many probes left. -/
def lookupFrom (src : Cap) (t : ForwardingTable) (probe : Nat) : Nat → Cap
  | 0 => src
  | left + 1 =>
      let i := slotOf t src.address probe
      if (t.slots i).fromAddr = 0 then src
      else if (t.slots i).fromAddr = src.address then (t.slots i).toCap
      else lookupFrom src t (probe + 1) left

/-- `ForwardingTable::lookup` -/
def lookup (src : Cap) (t : ForwardingTable) : Cap :=
  if src.address = 0 then src
  else lookupFrom src t 0 t.slotsCount

/-- The calls that write. -/
inductive Update where
  | install (src dst : Cap)
  | clearRegion

namespace CountedTable

def update (s : CountedTable) : Update → CountedTable
  | .install src dst => s.install src dst
  | .clearRegion => s.clearRegion

/-- A new table and what is done to it. -/
def run (heapBytes : Nat) (updates : List Update) : CountedTable :=
  updates.foldl update { table := create heapBytes, installed := 0 }

theorem run_concat (heapBytes : Nat) (updates : List Update) (last : Update) :
    run heapBytes (updates ++ [last]) = (run heapBytes updates).update last := by
  simp [run, List.foldl_append]

end CountedTable

/-- What an update means for the map.  The null address is none of its keys. -/
def Update.event : Update → Option (Event Nat Cap)
  | .install src dst =>
      if src.address = 0 then none else some (.insert src.address dst)
  | .clearRegion => some .clear

def history (updates : List Update) : List (Event Nat Cap) :=
  updates.filterMap Update.event

/-! ## The size of the table -/

/-- The loop ends at the least power of two that is large enough. -/
theorem nextPow2_spec {target fuel e : Nat} (reach : target ≤ 2 ^ (e + fuel))
    (least : 2 ^ e < 2 * target) :
    ∃ k, nextPow2 target fuel (2 ^ e) = 2 ^ k ∧ target ≤ 2 ^ k ∧
      2 ^ k < 2 * target := by
  induction fuel generalizing e with
  | zero => exact ⟨e, rfl, reach, least⟩
  | succ fuel ih =>
      rw [nextPow2]
      split
      · rename_i below
        rw [← Nat.pow_succ]
        apply ih
        · rw [show e.succ + fuel = e + (fuel + 1) by omega]
          exact reach
        · rw [Nat.pow_succ]
          omega
      · exact ⟨e, rfl, by omega, least⟩

/-- The size of a table. -/
structure Sized (heapBytes slotsCount : Nat) : Prop where
  power : ∃ k, slotsCount = 2 ^ k
  least : 64 ≤ slotsCount
  enough : heapBytes / 64 ≤ slotsCount
  word : slotsCount < addressSpace

theorem create_sized {heapBytes : Nat} (size : heapBytes < addressSpace) :
    Sized heapBytes (create heapBytes).slotsCount := by
  have reach : max 64 (heapBytes / 64) ≤ 2 ^ (0 + 64) := by
    rw [addressSpace] at size
    omega
  obtain ⟨k, power, enough, tight⟩ := nextPow2_spec reach (by omega)
  have slots : (create heapBytes).slotsCount = 2 ^ k := power
  refine ⟨⟨k, slots⟩, ?_, ?_, ?_⟩
  · rw [slots]
    omega
  · rw [slots]
    omega
  · rw [slots]
    rw [addressSpace] at size ⊢
    omega

/-! ## The probe loops -/

namespace ForwardingTable

/-- The key in a slot. -/
def key (t : ForwardingTable) (i : Nat) : Option Nat :=
  if (t.slots i).fromAddr = 0 then none else some (t.slots i).fromAddr

def cap (t : ForwardingTable) (i : Nat) : Cap := (t.slots i).toCap

/-- Where the probes for an address begin. -/
def home (t : ForwardingTable) (a : Nat) : Nat := hashAddr a t.slotsCount

variable {t : ForwardingTable} {i a : Nat}

theorem key_eq_none : t.key i = none ↔ (t.slots i).fromAddr = 0 := by
  unfold key
  split <;> simp_all

theorem key_eq_some (nonzero : a ≠ 0) :
    t.key i = some a ↔ (t.slots i).fromAddr = a := by
  unfold key
  constructor
  · intro stored
    split at stored
    · cases stored
    · exact Option.some.inj stored
  · rintro rfl
    rw [if_neg nonzero]

/-- The probe loop for an address, as both calls make it. -/
def find (t : ForwardingTable) (a : Nat) : Option Nat :=
  search t.slotsCount t.key a t.slotsCount
    (OpenAddressing.probe t.slotsCount (t.home a) 0)

end ForwardingTable

theorem slotOf_eq_probe {t : ForwardingTable}
    (power : ∃ k, t.slotsCount = 2 ^ k) (a p : Nat) :
    slotOf t a p = OpenAddressing.probe t.slotsCount (t.home a) p := by
  obtain ⟨k, slots⟩ := power
  rw [slotOf, OpenAddressing.probe, ForwardingTable.home, slots,
    Nat.and_two_pow_sub_one_eq_mod]

/-- What `lookup` does with the slot at which its loop stops. -/
def lookupAt (src : Cap) (t : ForwardingTable) : Option Nat → Cap
  | none => src
  | some i => if (t.slots i).fromAddr = 0 then src else t.cap i

/-- What `install` does there. -/
def CountedTable.installAt (src dst : Cap) (s : CountedTable) :
    Option Nat → CountedTable
  | none => s
  | some i =>
      if (s.table.slots i).fromAddr = 0 then s.fill i src dst else s

section Probes

variable {src dst : Cap} (nonzero : src.address ≠ 0)

include nonzero

theorem search_slotOf {t : ForwardingTable} (power : ∃ k, t.slotsCount = 2 ^ k)
    (p left : Nat) :
    search t.slotsCount t.key src.address (left + 1) (slotOf t src.address p) =
      if (t.slots (slotOf t src.address p)).fromAddr = 0 ∨
          (t.slots (slotOf t src.address p)).fromAddr = src.address then
        some (slotOf t src.address p)
      else
        search t.slotsCount t.key src.address left
          (slotOf t src.address (p + 1)) := by
  rw [search]
  simp only [ForwardingTable.key_eq_none, ForwardingTable.key_eq_some nonzero]
  congr 2
  rw [slotOf_eq_probe power, slotOf_eq_probe power, probe_succ]

theorem lookupFrom_eq {t : ForwardingTable}
    (power : ∃ k, t.slotsCount = 2 ^ k) (p left : Nat) :
    lookupFrom src t p left =
      lookupAt src t (search t.slotsCount t.key src.address left
        (slotOf t src.address p)) := by
  induction left generalizing p with
  | zero => rfl
  | succ left ih =>
      rw [search_slotOf nonzero power, lookupFrom]
      by_cases free : (t.slots (slotOf t src.address p)).fromAddr = 0
      · simp [free, lookupAt]
      · by_cases mine :
          (t.slots (slotOf t src.address p)).fromAddr = src.address
        · simp [mine, nonzero, lookupAt, ForwardingTable.cap]
        · simp [free, mine, ih]

theorem CountedTable.installFrom_eq {s : CountedTable}
    (power : ∃ k, s.table.slotsCount = 2 ^ k) (p left : Nat) :
    s.installFrom src dst p left =
      s.installAt src dst (search s.table.slotsCount s.table.key src.address
        left (slotOf s.table src.address p)) := by
  induction left generalizing p with
  | zero => rfl
  | succ left ih =>
      rw [search_slotOf nonzero power, installFrom]
      by_cases free : (s.table.slots (slotOf s.table src.address p)).fromAddr = 0
      · simp [free, installAt]
      · by_cases mine :
          (s.table.slots (slotOf s.table src.address p)).fromAddr = src.address
        · simp [mine, nonzero, installAt]
        · simp [free, mine, ih]

theorem lookup_eq {t : ForwardingTable} (power : ∃ k, t.slotsCount = 2 ^ k) :
    lookup src t = lookupAt src t (t.find src.address) := by
  rw [lookup, if_neg nonzero, lookupFrom_eq nonzero power, slotOf_eq_probe power,
    ForwardingTable.find]

theorem CountedTable.install_eq {s : CountedTable}
    (power : ∃ k, s.table.slotsCount = 2 ^ k) :
    s.install src dst = s.installAt src dst (s.table.find src.address) := by
  rw [install, if_neg nonzero, installFrom_eq nonzero power,
    slotOf_eq_probe power, ForwardingTable.find]

end Probes

namespace CountedTable

variable {s : CountedTable} {src dst : Cap} {i : Nat}

theorem fill_key (nonzero : src.address ≠ 0) :
    (s.fill i src dst).table.key =
      Function.update s.table.key i (some src.address) := by
  funext j
  by_cases here : j = i
  · subst here
    simp [ForwardingTable.key, fill, setCap, setFrom, nonzero]
  · simp [ForwardingTable.key, fill, setCap, setFrom, here]

theorem fill_cap :
    (s.fill i src dst).table.cap = Function.update s.table.cap i dst := by
  funext j
  by_cases here : j = i
  · subst here
    simp [ForwardingTable.cap, fill, setCap]
  · simp [ForwardingTable.cap, fill, setCap, setFrom, here]

@[simp] theorem clearRegion_key :
    s.clearRegion.table.key = fun _ => none := by
  funext j
  simp [ForwardingTable.key, clearRegion, CapRuntime.clearRegion]

end CountedTable

/-! ## The map -/

/-- The table of a history. -/
structure Represents (s : CountedTable) (past : List (Event Nat Cap)) :
    Prop where
  power : ∃ k, s.table.slotsCount = 2 ^ k
  word : s.table.slotsCount < addressSpace
  holds : Holds s.table.slotsCount s.table.home s.table.key s.table.cap
    (first past)
  counted : s.installed = (keys past).card

namespace Represents

variable {s : CountedTable} {past : List (Event Nat Cap)} {src dst : Cap}

theorem find_some (represents : Represents s past) {a : Nat} {c : Cap}
    (nonzero : a ≠ 0) (mapped : first past a = some c) :
    ∃ i, s.table.find a = some i ∧ (s.table.slots i).fromAddr ≠ 0 ∧
      s.table.cap i = c := by
  obtain ⟨i, found, key, cap⟩ := represents.holds.search_some mapped
  refine ⟨i, found, ?_, cap⟩
  rw [(ForwardingTable.key_eq_some nonzero).mp key]
  exact nonzero

theorem lookup (represents : Represents s past) (nonzero : src.address ≠ 0) :
    CapRuntime.lookup src s.table = (first past src.address).getD src := by
  rw [lookup_eq nonzero represents.power]
  cases mapped : first past src.address with
  | some c =>
      obtain ⟨i, found, occupied, cap⟩ := represents.find_some nonzero mapped
      rw [found, lookupAt, if_neg occupied, cap, Option.getD_some]
  | none =>
      cases stopped : s.table.find src.address with
      | none => rfl
      | some i =>
          have free := (represents.holds.search_none mapped stopped).1
          rw [lookupAt, if_pos (ForwardingTable.key_eq_none.mp free),
            Option.getD_none]

theorem install_known (represents : Represents s past)
    (nonzero : src.address ≠ 0) (known : src.address ∈ keys past) :
    s.install src dst = s := by
  obtain ⟨c, mapped⟩ :=
    Option.isSome_iff_exists.mp ((mem_keys past src.address).mp known)
  obtain ⟨i, found, occupied, _⟩ := represents.find_some nonzero mapped
  rw [CountedTable.install_eq nonzero represents.power, found,
    CountedTable.installAt, if_neg occupied]

/-- A new address gets a slot, if need be the last one. -/
theorem install_new (represents : Represents s past)
    (nonzero : src.address ≠ 0) (new : src.address ∉ keys past)
    (room : (insert src.address (keys past)).card ≤ s.table.slotsCount) :
    Represents (s.install src dst) (past ++ [.insert src.address dst]) := by
  obtain ⟨p, stopped, below, passed, free⟩ := represents.holds.search_new new room
  have unmapped : first past src.address = none := by
    rw [mem_keys] at new
    exact Option.not_isSome_iff_eq_none.mp new
  have filled : s.install src dst =
      s.fill (OpenAddressing.probe s.table.slotsCount
        (s.table.home src.address) p) src dst := by
    rw [CountedTable.install_eq nonzero represents.power,
      show s.table.find src.address = _ from stopped, CountedTable.installAt,
      if_pos (ForwardingTable.key_eq_none.mp free)]
  rw [filled]
  refine ⟨represents.power, represents.word, ?_, ?_⟩
  · rw [CountedTable.fill_key nonzero, CountedTable.fill_cap,
      first_insert_new past dst new]
    exact represents.holds.claim unmapped below passed free dst
  · have word := represents.word
    rw [Finset.card_insert_of_notMem new] at room
    rw [keys_insert, Finset.card_insert_of_notMem new, CountedTable.fill,
      represents.counted]
    exact Nat.mod_eq_of_lt (by omega)

theorem install (represents : Represents s past) (nonzero : src.address ≠ 0)
    (room : (insert src.address (keys past)).card ≤ s.table.slotsCount) :
    Represents (s.install src dst) (past ++ [.insert src.address dst]) := by
  by_cases known : src.address ∈ keys past
  · rw [represents.install_known nonzero known]
    refine ⟨represents.power, represents.word, ?_, ?_⟩
    · rw [first_insert_known past dst known]
      exact represents.holds
    · rw [keys_insert, Finset.insert_eq_of_mem known]
      exact represents.counted
  · exact represents.install_new nonzero known room

theorem clear (represents : Represents s past) :
    Represents s.clearRegion (past ++ [.clear]) := by
  refine ⟨represents.power, represents.word, ?_, ?_⟩
  · rw [CountedTable.clearRegion_key,
      show first (past ++ [.clear]) = fun _ => none from funext (first_clear past)]
    exact Holds.empty
  · rw [keys_clear]
    rfl

theorem update (represents : Represents s past) (last : Update)
    (fits : Fits s.table.slotsCount (past ++ last.event.toList)) :
    Represents (s.update last) (past ++ last.event.toList) := by
  cases last with
  | clearRegion => exact represents.clear
  | install src dst =>
      by_cases null : src.address = 0
      · have ignored : s.install src dst = s := by
          rw [CountedTable.install, if_pos null]
        simp only [CountedTable.update, ignored, Update.event, if_pos null,
          Option.toList_none, List.append_nil]
        exact represents
      · simp only [Update.event, if_neg null, Option.toList_some] at fits ⊢
        refine represents.install null ?_
        rw [← keys_insert past src.address dst]
        exact fits.last

end Represents

theorem history_concat (updates : List Update) (last : Update) :
    history (updates ++ [last]) = history updates ++ last.event.toList := by
  rw [history, List.filterMap_append, ← history]
  cases event : last.event <;> simp [event]

theorem CountedTable.installFrom_slotsCount (src dst : Cap) (s : CountedTable)
    (p left : Nat) :
    (s.installFrom src dst p left).table.slotsCount = s.table.slotsCount := by
  induction left generalizing p with
  | zero => rfl
  | succ left ih =>
      rw [installFrom]
      split
      · rfl
      · split
        · rfl
        · exact ih (p + 1)

theorem CountedTable.update_slotsCount (s : CountedTable) (last : Update) :
    (s.update last).table.slotsCount = s.table.slotsCount := by
  cases last with
  | clearRegion => rfl
  | install src dst =>
      simp only [update, install]
      split
      · rfl
      · exact installFrom_slotsCount src dst s 0 _

theorem CountedTable.run_slotsCount (heapBytes : Nat) (updates : List Update) :
    (run heapBytes updates).table.slotsCount =
      (create heapBytes).slotsCount := by
  induction updates using List.reverseRecOn with
  | nil => rfl
  | append_singleton updates last ih =>
      rw [run_concat, update_slotsCount, ih]

theorem represents_run {heapBytes : Nat} (size : heapBytes < addressSpace)
    {updates : List Update}
    (fits : Fits (create heapBytes).slotsCount (history updates)) :
    Represents (CountedTable.run heapBytes updates) (history updates) := by
  induction updates using List.reverseRecOn with
  | nil =>
      have sized := create_sized size
      have empty : (create heapBytes).key = fun _ => none := by
        funext i
        simp [ForwardingTable.key, create]
      refine ⟨sized.power, sized.word, ?_, rfl⟩
      rw [CountedTable.run, List.foldl_nil, empty]
      exact Holds.empty
  | append_singleton updates last ih =>
      rw [history_concat] at fits ⊢
      rw [CountedTable.run_concat]
      apply (ih fits.before).update
      rw [CountedTable.run_slotsCount]
      exact fits

/-! ## The calls alone -/

/-- The atomic steps of a call while nobody else is running. -/
def runAlone (call : Call) : Nat → ForwardingTable → Pc → ForwardingTable × Pc
  | 0, t, pc => (t, pc)
  | fuel + 1, t, pc =>
      match callStep call t pc with
      | some (t', pc') => runAlone call fuel t' pc'
      | none => (t, pc)

section Alone

variable {call : Call} {t t' : ForwardingTable} {pc pc' : Pc} (fuel : Nat)

theorem runAlone_step (taken : callStep call t pc = some (t', pc')) :
    runAlone call (fuel + 1) t pc = runAlone call fuel t' pc' := by
  rw [runAlone, taken]

theorem runAlone_ended (ended : callStep call t pc = none) :
    runAlone call fuel t pc = (t, pc) := by
  cases fuel with
  | zero => rfl
  | succ fuel => rw [runAlone, ended]

end Alone

theorem runAlone_claim_round (src dst : Cap) (s : CountedTable) (p fuel : Nat) :
    runAlone (.install src dst) (fuel + 1 + 1) s.table (.claim p) =
      if (s.table.slots (slotOf s.table src.address p)).fromAddr = 0 then
        ((s.fill (slotOf s.table src.address p) src dst).table, .installed)
      else if (s.table.slots (slotOf s.table src.address p)).fromAddr =
          src.address then
        (s.table, .installed)
      else
        runAlone (.install src dst) fuel s.table
          (advanceProbe s.table p .claim .installed) := by
  by_cases free : (s.table.slots (slotOf s.table src.address p)).fromAddr = 0
  · have claims : callStep (.install src dst) s.table (.claim p) =
        some (setFrom s.table (slotOf s.table src.address p) src.address,
          .storeCap (slotOf s.table src.address p)) := by
      simp [callStep, installStep, free]
    rw [if_pos free, runAlone_step _ claims, runAlone_step _ rfl,
      runAlone_ended _ rfl]
    rfl
  · have lost : callStep (.install src dst) s.table (.claim p) =
        some (s.table, .recheck p) := by
      simp [callStep, installStep, free]
    rw [if_neg free, runAlone_step _ lost]
    by_cases mine :
      (s.table.slots (slotOf s.table src.address p)).fromAddr = src.address
    · have known : callStep (.install src dst) s.table (.recheck p) =
          some (s.table, .installed) := by
        simp [callStep, installStep, mine]
      rw [if_pos mine, runAlone_step _ known, runAlone_ended _ rfl]
    · have other : callStep (.install src dst) s.table (.recheck p) =
          some (s.table, advanceProbe s.table p .claim .installed) := by
        simp [callStep, installStep, mine]
      rw [if_neg mine, runAlone_step _ other]

theorem runAlone_claim (src dst : Cap) (s : CountedTable) {p left : Nat}
    (within : p + (left + 1) = s.table.slotsCount) :
    runAlone (.install src dst) (2 * (left + 1)) s.table (.claim p) =
      ((s.installFrom src dst p (left + 1)).table, .installed) := by
  induction left generalizing p with
  | zero =>
      have last : advanceProbe s.table p .claim .installed = .installed :=
        if_neg (by omega)
      rw [runAlone_claim_round src dst s p 0, CountedTable.installFrom, last,
        CountedTable.installFrom]
      split
      · rfl
      · split <;> rfl
  | succ left ih =>
      have next : advanceProbe s.table p .claim .installed = .claim (p + 1) :=
        if_pos (by omega)
      rw [show 2 * (left + 1 + 1) = 2 * (left + 1) + 1 + 1 by omega,
        runAlone_claim_round, CountedTable.installFrom, next, ih (by omega)]
      split
      · rfl
      · split <;> rfl

theorem runAlone_probe_round (src : Cap) (t : ForwardingTable) (p fuel : Nat) :
    runAlone (.lookup src) (fuel + 1 + 1) t (.probe p) =
      if (t.slots (slotOf t src.address p)).fromAddr = 0 then
        (t, .returned src)
      else if (t.slots (slotOf t src.address p)).fromAddr = src.address then
        (t, .returned (t.slots (slotOf t src.address p)).toCap)
      else
        runAlone (.lookup src) (fuel + 1) t
          (advanceProbe t p .probe (.returned src)) := by
  have loads : callStep (.lookup src) t (.probe p) =
      (lookupStep src t (.probe p)).map (fun pc => (t, pc)) := rfl
  by_cases free : (t.slots (slotOf t src.address p)).fromAddr = 0
  · rw [lookupStep, if_pos free] at loads
    rw [if_pos free, runAlone_step _ loads, runAlone_ended _ rfl]
  · rw [lookupStep, if_neg free] at loads
    rw [if_neg free]
    by_cases mine : (t.slots (slotOf t src.address p)).fromAddr = src.address
    · rw [if_pos mine] at loads
      rw [if_pos mine, runAlone_step _ loads, runAlone_step _ rfl,
        runAlone_ended _ rfl]
    · rw [if_neg mine] at loads
      rw [if_neg mine, runAlone_step _ loads]

theorem runAlone_probe (src : Cap) (t : ForwardingTable) {p left : Nat}
    (within : p + (left + 1) = t.slotsCount) :
    runAlone (.lookup src) (left + 1 + 1) t (.probe p) =
      (t, .returned (lookupFrom src t p (left + 1))) := by
  induction left generalizing p with
  | zero =>
      have last : advanceProbe t p .probe (.returned src) = .returned src :=
        if_neg (by omega)
      rw [runAlone_probe_round src t p 0, lookupFrom, last, lookupFrom,
        runAlone_ended _ rfl]
      split
      · rfl
      · split <;> rfl
  | succ left ih =>
      have next : advanceProbe t p .probe (.returned src) = .probe (p + 1) :=
        if_pos (by omega)
      rw [runAlone_probe_round, lookupFrom, next, ih (by omega)]
      split
      · rfl
      · split <;> rfl

/-- `install` ends within two accesses of every slot, whether or not there is
a free one. -/
theorem runAlone_install (src dst : Cap) (s : CountedTable)
    (positive : 0 < s.table.slotsCount) :
    runAlone (.install src dst) (2 * s.table.slotsCount + 1) s.table .start =
      ((s.install src dst).table, .installed) := by
  rw [CountedTable.install]
  by_cases null : src.address = 0
  · have ignored : callStep (.install src dst) s.table .start =
        some (s.table, .installed) := by
      simp [callStep, installStep, null]
    rw [if_pos null, runAlone_step _ ignored, runAlone_ended _ rfl]
  · have begins : callStep (.install src dst) s.table .start =
        some (s.table, .claim 0) := by
      simp [callStep, installStep, null]
    obtain ⟨left, slots⟩ := Nat.exists_eq_succ_of_ne_zero positive.ne'
    rw [if_neg null, runAlone_step _ begins, slots]
    exact runAlone_claim src dst s (by omega)

theorem runAlone_lookup (src : Cap) (t : ForwardingTable)
    (positive : 0 < t.slotsCount) :
    runAlone (.lookup src) (t.slotsCount + 2) t .start =
      (t, .returned (lookup src t)) := by
  rw [lookup]
  by_cases null : src.address = 0
  · have ignored : callStep (.lookup src) t .start =
        some (t, .returned src) := by
      simp [callStep, lookupStep, null]
    rw [if_pos null, runAlone_step _ ignored, runAlone_ended _ rfl]
  · have begins : callStep (.lookup src) t .start = some (t, .probe 0) := by
      simp [callStep, lookupStep, null]
    obtain ⟨left, slots⟩ := Nat.exists_eq_succ_of_ne_zero positive.ne'
    rw [if_neg null, runAlone_step _ begins, slots]
    exact runAlone_probe src t (by omega)

/-- For every heap size and every sequence of installs and clears with room
for its addresses, the table is the map in which the first install of an
address since the last clear wins, the counter counts the addresses, and both
calls come to an end. -/
theorem first_install_wins {heapBytes : Nat} (size : heapBytes < addressSpace)
    {updates : List Update}
    (fits : Fits (create heapBytes).slotsCount (history updates)) :
    Sized heapBytes (CountedTable.run heapBytes updates).table.slotsCount ∧
      (∀ src, lookup src (CountedTable.run heapBytes updates).table =
        if src.address = 0 then src
        else (first (history updates) src.address).getD src) ∧
      (CountedTable.run heapBytes updates).installed =
        (keys (history updates)).card ∧
      (∀ src dst, ∃ fuel,
        runAlone (.install src dst) fuel
            (CountedTable.run heapBytes updates).table .start =
          (((CountedTable.run heapBytes updates).install src dst).table,
            .installed)) ∧
      ∀ src, ∃ fuel,
        runAlone (.lookup src) fuel
            (CountedTable.run heapBytes updates).table .start =
          ((CountedTable.run heapBytes updates).table,
            .returned (lookup src (CountedTable.run heapBytes updates).table)) := by
  have sized : Sized heapBytes
      (CountedTable.run heapBytes updates).table.slotsCount := by
    rw [CountedTable.run_slotsCount]
    exact create_sized size
  have represents := represents_run size fits
  have least := sized.least
  refine ⟨sized, ?_, represents.counted, ?_, ?_⟩
  · intro src
    split
    · rename_i null
      rw [lookup, if_pos null]
    · rename_i nonzero
      exact represents.lookup nonzero
  · exact fun src dst => ⟨_, runAlone_install src dst _ (by omega)⟩
  · exact fun src => ⟨_, runAlone_lookup src _ (by omega)⟩

/-- An object that was moved in an earlier cycle, then in this one, where a
second worker comes too late, and another object. -/
def twoObjects : List Update :=
  [.install (Cap.ofInt 16) (Cap.ofInt 80), .clearRegion,
    .install (Cap.ofInt 16) (Cap.ofInt 64),
    .install (Cap.ofInt 16) (Cap.ofInt 96),
    .install (Cap.ofInt 32) (Cap.ofInt 112)]

theorem first_install_wins_twoObjects :
    lookup (Cap.ofInt 16) (CountedTable.run 4096 twoObjects).table =
        Cap.ofInt 64 ∧
      lookup (Cap.ofInt 48) (CountedTable.run 4096 twoObjects).table =
        Cap.ofInt 48 ∧
      (CountedTable.run 4096 twoObjects).installed = 2 := by
  have wins := @first_install_wins 4096 (by decide) twoObjects (by decide)
  refine ⟨?_, ?_, ?_⟩
  · rw [wins.2.1]
    decide
  · rw [wins.2.1]
    decide
  · rw [wins.2.2.1]
    decide

end CapRuntime

end StoplessGC
