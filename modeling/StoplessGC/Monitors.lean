import StoplessGC.Execution
import StoplessGC.InterpreterFrame

/-!
# Monitor entries and relocation

`monitorenter` and `monitorexit` compare the addresses in the monitor entries
with the address of their operand, and dereference neither.  An entry that
still holds the address of an older copy is not found.
-/

namespace StoplessGC

namespace Interpreter

open ForwardTable Forwarding Collector

variable {cheri : Intrinsics} {arena : Arena cheri}

/-- The object slot of the `i`th entry of the block. -/
def objSlot (code : Code) (top i : Nat) : Nat :=
  top + i * code.entrySize + code.objOffset

/-- The address below the block of `k` entries. -/
def blockBottom (code : Code) (top k : Nat) : Nat := top + k * code.entrySize

/-- Both searches stop at an entry with the address of the operand. -/
def Stops (code : Code) (mem : Nat → Word) (top k obj : Nat) : Prop :=
  ∃ i, i < k ∧ ldr mem (objSlot code top i) = obj

theorem blockBottom_succ (code : Code) (top k : Nat) :
    blockBottom code top (k + 1) =
      blockBottom code (top + code.entrySize) k := by
  rw [blockBottom, blockBottom, Nat.succ_mul]
  omega

theorem objSlot_zero (code : Code) (top : Nat) :
    objSlot code top 0 = top + code.objOffset := by
  rw [objSlot, Nat.zero_mul, Nat.add_zero]

theorem objSlot_succ (code : Code) (top i : Nat) :
    objSlot code top (i + 1) = objSlot code (top + code.entrySize) i := by
  rw [objSlot, objSlot, Nat.succ_mul]
  omega

theorem top_ne_bottom (code : Code) (top k : Nat) :
    top ≠ blockBottom code top (k + 1) := by
  have positive := entrySize_pos code
  have word : wordSize = 16 := rfl
  rw [blockBottom, Nat.succ_mul]
  omega

theorem stops_succ (code : Code) (mem : Nat → Word) (top k obj : Nat) :
    Stops code mem top (k + 1) obj ↔
      ldr mem (objSlot code top 0) = obj ∨
        Stops code mem (top + code.entrySize) k obj := by
  constructor
  · rintro ⟨i, below, here⟩
    cases i with
    | zero => exact .inl here
    | succ i =>
        rw [objSlot_succ] at here
        exact .inr ⟨i, by omega, here⟩
  · rintro (here | ⟨i, below, there⟩)
    · exact ⟨0, by omega, here⟩
    · rw [← objSlot_succ] at there
      exact ⟨i + 1, by omega, there⟩

/-- The search of `monitorexit` ends, because the block is a whole number of
entries, and finds an entry exactly when one has the address. -/
theorem exitSearch_eq (code : Code) (mem : Nat → Word) (top : Nat)
    {k fuel : Nat} (enough : k < fuel) (obj : Nat) :
    ∃ found, exitSearch code mem (blockBottom code top k) obj fuel top =
        some found ∧
      (found ≠ none ↔ Stops code mem top k obj) := by
  induction k generalizing fuel top with
  | zero =>
      obtain ⟨fuel, rfl⟩ := Nat.exists_eq_succ_of_ne_zero (Nat.ne_of_gt enough)
      refine ⟨none, by simp [exitSearch, blockBottom], ?_⟩
      simp [Stops]
  | succ k ih =>
      obtain ⟨fuel, rfl⟩ := Nat.exists_eq_succ_of_ne_zero
        (Nat.ne_of_gt (Nat.lt_of_le_of_lt (Nat.zero_le _) enough))
      rw [exitSearch, if_neg (top_ne_bottom code top k), stops_succ,
        objSlot_zero]
      by_cases here : ldr mem (top + code.objOffset) = obj
      · rw [if_pos here]
        exact ⟨some top, rfl, by simp [here]⟩
      · rw [if_neg here, blockBottom_succ]
        obtain ⟨found, ran, spec⟩ :=
          ih (top + code.entrySize) (Nat.lt_of_succ_lt_succ enough)
        exact ⟨found, ran, by simp [here, spec]⟩

theorem enterSearch_eq (code : Code) (mem : Nat → Word) (top : Nat)
    {k fuel : Nat} (enough : k < fuel) (obj free : Nat) :
    ∃ unused stopped,
      enterSearch code mem (blockBottom code top k) obj fuel free top =
        some (unused, stopped) ∧
      (stopped ≠ none ↔ Stops code mem top k obj) := by
  induction k generalizing fuel top free with
  | zero =>
      obtain ⟨fuel, rfl⟩ := Nat.exists_eq_succ_of_ne_zero (Nat.ne_of_gt enough)
      refine ⟨free, none, by simp [enterSearch, blockBottom], ?_⟩
      simp [Stops]
  | succ k ih =>
      obtain ⟨fuel, rfl⟩ := Nat.exists_eq_succ_of_ne_zero
        (Nat.ne_of_gt (Nat.lt_of_le_of_lt (Nat.zero_le _) enough))
      rw [enterSearch, if_neg (top_ne_bottom code top k), stops_succ,
        objSlot_zero]
      by_cases here : ldr mem (top + code.objOffset) = obj
      · simp only [if_pos here]
        exact ⟨_, some top, rfl, by simp [here]⟩
      · simp only [if_neg here]
        rw [blockBottom_succ]
        obtain ⟨unused, stopped, ran, spec⟩ :=
          ih (top + code.entrySize) (Nat.lt_of_succ_lt_succ enough) _
        exact ⟨unused, stopped, ran, by simp [here, spec]⟩

/-- A search that has ended does not depend on the rest of the fuel. -/
theorem exitSearch_mono {code : Code} {mem : Nat → Word}
    {bottom obj fuel more entry : Nat} {found : Option Nat}
    (ended : exitSearch code mem bottom obj fuel entry = some found)
    (longer : fuel ≤ more) :
    exitSearch code mem bottom obj more entry = some found := by
  induction fuel generalizing more entry with
  | zero => cases ended
  | succ fuel ih =>
      obtain ⟨more, rfl⟩ := Nat.exists_eq_succ_of_ne_zero
        (Nat.ne_of_gt (Nat.lt_of_lt_of_le (Nat.succ_pos fuel) longer))
      rw [exitSearch] at ended ⊢
      split
      · rwa [if_pos (by assumption)] at ended
      · rw [if_neg (by assumption)] at ended
        split
        · rwa [if_pos (by assumption)] at ended
        · rw [if_neg (by assumption)] at ended
          exact ih ended (Nat.le_of_succ_le_succ longer)

theorem enterSearch_mono {code : Code} {mem : Nat → Word}
    {bottom obj fuel more free entry : Nat} {result : Nat × Option Nat}
    (ended : enterSearch code mem bottom obj fuel free entry = some result)
    (longer : fuel ≤ more) :
    enterSearch code mem bottom obj more free entry = some result := by
  induction fuel generalizing more free entry with
  | zero => cases ended
  | succ fuel ih =>
      obtain ⟨more, rfl⟩ := Nat.exists_eq_succ_of_ne_zero
        (Nat.ne_of_gt (Nat.lt_of_lt_of_le (Nat.succ_pos fuel) longer))
      rw [enterSearch] at ended ⊢
      split
      · rwa [if_pos (by assumption)] at ended
      · rw [if_neg (by assumption)] at ended
        simp only at ended ⊢
        split
        · rwa [if_pos (by assumption)] at ended
        · rw [if_neg (by assumption)] at ended
          exact ih ended (Nat.le_of_succ_le_succ longer)

/-- Two addresses of copies of one object. -/
def SameObject (table : State) (a b : Nat) : Prop :=
  ∃ e, Ends (ftFind table) a e ∧ Ends (ftFind table) b e

/-- Some entry of the block denotes the object of `r0`. -/
def Denoted (code : Code) (m : Machine) (top k : Nat) (r0 : Cap) : Prop :=
  ∃ i c, i < k ∧ m.mem (objSlot code top i) = .value c ∧ c.address ≠ 0 ∧
    SameObject m.table c.address r0.address

/-- Some entry of the block holds the very address of `r0`. -/
def SameGeneration (code : Code) (m : Machine) (top k : Nat) (r0 : Cap) :
    Prop :=
  ∃ i c, i < k ∧ m.mem (objSlot code top i) = .value c ∧
    c.address = r0.address

theorem stops_iff_sameGeneration {code : Code} {m : Machine} {top k : Nat}
    {r0 : Cap} (nonnull : r0.address ≠ 0) :
    Stops code m.mem top k r0.address ↔ SameGeneration code m top k r0 := by
  constructor
  · rintro ⟨i, below, here⟩
    unfold ldr at here
    split at here
    · rename_i c word
      exact ⟨i, c, below, word, here⟩
    · exact absurd here.symm nonnull
  · rintro ⟨i, c, below, word, same⟩
    exact ⟨i, below, by simp only [ldr, word, same]⟩

theorem SameGeneration.denoted (laws : cheri.Laws) {code : Code} {m : Machine}
    {top k : Nat} {r0 : Cap} (runs : Runs arena Machine.boot m)
    (nonnull : r0.address ≠ 0) (same : SameGeneration code m top k r0) :
    Denoted code m top k r0 := by
  obtain ⟨ext, heap⟩ := runs.heap laws
  obtain ⟨i, c, below, word, address⟩ := same
  obtain ⟨e, ends⟩ := heap.exists_end r0.address
  refine ⟨i, c, below, word, ?_, e, ?_, ends⟩
  · rw [address]
    exact nonnull
  · rw [address]
    exact ends

/-- For every activation over the memory of a reachable machine, and every
operand that has passed its null check: both searches end, and they stop at an
entry for the object exactly when some entry for it has the address of the
operand, if there is an entry for it at all. -/
theorem monitor_search_iff (laws : cheri.Laws) {stack : Stack} {code : Code}
    {phase : Phase} {f : Activation} {m : Machine}
    (runs : Runs arena Machine.boot m)
    (reached : Reached cheri stack code phase f) (words : f.mem = m.mem)
    {r0 : Cap} (nonnull : r0.address ≠ 0) :
    ∃ k found unused stopped,
      f.initialSp.address + k * code.entrySize = f.initialSpSlot ∧
      (∀ fuel, k < fuel → exitSearch code f.mem f.initialSpSlot r0.address fuel
        f.initialSp.address = some found) ∧
      (∀ fuel, k < fuel → enterSearch code f.mem f.initialSpSlot r0.address
        fuel 0 f.initialSp.address = some (unused, stopped)) ∧
      ((found ≠ none ↔ Denoted code m f.initialSp.address k r0) ↔
        (Denoted code m f.initialSp.address k r0 →
          SameGeneration code m f.initialSp.address k r0)) ∧
      ((stopped ≠ none ↔ Denoted code m f.initialSp.address k r0) ↔
        (Denoted code m f.initialSp.address k r0 →
          SameGeneration code m f.initialSp.address k r0)) := by
  obtain ⟨k, block⟩ := (reached.sound laws).entries
  have more : k < k + 1 := Nat.lt_succ_self k
  obtain ⟨found, exits, exitSpec⟩ :=
    exitSearch_eq code m.mem f.initialSp.address more r0.address
  obtain ⟨unused, stopped, enters, enterSpec⟩ :=
    enterSearch_eq code m.mem f.initialSp.address more r0.address 0
  rw [blockBottom, block] at exits enters
  rw [stops_iff_sameGeneration nonnull] at exitSpec enterSpec
  have genuine : SameGeneration code m f.initialSp.address k r0 →
      Denoted code m f.initialSp.address k r0 :=
    SameGeneration.denoted laws runs nonnull
  refine ⟨k, found, unused, stopped, block, ?_, ?_, ?_, ?_⟩
  · intro fuel enough
    rw [words]
    exact exitSearch_mono exits enough
  · intro fuel enough
    rw [words]
    exact enterSearch_mono enters enough
  · rw [exitSpec]
    exact ⟨fun same denoted => same.mpr denoted,
      fun fresh => ⟨genuine, fresh⟩⟩
  · rw [enterSpec]
    exact ⟨fun same denoted => same.mpr denoted,
      fun fresh => ⟨genuine, fresh⟩⟩

/-- The object slot of the one monitor entry of `caught`. -/
def lockSlot : Nat := objSlot Code.small 2096928 0

/-- A program that locks an object and loses it from its registers to a cycle;
a load through `x0` afterwards heals that register. -/
def lockAndMove (env : Env) : List Act :=
  [.op (.alloc 0 none 2), .op (.spill lockSlot 0),
    .cycle env Replies.granted [lockSlot], .op (.load 1 0 16)]

/-- Without root fixup the entry keeps the old address, and `monitorexit` on
the healed reference does not find it. -/
theorem monitorexit_misses_entry :
    ∃ m, Runs Arena.small Machine.boot m ∧ (m.regs 0).tag = true ∧
      ftFind m.table (m.regs 0).address = none ∧
      Reached Intrinsics.exact Stack.small Code.small .running
        (caught m.mem) ∧
      exitSearch Code.small m.mem (caught m.mem).initialSpSlot
        (m.regs 0).address 2 (caught m.mem).initialSp.address = some none ∧
      Denoted Code.small m (caught m.mem).initialSp.address 1 (m.regs 0) := by
  obtain ⟨m, ran, checked⟩ := (Option.any_eq_true _ _).mp (by decide +kernel :
    (perform Arena.small Machine.boot
      (lockAndMove { Env.unset with noFixup := true })).any (fun m =>
        decide ((m.regs 0).tag = true ∧ (m.regs 0).address = 2 ^ 30 + 32 ∧
          m.mem lockSlot = .value
            { Allocator.objectCap Arena.small (2 ^ 30) 32 with tag := false } ∧
          ftFind m.table (2 ^ 30) = some (2 ^ 30 + 32, 32) ∧
          ftFind m.table (2 ^ 30 + 32) = none)) = true)
  simp only [decide_eq_true_eq] at checked
  obtain ⟨tagged, address, entry, linked, ended⟩ := checked
  refine ⟨m, runs_perform ran, tagged, ?_, reached_caught m.mem, ?_, ?_⟩
  · rw [address]
    exact ended
  · have missed : ldr m.mem lockSlot ≠ 2 ^ 30 + 32 := by
      simp only [ldr, entry]
      decide
    have top : (caught m.mem).initialSp.address = 2096928 := rfl
    have bottom : (caught m.mem).initialSpSlot = 2096960 := rfl
    rw [address, top, bottom, exitSearch, if_neg (by decide)]
    rw [show 2096928 + Code.small.objOffset = lockSlot from rfl, if_neg missed]
    rfl
  · refine ⟨0, _, Nat.one_pos, entry, by decide, 2 ^ 30 + 32, ?_, ?_⟩
    · exact ⟨Leads.single linked, ended⟩
    · rw [address]
      exact ⟨.refl _, ended⟩

/-- With root fixup the entry follows the object and is found. -/
theorem monitor_search_iff_fixed :
    ∃ m, Runs Arena.small Machine.boot m ∧
      ∃ k found, (∀ fuel, k < fuel → exitSearch Code.small m.mem
          (caught m.mem).initialSpSlot (m.regs 0).address fuel
          (caught m.mem).initialSp.address = some found) ∧
        (found ≠ none ↔ Denoted Code.small m
          (caught m.mem).initialSp.address k (m.regs 0)) := by
  obtain ⟨m, ran, checked⟩ := (Option.any_eq_true _ _).mp (by decide +kernel :
    (perform Arena.small Machine.boot (lockAndMove Env.unset)).any (fun m =>
      decide ((m.regs 0).address = 2 ^ 30 + 32 ∧
        m.mem lockSlot = .value
          (Allocator.objectCap Arena.small (2 ^ 30 + 32) 32))) = true)
  simp only [decide_eq_true_eq] at checked
  obtain ⟨address, entry⟩ := checked
  have nonnull : (m.regs 0).address ≠ 0 := by
    rw [address]
    decide
  obtain ⟨k, found, _, _, block, exits, _, exact, _⟩ :=
    monitor_search_iff Intrinsics.exact_laws (runs_perform ran)
      (reached_caught m.mem) rfl nonnull
  refine ⟨m, runs_perform ran, k, found, exits, exact.mpr fun _ => ?_⟩
  have single : k = 1 := by
    have apart : 2096928 + k * 32 = 2096960 := block
    omega
  subst single
  exact ⟨0, _, Nat.one_pos, entry, address.symm⟩

end Interpreter

end StoplessGC
