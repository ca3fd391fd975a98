import StoplessGC.Cheri
import Mathlib.Logic.Function.Basic
import Mathlib.Data.List.FinRange
import Mathlib.Data.Vector.Basic

/-!
# The colour side table

`cap_runtime/side_table.cc` keeps one byte for each eight bytes of the heap and
never rounds the size of the heap up.  A heap that ends inside a granule thus
has no byte for its last few addresses, and the table replays a map from
granules to colours exactly when the size is a whole number of granules.
-/

namespace StoplessGC

namespace SideTable

/-- `stopless_color_t` -/
inductive Color where
  | good
  | marked0
  | marked1
  | remapped
  | finalizable
deriving DecidableEq, Repr

/-- `static_cast<uint8_t>` of a colour. -/
def Color.toByte : Color → UInt8
  | .good => 0
  | .marked0 => 1
  | .marked1 => 2
  | .remapped => 3
  | .finalizable => 4

/-- `static_cast<stopless_color_t>` of a byte, which has no meaning unless the
byte is that of a colour. -/
def Color.ofByte (byte : UInt8) : Option Color :=
  if byte = 0 then some .good
  else if byte = 1 then some .marked0
  else if byte = 2 then some .marked1
  else if byte = 3 then some .remapped
  else if byte = 4 then some .finalizable
  else none

@[simp] theorem Color.ofByte_toByte (color : Color) :
    Color.ofByte color.toByte = some color := by
  cases color <;> rfl

theorem Color.toByte_injective : Function.Injective Color.toByte := by
  intro first second same
  have read := congrArg Color.ofByte same
  simpa using read

/-- `OBJ_ALIGN_LOG2` and `TABLE_SHIFT` -/
def tableShift : Nat := 3

/-- The object-alignment unit in bytes. -/
abbrev granule : Nat := 8

end SideTable

open SideTable (Color tableShift granule)

/-- `SideTable`; the array has `entries_` bytes. -/
structure SideTable where
  entries : Nat
  table : Vector UInt8 entries
  heapBase : Nat

namespace SideTable

/-- The constructor. -/
def create (heapBytes : Nat) : SideTable :=
  { entries := heapBytes >>> tableShift
    table := Vector.replicate (heapBytes >>> tableShift) 0
    heapBase := 0 }

/-- `load` -/
def load (t : SideTable) (cap : Cap) : Option Color :=
  if cap.address < t.heapBase then some .good
  else
    let idx := (cap.address - t.heapBase) >>> tableShift
    if inside : idx < t.entries then Color.ofByte t.table[idx]
    else some .good

/-- `store` -/
def store (t : SideTable) (cap : Cap) (color : Color) : SideTable :=
  if cap.address < t.heapBase then t
  else
    let idx := (cap.address - t.heapBase) >>> tableShift
    if inside : idx < t.entries then
      { t with table := t.table.set idx color.toByte }
    else t

/-- `compare_exchange_strong` on one entry. -/
def compareExchange {entries : Nat} (expected desired : UInt8)
    (table : Vector UInt8 entries) (i : Fin entries) : Vector UInt8 entries :=
  if table[i] = expected then table.set i desired else table

/-- `flip_region`; the region is not looked at. -/
def flipRegion (t : SideTable) (source target : Color) : SideTable :=
  { t with
    table :=
      (List.finRange t.entries).foldl
        (compareExchange source.toByte target.toByte) t.table }

/-- A mutating call on the table.  A region is a pointer, here its address. -/
inductive Call where
  | store (cap : Cap) (color : Color)
  | flipRegion (region : Nat) (source target : Color)

def apply (t : SideTable) : Call → SideTable
  | .store cap color => t.store cap color
  | .flipRegion _ source target => t.flipRegion source target

/-- A sequence of calls. -/
def run (t : SideTable) (calls : List Call) : SideTable :=
  calls.foldl apply t

/-! ## The abstract map -/

/-- One colour for each granule. -/
abbrev ColorMap := Nat → Color

namespace ColorMap

/-- The map of a new heap. -/
def initial : ColorMap := fun _ => .good

/-- A store to an address outside the heap is dropped. -/
def store (limit : Nat) (colors : ColorMap) (address : Nat) (color : Color) :
    ColorMap :=
  if address < limit then Function.update colors (address / granule) color
  else colors

def flip (colors : ColorMap) (source target : Color) : ColorMap :=
  fun i => if colors i = source then target else colors i

def apply (limit : Nat) (colors : ColorMap) : Call → ColorMap
  | .store cap color => colors.store limit cap.address color
  | .flipRegion _ source target => colors.flip source target

/-- The calls replayed on the map of a new heap of `limit` bytes. -/
def replay (limit : Nat) (calls : List Call) : ColorMap :=
  calls.foldl (apply limit) initial

/-- The colour at an address of a heap of `limit` bytes. -/
def load (limit : Nat) (colors : ColorMap) (address : Nat) : Color :=
  if address < limit then colors (address / granule) else .good

end ColorMap

/-- What the table of a heap of this size is for: every load reads the map that
the calls so far have written, and calls at or beyond the end of the heap
change nothing. -/
structure RefinesColorMap (heapBytes : Nat) : Prop where
  load : ∀ (calls : List Call) (cap : Cap),
    ((create heapBytes).run calls).load cap =
      some ((ColorMap.replay heapBytes calls).load heapBytes cap.address)
  store : ∀ (calls : List Call) (cap : Cap) (color : Color),
    heapBytes ≤ cap.address →
      ((create heapBytes).run calls).store cap color =
        (create heapBytes).run calls

/-! ## The table represents the map -/

theorem shift_eq (n : Nat) : n >>> tableShift = n / granule :=
  Nat.shiftRight_eq_div_pow n 3

/-- Each byte is that of the colour of its granule. -/
structure Represents (entries : Nat) (t : SideTable) (colors : ColorMap) :
    Prop where
  heapBase : t.heapBase = 0
  entries : t.entries = entries
  byte : ∀ (i : Nat) (inside : i < t.entries), t.table[i] = (colors i).toByte

theorem represents_create (heapBytes : Nat) :
    Represents (heapBytes / granule) (create heapBytes) ColorMap.initial where
  heapBase := rfl
  entries := shift_eq heapBytes
  byte := fun i inside => by
    simp only [create, Vector.getElem_replicate]
    rfl

/-- An address lies below the end of the last whole granule exactly when its
granule has a byte. -/
theorem Represents.idx_lt_iff {entries : Nat} {t : SideTable}
    {colors : ColorMap} (represents : Represents entries t colors)
    (address : Nat) :
    address / granule < t.entries ↔ address < granule * entries := by
  rw [represents.entries, Nat.div_lt_iff_lt_mul (by decide), Nat.mul_comm]

theorem Represents.load_eq {entries : Nat} {t : SideTable} {colors : ColorMap}
    (represents : Represents entries t colors) (cap : Cap) :
    t.load cap =
      some (colors.load (granule * entries) cap.address) := by
  have inTable := represents.idx_lt_iff cap.address
  by_cases inside : cap.address < granule * entries
  · have inTable := inTable.mpr inside
    simp [SideTable.load, ColorMap.load, represents.heapBase, shift_eq,
      inTable, inside, represents.byte _ inTable]
  · have outside := mt inTable.mp inside
    simp [SideTable.load, ColorMap.load, represents.heapBase, shift_eq,
      outside, inside]

/-- A store beyond the last whole granule is dropped. -/
theorem Represents.store_outside {entries : Nat} {t : SideTable}
    {colors : ColorMap} (represents : Represents entries t colors) {cap : Cap}
    (beyond : granule * entries ≤ cap.address) (color : Color) :
    t.store cap color = t := by
  have outside := mt (represents.idx_lt_iff cap.address).mp
    (Nat.not_lt.mpr beyond)
  simp [SideTable.store, represents.heapBase, shift_eq, outside]

theorem Represents.store {entries : Nat} {t : SideTable} {colors : ColorMap}
    (represents : Represents entries t colors) (cap : Cap) (color : Color) :
    Represents entries (t.store cap color)
      (colors.store (granule * entries) cap.address color) := by
  by_cases inside : cap.address < granule * entries
  · have inTable := (represents.idx_lt_iff cap.address).mpr inside
    have stored : t.store cap color =
        { t with
          table := t.table.set (cap.address / granule) color.toByte } := by
      simp [SideTable.store, represents.heapBase, shift_eq, inTable]
    rw [stored, ColorMap.store, if_pos inside]
    refine ⟨represents.heapBase, represents.entries, ?_⟩
    intro i inside
    by_cases same : i = cap.address / granule
    · subst same
      simp
    · have other : cap.address / granule ≠ i := fun eq => same eq.symm
      simp [other, same, represents.byte i inside]
  · rw [represents.store_outside (Nat.not_lt.mp inside), ColorMap.store,
      if_neg inside]
    exact represents

theorem compareExchange_get {entries : Nat} (expected desired : UInt8)
    (table : Vector UInt8 entries) (i : Fin entries) (j : Nat)
    (inside : j < entries) :
    (compareExchange expected desired table i)[j] =
      if j = i ∧ table[j] = expected then desired else table[j] := by
  unfold compareExchange
  by_cases same : j = i
  · subst same
    by_cases hit : table[i] = expected <;> simp_all
  · have other : (i : Nat) ≠ j := fun eq => same eq.symm
    split <;> simp [other, same]

/-- The loop visits an entry once, so a colour that it has written is not
exchanged again. -/
theorem foldl_compareExchange_get {entries : Nat} (expected desired : UInt8)
    (visited : List (Fin entries)) (distinct : visited.Nodup)
    (table : Vector UInt8 entries) (j : Fin entries) :
    (visited.foldl (compareExchange expected desired) table)[(j : Nat)] =
      if j ∈ visited ∧ table[(j : Nat)] = expected then desired
      else table[(j : Nat)] := by
  induction visited generalizing table with
  | nil => simp
  | cons i visited induction =>
      obtain ⟨fresh, distinct⟩ := List.nodup_cons.mp distinct
      rw [List.foldl_cons, induction distinct,
        compareExchange_get expected desired table i j j.isLt]
      by_cases same : j = i
      · subst same
        simp [fresh]
      · have other : (j : Nat) ≠ i := fun eq => same (Fin.ext eq)
        simp [same, other]

theorem Represents.flipRegion {entries : Nat} {t : SideTable}
    {colors : ColorMap} (represents : Represents entries t colors)
    (source target : Color) :
    Represents entries (t.flipRegion source target)
      (colors.flip source target) := by
  refine ⟨represents.heapBase, represents.entries, ?_⟩
  intro i inside
  have byte := represents.byte i inside
  have visited := foldl_compareExchange_get source.toByte target.toByte
    (List.finRange t.entries) (List.nodup_finRange _) t.table ⟨i, inside⟩
  simp only [List.mem_finRange, true_and] at visited
  have flipped : (t.flipRegion source target).table[i] =
      if t.table[i] = source.toByte then target.toByte else t.table[i] :=
    visited
  rw [flipped, byte]
  by_cases hit : colors i = source
  · simp [ColorMap.flip, hit]
  · have other : (colors i).toByte ≠ source.toByte :=
      fun same => hit (Color.toByte_injective same)
    simp [ColorMap.flip, hit, other]

theorem Represents.apply {entries : Nat} {t : SideTable} {colors : ColorMap}
    (represents : Represents entries t colors) (call : Call) :
    Represents entries (t.apply call)
      (colors.apply (granule * entries) call) := by
  cases call with
  | store cap color => exact represents.store cap color
  | flipRegion region source target =>
      exact represents.flipRegion source target

theorem Represents.run {entries : Nat} (calls : List Call) :
    ∀ {t : SideTable} {colors : ColorMap}, Represents entries t colors →
      Represents entries (t.run calls)
        (calls.foldl (ColorMap.apply (granule * entries)) colors) := by
  induction calls with
  | nil => exact fun represents => represents
  | cons call calls induction =>
      exact fun represents => induction (represents.apply call)

theorem represents_run (heapBytes : Nat) (calls : List Call) :
    Represents (heapBytes / granule) ((create heapBytes).run calls)
      (ColorMap.replay (granule * (heapBytes / granule)) calls) :=
  (represents_create heapBytes).run calls

/-! ## The last granule -/

/-- The first address after the last whole granule. -/
def tailStore (heapBytes : Nat) : Cap :=
  Cap.ofInt (granule * (heapBytes / granule))

/-- A colour stored in a granule that the heap covers only in part is lost. -/
theorem load_tailStore (heapBytes : Nat) (color : Color) :
    ((create heapBytes).run [.store (tailStore heapBytes) color]).load
      (tailStore heapBytes) = some .good := by
  have represents :=
    represents_run heapBytes [.store (tailStore heapBytes) color]
  rw [represents.load_eq, ColorMap.load]
  simp [tailStore]

/-- The table refines the map for exactly the heaps of whole granules. -/
theorem refinesColorMap_iff (heapBytes : Nat) :
    RefinesColorMap heapBytes ↔ granule ∣ heapBytes := by
  constructor
  · intro refines
    by_contra partialGranule
    have remainder : granule * (heapBytes / granule) < heapBytes :=
      Nat.lt_of_le_of_ne (Nat.mul_div_le _ _)
        (fun size => partialGranule ⟨_, size.symm⟩)
    have lost := load_tailStore heapBytes .marked0
    rw [refines.load] at lost
    simp [ColorMap.load, ColorMap.replay, ColorMap.apply, ColorMap.store,
      tailStore, remainder] at lost
  · intro whole
    have size : granule * (heapBytes / granule) = heapBytes :=
      Nat.mul_div_cancel' whole
    constructor
    · intro calls cap
      have represents := represents_run heapBytes calls
      rw [size] at represents
      rw [represents.load_eq, size]
    · intro calls cap color beyond
      refine (represents_run heapBytes calls).store_outside ?_ color
      rw [size]
      exact beyond

/-- A heap of twelve bytes: its second granule has no byte. -/
theorem refinesColorMap_twelve : ¬ RefinesColorMap 12 := by
  intro refines
  have read := refines.load [.store (Cap.ofInt 8) .marked0] (Cap.ofInt 8)
  have lost : ((create 12).run [.store (Cap.ofInt 8) .marked0]).load
      (Cap.ofInt 8) = some .good := by
    rfl
  rw [lost] at read
  exact absurd read (by decide)

end SideTable

end StoplessGC
