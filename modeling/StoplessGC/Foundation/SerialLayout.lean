import StoplessGC.Foundation.Alignment
import Mathlib.Data.List.Forall2

/-!
# Aligned items one behind the other

`place` puts each item at the first multiple of its alignment behind the one
before.  No other placement in this order has an item lower.
-/

namespace SerialLayout

open Alignment

structure Item where
  align : Nat
  size : Nat
  positive : 0 < align

/-- The offsets of the items from `x` on. -/
def place : Nat → List Item → List Nat
  | _, [] => []
  | x, item :: items =>
      up item.align x :: place (up item.align x + item.size) items

/-- Offsets for the items that are aligned and in order. -/
inductive Placement : Nat → List Item → List Nat → Prop where
  | nil (x : Nat) : Placement x [] []
  | cons {x offset : Nat} {item : Item} {items : List Item}
      {offsets : List Nat} (above : x ≤ offset) (aligned : item.align ∣ offset)
      (rest : Placement (offset + item.size) items offsets) :
      Placement x (item :: items) (offset :: offsets)

theorem place_placement (x : Nat) (items : List Item) :
    Placement x items (place x items) := by
  induction items generalizing x with
  | nil => exact .nil x
  | cons item items ih =>
      exact .cons (le_up item.positive x) (dvd_up _ _) (ih _)

/-- No placement is lower. -/
theorem place_least {x y : Nat} {items : List Item} {offsets : List Nat}
    (below : x ≤ y) (placement : Placement y items offsets) :
    List.Forall₂ (· ≤ ·) (place x items) offsets := by
  induction placement generalizing x with
  | nil => exact .nil
  | @cons y offset item items offsets above aligned rest ih =>
      have first : up item.align x ≤ offset :=
        up_le_of_dvd item.positive (below.trans above) aligned
      exact .cons first (ih (Nat.add_le_add_right first _))

namespace Placement

variable {x : Nat} {items : List Item} {offsets : List Nat}

theorem length_eq (placement : Placement x items offsets) :
    offsets.length = items.length := by
  induction placement with
  | nil => rfl
  | cons above aligned rest ih =>
      rw [List.length_cons, List.length_cons, ih]

theorem le_offset (placement : Placement x items offsets) {offset : Nat}
    (member : offset ∈ offsets) : x ≤ offset := by
  induction placement with
  | nil => cases member
  | cons above aligned rest ih =>
      rcases List.mem_cons.mp member with rfl | later
      · exact above
      · have next := ih later
        omega

theorem aligned (placement : Placement x items offsets) {k offset : Nat}
    {item : Item} (at_ : offsets[k]? = some offset)
    (here : items[k]? = some item) : item.align ∣ offset := by
  induction placement generalizing k with
  | nil => simp at here
  | cons above aligned rest ih =>
      cases k with
      | zero =>
          cases at_
          cases here
          exact aligned
      | succ k => exact ih at_ here

theorem end_le (placement : Placement x items offsets)
    {j k first second : Nat} {item : Item} (before : j < k)
    (atFirst : offsets[j]? = some first) (here : items[j]? = some item)
    (atSecond : offsets[k]? = some second) : first + item.size ≤ second := by
  induction placement generalizing j k with
  | nil => simp at here
  | cons above aligned rest ih =>
      cases k with
      | zero => cases before
      | succ k =>
          cases j with
          | zero =>
              cases atFirst
              cases here
              exact rest.le_offset (List.mem_of_getElem? atSecond)
          | succ j => exact ih (Nat.lt_of_succ_lt_succ before) atFirst here atSecond

end Placement

/-- Where each alignment divides a common unit, padding does not outgrow one
unit for each item. -/
theorem place_end_le {unit x n : Nat} {items : List Item}
    (fits : ∀ item ∈ items, item.align ∣ unit ∧ item.size ≤ unit)
    (start : x ≤ unit * n) {k offset : Nat} {item : Item}
    (at_ : (place x items)[k]? = some offset) (here : items[k]? = some item) :
    offset + item.size ≤ unit * (n + k + 1) := by
  induction items generalizing x n k with
  | nil => simp at here
  | cons first items ih =>
      obtain ⟨divides, small⟩ := fits first List.mem_cons_self
      have aligned : up first.align x ≤ unit * n :=
        up_le_of_dvd first.positive start (divides.trans (Nat.dvd_mul_right _ _))
      have next : up first.align x + first.size ≤ unit * (n + 1) := by
        rw [Nat.mul_add, Nat.mul_one]
        exact Nat.add_le_add aligned small
      cases k with
      | zero =>
          cases at_
          cases here
          exact next
      | succ k =>
          have rest := ih (fun item member =>
            fits item (List.mem_cons_of_mem _ member)) next at_ here
          rwa [Nat.add_right_comm n 1 k] at rest

end SerialLayout
