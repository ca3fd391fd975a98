import Mathlib.Data.List.Basic
import Mathlib.Logic.Function.Basic

/-!
# Lists in memory

Memory is a function from addresses to values.  `Stored mem stride a xs` says
that the elements of `xs` are at `a`, `a + stride` and so on.  `moveDown` is a
copy in ascending order from `distance` addresses above: the two areas may
overlap, for an element is overwritten only after it has been moved.
-/

namespace StoredList

variable {α : Type*}

def Stored (mem : Nat → α) (stride a : Nat) (xs : List α) : Prop :=
  ∀ i x, xs[i]? = some x → mem (a + stride * i) = x

variable {mem mem' : Nat → α} {stride a : Nat} {xs : List α} {x : α}

theorem Stored.nil : Stored mem stride a [] := by
  intro i x found
  simp at found

theorem stored_cons_iff :
    Stored mem stride a (x :: xs) ↔
      mem a = x ∧ Stored mem stride (a + stride) xs := by
  constructor
  · intro stored
    refine ⟨stored 0 x rfl, ?_⟩
    intro i y found
    have next := stored (i + 1) y found
    rwa [Nat.mul_succ, Nat.add_comm (stride * i), ← Nat.add_assoc] at next
  · rintro ⟨first, rest⟩ i y found
    cases i with
    | zero =>
        cases found
        exact first
    | succ i =>
        rw [Nat.mul_succ, Nat.add_comm (stride * i), ← Nat.add_assoc]
        exact rest i y found

theorem Stored.append {ys : List α} (stored : Stored mem stride a xs)
    (rest : Stored mem stride (a + stride * xs.length) ys) :
    Stored mem stride a (xs ++ ys) := by
  induction xs generalizing a with
  | nil => exact rest
  | cons x xs ih =>
      obtain ⟨first, others⟩ := stored_cons_iff.mp stored
      rw [List.length_cons, Nat.mul_succ, Nat.add_comm (stride * xs.length),
        ← Nat.add_assoc] at rest
      exact stored_cons_iff.mpr ⟨first, ih others rest⟩

theorem Stored.take (stored : Stored mem stride a xs) (n : Nat) :
    Stored mem stride a (xs.take n) := by
  intro i x found
  rw [List.getElem?_take] at found
  exact stored i x (Option.ite_none_right_eq_some.mp found).2

theorem Stored.congr (stored : Stored mem stride a xs)
    (same : ∀ i, i < xs.length → mem' (a + stride * i) = mem (a + stride * i)) :
    Stored mem' stride a xs := by
  intro i y found
  obtain ⟨below, -⟩ := List.getElem?_eq_some_iff.mp found
  rw [same i below]
  exact stored i y found

theorem Stored.update_outside (stored : Stored mem stride a xs) {b : Nat}
    (outside : b < a ∨ a + stride * xs.length ≤ b) (positive : 0 < stride)
    (v : α) : Stored (Function.update mem b v) stride a xs := by
  refine stored.congr ?_
  intro i below
  have inside : stride * i < stride * xs.length :=
    Nat.mul_lt_mul_of_pos_left below positive
  rw [Function.update_of_ne (by omega)]

theorem Stored.update_set (stored : Stored mem stride a xs)
    (positive : 0 < stride) (i : Nat) (v : α) :
    Stored (Function.update mem (a + stride * i) v) stride a (xs.set i v) := by
  intro j y found
  by_cases here : j = i
  · subst here
    rw [List.getElem?_set_self'] at found
    obtain ⟨-, -, rfl⟩ := Option.map_eq_some_iff.mp found
    rw [Function.update_self]
    rfl
  · rw [List.getElem?_set_ne (Ne.symm here)] at found
    have apart : a + stride * j ≠ a + stride * i := by
      intro same
      exact here (Nat.eq_of_mul_eq_mul_left positive (Nat.add_left_cancel same))
    rw [Function.update_of_ne apart]
    exact stored j y found

theorem Stored.drop (stored : Stored mem stride a xs) (n : Nat) :
    Stored mem stride (a + stride * n) (xs.drop n) := by
  intro i y found
  rw [List.getElem?_drop] at found
  rw [Nat.add_assoc, ← Nat.mul_add]
  exact stored (n + i) y found

/-- What is there is a list of any length. -/
theorem exists_stored (mem : Nat → α) (stride a n : Nat) :
    ∃ xs : List α, xs.length = n ∧ Stored mem stride a xs := by
  induction n generalizing a with
  | zero => exact ⟨[], rfl, .nil⟩
  | succ n ih =>
      obtain ⟨xs, length, stored⟩ := ih (a + stride)
      exact ⟨mem a :: xs, congrArg (· + 1) length,
        stored_cons_iff.mpr ⟨rfl, stored⟩⟩

/-- `n` elements moved to `p` and up. -/
def moveDown (stride distance : Nat) : Nat → Nat → (Nat → α) → Nat → α
  | 0, _, mem => mem
  | n + 1, p, mem =>
      moveDown stride distance n (p + stride)
        (Function.update mem p (mem (p + distance)))

variable {distance : Nat}

theorem moveDown_outside (positive : 0 < stride) {n p b : Nat}
    (outside : b < p ∨ p + stride * n ≤ b) :
    moveDown stride distance n p mem b = mem b := by
  induction n generalizing p mem with
  | zero => rfl
  | succ n ih =>
      have size : stride * (n + 1) = stride * n + stride := Nat.mul_succ _ _
      rw [moveDown, ih (by omega), Function.update_of_ne (by omega)]

theorem stored_moveDown (positive : 0 < stride) {p : Nat}
    (stored : Stored mem stride (p + distance) xs) :
    Stored (moveDown stride distance xs.length p mem) stride p xs := by
  induction xs generalizing p mem with
  | nil => exact .nil
  | cons x xs ih =>
      obtain ⟨first, rest⟩ := stored_cons_iff.mp stored
      rw [Nat.add_right_comm] at rest
      have kept := rest.update_outside (b := p) (.inl (by omega)) positive x
      rw [List.length_cons, moveDown, first]
      refine stored_cons_iff.mpr ⟨?_, ih kept⟩
      rw [moveDown_outside positive (.inl (by omega)), Function.update_self]

end StoredList
