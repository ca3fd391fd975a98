import StoplessGC.Mutator

/-!
# Array copies on purecap

`copy_bsd_aarch64.hpp` sends every copy to `memmove`.  The element count is
scaled to bytes: the `pd_conjoint_*_atomic` functions use the size of their
element, the `pd_arrayof_conjoint_*` functions all use that of a heap word.

Memory is an array of bytes here.  A copy that leaves the bounds of one of its
two pointers faults and returns nothing.
-/

namespace StoplessGC

namespace ArrayCopy

abbrev Memory := Nat → UInt8

/-- `n` bytes from the address of `c` are within its bounds. -/
def Accessible (c : Cap) (n : Nat) : Prop :=
  0 < n → c.tag = true ∧ c.base ≤ c.address ∧
    c.address + n ≤ c.base + c.length

instance (c : Cap) (n : Nat) : Decidable (Accessible c n) :=
  inferInstanceAs (Decidable (0 < n → _))

/-- The bytes at `src` as they were, written at `dst`. -/
def moveBytes (mem : Memory) (dst src n : Nat) : Memory := fun p =>
  if dst ≤ p ∧ p < dst + n then mem (src + (p - dst)) else mem p

/-- `memmove`; `none` is a capability fault. -/
def memmove (mem : Memory) (dst src : Cap) (n : Nat) : Option Memory :=
  if Accessible src n ∧ Accessible dst n then
    some (moveBytes mem dst.address src.address n)
  else none

inductive Element where
  | jbyte
  | jshort
  | jint
  | jlong
  | oop
deriving DecidableEq, Repr

/-- `sizeof` the element type on purecap. -/
def Element.size : Element → Nat
  | .jbyte => 1
  | .jshort => 2
  | .jint => 4
  | .jlong => 8
  | .oop => 16

/-- `memmove(to, from, count * unit)`, the product in `size_t`. -/
def conjoint (unit : Nat) (mem : Memory) (src dst : Cap) (count : Nat) :
    Option Memory :=
  memmove mem dst src (count * unit % addressSpace)

def pdConjointJshortsAtomic := conjoint Element.jshort.size
def pdConjointJintsAtomic := conjoint Element.jint.size
def pdConjointJlongsAtomic := conjoint Element.jlong.size
def pdConjointOopsAtomic := conjoint Element.oop.size

def pdArrayofConjointBytes := conjoint heapWordSize
def pdArrayofConjointJshorts := conjoint heapWordSize
def pdArrayofConjointJints := conjoint heapWordSize
def pdArrayofConjointJlongs := conjoint heapWordSize
def pdArrayofConjointOops := conjoint heapWordSize

/-- The array copy for elements of a type. -/
def arrayofConjoint : Element → Memory → Cap → Cap → Nat → Option Memory
  | .jbyte => pdArrayofConjointBytes
  | .jshort => pdArrayofConjointJshorts
  | .jint => pdArrayofConjointJints
  | .jlong => pdArrayofConjointJlongs
  | .oop => pdArrayofConjointOops

/-- The copy returns with exactly `n` bytes moved. -/
def CopiesExactly (mem : Memory) (src dst n : Nat) (result : Option Memory) :
    Prop :=
  ∃ mem', result = some mem' ∧
    (∀ i, i < n → mem' (dst + i) = mem (src + i)) ∧
    ∀ p, p < dst ∨ dst + n ≤ p → mem' p = mem p

/-- The bytes that one of two moves from the same place writes and the other
does not are the same at the source and at the destination. -/
def Agree (mem : Memory) (src dst n m : Nat) : Prop :=
  ∀ i, min n m ≤ i → i < max n m → mem (src + i) = mem (dst + i)

theorem moveBytes_inside (mem : Memory) (dst src : Nat) {n i : Nat}
    (inside : i < n) : moveBytes mem dst src n (dst + i) = mem (src + i) := by
  rw [moveBytes, if_pos (by omega), Nat.add_sub_cancel_left]

theorem moveBytes_outside (mem : Memory) (dst src : Nat) {n p : Nat}
    (outside : p < dst ∨ dst + n ≤ p) : moveBytes mem dst src n p = mem p := by
  rw [moveBytes, if_neg (by omega)]

/-- A move of `m` bytes is one of `n` bytes exactly when the bytes in which
they differ are in place already. -/
theorem moveBytes_exact_iff (mem : Memory) (src dst n m : Nat) :
    CopiesExactly mem src dst n (some (moveBytes mem dst src m)) ↔
      Agree mem src dst n m := by
  constructor
  · rintro ⟨_, same, copied, frame⟩ i lower upper
    cases same
    rcases Nat.lt_or_ge i m with moved | kept
    · have untouched := frame (dst + i) (.inr (by omega))
      rw [moveBytes_inside mem dst src moved] at untouched
      exact untouched
    · have wanted := copied i (by omega)
      rw [moveBytes_outside mem dst src (.inr (by omega))] at wanted
      exact wanted.symm
  · intro agree
    refine ⟨_, rfl, ?_, ?_⟩
    · intro i wanted
      rcases Nat.lt_or_ge i m with moved | kept
      · exact moveBytes_inside mem dst src moved
      · rw [moveBytes_outside mem dst src (.inr (by omega))]
        exact (agree i (by omega) (by omega)).symm
    · intro p outside
      by_cases moved : dst ≤ p ∧ p < dst + m
      · have place : dst + (p - dst) = p := by omega
        have stays := agree (p - dst) (by omega) (by omega)
        rw [place] at stays
        rw [moveBytes, if_pos moved, stays]
      · exact moveBytes_outside mem dst src (by omega)

theorem conjoint_exact_iff (unit : Nat) (mem : Memory) (src dst : Cap)
    (count n : Nat) :
    CopiesExactly mem src.address dst.address n
        (conjoint unit mem src dst count) ↔
      Accessible src (count * unit % addressSpace) ∧
        Accessible dst (count * unit % addressSpace) ∧
        Agree mem src.address dst.address n (count * unit % addressSpace) := by
  unfold conjoint memmove
  split
  · rename_i accessible
    rw [moveBytes_exact_iff]
    exact ⟨fun agree => ⟨accessible.1, accessible.2, agree⟩,
      fun all => all.2.2⟩
  · rename_i faults
    constructor
    · rintro ⟨_, returned, _⟩
      cases returned
    · rintro ⟨readable, writable, _⟩
      exact absurd ⟨readable, writable⟩ faults

theorem arrayofConjoint_eq (e : Element) :
    arrayofConjoint e = conjoint heapWordSize := by
  cases e <;> rfl

/-- When an array copy moves exactly `count` elements. -/
theorem arrayofConjoint_exact_iff (e : Element) (mem : Memory)
    (src dst : Cap) (count : Nat) :
    CopiesExactly mem src.address dst.address (count * e.size)
        (arrayofConjoint e mem src dst count) ↔
      Accessible src (count * heapWordSize % addressSpace) ∧
        Accessible dst (count * heapWordSize % addressSpace) ∧
        Agree mem src.address dst.address (count * e.size)
          (count * heapWordSize % addressSpace) := by
  rw [arrayofConjoint_eq]
  exact conjoint_exact_iff ..

/-- One byte copied over zeros, between buffers of 64 bytes. -/
def ones (p : Nat) : UInt8 := if p < 8192 then 1 else 0

def buffer (start : Nat) : Cap :=
  { tag := true
    base := start
    length := 64
    address := start
    perms := { swVmem := false, rest := 1 } }

/-- The copy of a single byte overwrites the fifteen bytes behind it. -/
theorem pdArrayofConjointBytes_overruns :
    Accessible (buffer 4096) 1 ∧ Accessible (buffer 8192) 1 ∧
      (pdArrayofConjointBytes ones (buffer 4096) (buffer 8192) 1).map
        (fun mem => mem 8193) = some 1 ∧
      ones 8193 = 0 ∧
      ¬ CopiesExactly ones 4096 8192 (1 * Element.jbyte.size)
        (pdArrayofConjointBytes ones (buffer 4096) (buffer 8192) 1) := by
  refine ⟨by decide, by decide, by decide, by decide, ?_⟩
  rintro ⟨mem', returned, _, frame⟩
  have moved : (pdArrayofConjointBytes ones (buffer 4096) (buffer 8192) 1).map
      (fun mem => mem 8193) = some 1 := by decide
  rw [returned, Option.map_some, frame 8193 (.inr (by decide))] at moved
  exact absurd moved (by decide)

end ArrayCopy

end StoplessGC
