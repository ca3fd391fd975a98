import StoplessGC.MetaspaceCommit

/-!
# The raw size of a metaspace allocation

A request in words is converted to bytes, rounded and converted back.  The two
conversions have different word sizes, so that nothing comes back as it was.
-/

namespace StoplessGC

namespace Metaspace

/-- What stands between the conversions. -/
structure Rounding where
  /-- The size of an item in the list of deallocated blocks. -/
  minBlockBytes : Nat
  alignment : Nat
  /-- The prefix of guarded allocations, if there is one. -/
  prefixBytes : Nat
  positive : 0 < minBlockBytes
  aligned : 0 < alignment
  small : minBlockBytes + alignment + prefixBytes < 2 ^ 32

namespace Rounding

/-- `align_up` of a `size_t`. -/
def alignUp (rounding : Rounding) (n : Nat) : Nat :=
  (n + (rounding.alignment - 1)) % addressSpace / rounding.alignment *
    rounding.alignment

/-- `byte_size` before it is converted back. -/
def byteSize (rounding : Rounding) (wordSize : Nat) : Nat :=
  let byteSize := wordSize * sizeofMetaWord % addressSpace
  let byteSize := rounding.alignUp (max byteSize rounding.minBlockBytes)
  (byteSize + rounding.prefixBytes) % addressSpace

/-- `get_raw_word_size_for_requested_word_size` -/
def getRawWordSizeForRequestedWordSize (rounding : Rounding)
    (wordSize : Nat) : Nat :=
  rounding.byteSize wordSize / bytesPerWord

/-- The raw words are those of the byte size. -/
structure Exact (rounding : Rounding) (wordSize : Nat) : Prop where
  sanity : rounding.getRawWordSizeForRequestedWordSize wordSize *
    sizeofMetaWord % addressSpace = rounding.byteSize wordSize
  enough : wordSize ≤ rounding.getRawWordSizeForRequestedWordSize wordSize
  needed : rounding.getRawWordSizeForRequestedWordSize wordSize ≤
    (rounding.byteSize wordSize + sizeofMetaWord - 1) / sizeofMetaWord

variable (rounding : Rounding)

theorem byteSize_lt (wordSize : Nat) :
    rounding.byteSize wordSize < addressSpace :=
  Nat.mod_lt _ (by decide)

theorem byteSize_zero_pos : 0 < rounding.byteSize 0 := by
  have positive := rounding.positive
  have aligned := rounding.aligned
  have small := rounding.small
  have space : 2 ^ 33 < addressSpace := by decide
  have raised : max (0 * sizeofMetaWord % addressSpace) rounding.minBlockBytes =
      rounding.minBlockBytes := by simp
  have below : rounding.minBlockBytes + (rounding.alignment - 1) <
      addressSpace := by omega
  have least : rounding.alignment ≤ rounding.alignUp rounding.minBlockBytes := by
    rw [alignUp, Nat.mod_eq_of_lt below]
    have one : 1 ≤ (rounding.minBlockBytes + (rounding.alignment - 1)) /
        rounding.alignment := (Nat.one_le_div_iff aligned).mpr (by omega)
    exact Nat.le_mul_of_pos_left _ one
  have most : rounding.alignUp rounding.minBlockBytes ≤
      rounding.minBlockBytes + (rounding.alignment - 1) := by
    rw [alignUp, Nat.mod_eq_of_lt below]
    exact Nat.div_mul_le_self ..
  simp only [byteSize]
  rw [raised, Nat.mod_eq_of_lt (by omega)]
  omega

/-- Converting there and back keeps only the size zero. -/
theorem byteSize_eq_zero {wordSize : Nat}
    (sanity : rounding.getRawWordSizeForRequestedWordSize wordSize *
      sizeofMetaWord % addressSpace = rounding.byteSize wordSize) :
    rounding.byteSize wordSize = 0 := by
  have below := rounding.byteSize_lt wordSize
  rw [getRawWordSizeForRequestedWordSize, bytesPerWord, sizeofMetaWord] at sanity
  rw [addressSpace] at sanity below
  omega

/-- The rounding of a build without guards, with blocks of two words. -/
def plain : Rounding where
  minBlockBytes := 16
  alignment := 8
  prefixBytes := 0
  positive := by decide
  aligned := by decide
  small := by decide

/-- The word sizes differ by a factor of two, and therefore no request comes
back as its byte size: the assertion holds of no block, and the empty block
holds no request. -/
theorem raw_size_never_exact (wordSize : Nat) : ¬ rounding.Exact wordSize := by
  intro exact
  have nothing := rounding.byteSize_eq_zero exact.sanity
  have enough := exact.enough
  rw [getRawWordSizeForRequestedWordSize, nothing, Nat.zero_div] at enough
  have empty : wordSize = 0 := by omega
  rw [empty] at nothing
  have positive := rounding.byteSize_zero_pos
  omega

/-- Two words are 32 bytes, and 32 bytes are four words. -/
theorem raw_size_of_two_words :
    2 * sizeofMetaWord < addressSpace ∧
      plain.byteSize 2 = 32 ∧
      plain.getRawWordSizeForRequestedWordSize 2 = 4 ∧
      ¬ plain.Exact 2 := by
  refine ⟨by decide, by decide, by decide, ?_⟩
  intro exact
  exact absurd exact.sanity (by decide)

end Rounding

end Metaspace

end StoplessGC
