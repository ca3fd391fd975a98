import StoplessGC.Cheri
import Mathlib.Data.Finset.Card
import Mathlib.Order.Interval.Finset.Nat

/-!
# The limit on committed metaspace

Metaspace is counted in words of the size of a `MetaWord`.  The check before a
range is committed converts `MaxMetaspaceSize` to words of half that size,
while the commit itself and `MetaspaceGC::can_expand` use the right one.
-/

namespace StoplessGC

namespace Metaspace

/-- `BytesPerWord` -/
def bytesPerWord : Nat := 8

/-- `sizeof(MetaWord)` -/
def sizeofMetaWord : Nat := 16

/-- The counter of the commit limiter and the words that the commit masks mark.
Words are numbered through all nodes. -/
structure Commits where
  cnt : Nat
  mask : Finset Nat

/-- `get_committed_size_in_range`, from a mask, a start and a number of
words. -/
abbrev SizeInRange := Finset Nat → Nat → Nat → Nat

/-- It counts the words that are marked. -/
def SizeInRange.Counts (sizeInRange : SizeInRange) : Prop :=
  ∀ mask p wordSize,
    sizeInRange mask p wordSize = (Finset.Ico p (p + wordSize) ∩ mask).card

namespace Commits

def start : Commits := ⟨0, ∅⟩

/-- `CommitLimiter::possible_expansion_words`, where `allowedExpansion` is what
`MetaspaceGC::allowed_expansion` returns. -/
def possibleExpansionWords (maxMetaspaceSize allowedExpansion : Nat)
    (s : Commits) : Nat :=
  let wordsLeftBelowMax :=
    (maxMetaspaceSize / bytesPerWord + addressSpace - s.cnt) % addressSpace
  min wordsLeftBelowMax allowedExpansion

variable (sizeInRange : SizeInRange)

/-- `commit_increase_words` -/
def increase (s : Commits) (p wordSize : Nat) : Nat :=
  wordSize - sizeInRange s.mask p wordSize

/-- `VirtualSpaceNode::commit_range` -/
def commitRange (maxMetaspaceSize allowedExpansion : Nat) (s : Commits)
    (p wordSize : Nat) : Bool × Commits :=
  let commitIncreaseWords := s.increase sizeInRange p wordSize
  if commitIncreaseWords = 0 then (true, s)
  else if s.possibleExpansionWords maxMetaspaceSize allowedExpansion <
      commitIncreaseWords then (false, s)
  else
    (true,
      { cnt := s.cnt + commitIncreaseWords
        mask := s.mask ∪ Finset.Ico p (p + wordSize) })

/-- `VirtualSpaceNode::uncommit_range` -/
def uncommitRange (s : Commits) (p wordSize : Nat) : Commits :=
  let committedWordsInRange := sizeInRange s.mask p wordSize
  if committedWordsInRange = 0 then s
  else
    { cnt := s.cnt - committedWordsInRange
      mask := s.mask \ Finset.Ico p (p + wordSize) }

/-- What the operating system has committed. -/
def committedBytes (s : Commits) : Nat := s.mask.card * sizeofMetaWord

end Commits

/-- `MetaspaceGC::can_expand`: the limit on all of metaspace. -/
def canExpand (maxMetaspaceSize committedBytes wordSize : Nat) : Bool :=
  !decide (maxMetaspaceSize <
    (committedBytes + wordSize * sizeofMetaWord) % addressSpace)

inductive CommitOp where
  | commit (allowedExpansion p wordSize : Nat)
  | uncommit (p wordSize : Nat)

namespace CommitOp

variable (sizeInRange : SizeInRange) (maxMetaspaceSize : Nat)

def step (s : Commits) : CommitOp → Commits
  | commit allowedExpansion p wordSize =>
      (s.commitRange sizeInRange maxMetaspaceSize allowedExpansion p wordSize).2
  | uncommit p wordSize => s.uncommitRange sizeInRange p wordSize

/-- The check of the limit goes through. -/
def Granted (s : Commits) : CommitOp → Prop
  | commit allowedExpansion p wordSize =>
      s.increase sizeInRange p wordSize ≤
        s.possibleExpansionWords maxMetaspaceSize allowedExpansion
  | uncommit _ _ => False

/-- The words that are requested in addition. -/
def request (s : Commits) : CommitOp → Nat
  | commit _ p wordSize => s.increase sizeInRange p wordSize
  | uncommit _ _ => 0

/-- `P` holds at each step of a run. -/
def Along (P : Commits → CommitOp → Prop) : List CommitOp → Commits → Prop
  | [], _ => True
  | op :: ops, s =>
      P s op ∧ Along P ops (op.step sizeInRange maxMetaspaceSize s)

/-- After the step the committed bytes are within the limit, and the step was
granted only if `can_expand` agrees. -/
structure Enforced (s : Commits) (op : CommitOp) : Prop where
  within :
    (op.step sizeInRange maxMetaspaceSize s).committedBytes ≤ maxMetaspaceSize
  agrees : op.Granted sizeInRange maxMetaspaceSize s →
    canExpand maxMetaspaceSize s.committedBytes (op.request sizeInRange s) =
      true

/-- A granted step asks for no more than is left in words of 16 bytes. -/
def Fits (s : Commits) (op : CommitOp) : Prop :=
  op.Granted sizeInRange maxMetaspaceSize s →
    op.request sizeInRange s ≤ maxMetaspaceSize / sizeofMetaWord - s.cnt

end CommitOp

/-- The counter is right and passes its assertion. -/
structure Counted (maxMetaspaceSize : Nat) (s : Commits) : Prop where
  cnt : s.cnt = s.mask.card
  assertion : s.cnt * bytesPerWord ≤ maxMetaspaceSize

section Steps

variable {sizeInRange : SizeInRange} {maxMetaspaceSize : Nat} {s : Commits}

theorem Counted.start : Counted maxMetaspaceSize .start :=
  ⟨rfl, by rw [Commits.start, Nat.zero_mul]; exact Nat.zero_le _⟩

theorem Commits.card_union (counts : sizeInRange.Counts) (s : Commits)
    (p wordSize : Nat) :
    (s.mask ∪ Finset.Ico p (p + wordSize)).card =
      s.mask.card + s.increase sizeInRange p wordSize := by
  have both := Finset.card_union_add_card_inter (Finset.Ico p (p + wordSize))
    s.mask
  have whole : (Finset.Ico p (p + wordSize)).card = wordSize := by
    rw [Nat.card_Ico, Nat.add_sub_cancel_left]
  have part : (Finset.Ico p (p + wordSize) ∩ s.mask).card ≤
      (Finset.Ico p (p + wordSize)).card :=
    Finset.card_le_card Finset.inter_subset_left
  rw [Finset.union_comm, Commits.increase, counts]
  omega

theorem Commits.card_sdiff (counts : sizeInRange.Counts) (s : Commits)
    (p wordSize : Nat) :
    (s.mask \ Finset.Ico p (p + wordSize)).card =
      s.mask.card - sizeInRange s.mask p wordSize := by
  rw [Finset.card_sdiff, counts]

/-- Nothing wraps around while the assertion holds. -/
theorem Counted.possible_le (counted : Counted maxMetaspaceSize s)
    (word : maxMetaspaceSize < addressSpace) (allowedExpansion : Nat) :
    s.possibleExpansionWords maxMetaspaceSize allowedExpansion ≤
      maxMetaspaceSize / bytesPerWord - s.cnt := by
  have assertion := counted.assertion
  refine (Nat.min_le_left _ _).trans ?_
  unfold bytesPerWord addressSpace at *
  omega

/-- A refused commit changes nothing, and one that goes through adds the words
of its range that were not committed. -/
theorem commit_cases (counts : sizeInRange.Counts) (s : Commits)
    (allowedExpansion p wordSize : Nat) :
    (¬ CommitOp.Granted sizeInRange maxMetaspaceSize s
        (.commit allowedExpansion p wordSize) ∧
      CommitOp.step sizeInRange maxMetaspaceSize s
        (.commit allowedExpansion p wordSize) = s) ∨
    (CommitOp.Granted sizeInRange maxMetaspaceSize s
        (.commit allowedExpansion p wordSize) ∧
      (CommitOp.step sizeInRange maxMetaspaceSize s
        (.commit allowedExpansion p wordSize)).cnt =
          s.cnt + s.increase sizeInRange p wordSize ∧
      (CommitOp.step sizeInRange maxMetaspaceSize s
        (.commit allowedExpansion p wordSize)).mask.card =
          s.mask.card + s.increase sizeInRange p wordSize) := by
  unfold CommitOp.Granted CommitOp.step Commits.commitRange
  by_cases done : s.increase sizeInRange p wordSize = 0
  · simp [done]
  · by_cases refused : s.possibleExpansionWords maxMetaspaceSize
        allowedExpansion < s.increase sizeInRange p wordSize
    · simp [done, refused]
    · right
      simp only [done, if_false, if_neg refused]
      exact ⟨Nat.le_of_not_lt refused, trivial, s.card_union counts p wordSize⟩

theorem uncommit_le (counts : sizeInRange.Counts) (s : Commits)
    (p wordSize : Nat) :
    (s.uncommitRange sizeInRange p wordSize).cnt =
        s.cnt - sizeInRange s.mask p wordSize ∧
      (s.uncommitRange sizeInRange p wordSize).mask.card =
        s.mask.card - sizeInRange s.mask p wordSize := by
  unfold Commits.uncommitRange
  by_cases none : sizeInRange s.mask p wordSize = 0
  · simp [none]
  · simp [none, s.card_sdiff counts]

theorem Counted.step (counts : sizeInRange.Counts)
    (counted : Counted maxMetaspaceSize s)
    (word : maxMetaspaceSize < addressSpace) (op : CommitOp) :
    Counted maxMetaspaceSize (op.step sizeInRange maxMetaspaceSize s) := by
  obtain ⟨cnt, assertion⟩ := counted
  cases op with
  | commit allowedExpansion p wordSize =>
      rcases commit_cases counts s allowedExpansion p wordSize with
        ⟨-, same⟩ | ⟨granted, grown, card⟩
      · rw [same]
        exact ⟨cnt, assertion⟩
      · have possible := granted.trans
          (Counted.possible_le ⟨cnt, assertion⟩ word allowedExpansion)
        refine ⟨by rw [grown, card, cnt], ?_⟩
        rw [grown]
        unfold bytesPerWord at *
        omega
  | uncommit p wordSize =>
      obtain ⟨less, card⟩ := uncommit_le counts s p wordSize
      refine ⟨less.trans (by rw [cnt]; exact card.symm), ?_⟩
      refine le_trans (Nat.mul_le_mul_right _ ?_) assertion
      exact less.trans_le (Nat.sub_le _ _)

theorem canExpand_of_le {committedBytes wordSize : Nat}
    (word : maxMetaspaceSize < addressSpace)
    (fits : committedBytes + wordSize * sizeofMetaWord ≤ maxMetaspaceSize) :
    canExpand maxMetaspaceSize committedBytes wordSize = true := by
  rw [canExpand, Nat.mod_eq_of_lt (Nat.lt_of_le_of_lt fits word),
    decide_eq_false (Nat.not_lt_of_le fits)]
  rfl

theorem Counted.enforced_iff (counts : sizeInRange.Counts)
    (counted : Counted maxMetaspaceSize s)
    (word : maxMetaspaceSize < addressSpace)
    (within : s.committedBytes ≤ maxMetaspaceSize) (op : CommitOp) :
    op.Enforced sizeInRange maxMetaspaceSize s ↔
      op.Fits sizeInRange maxMetaspaceSize s := by
  have cnt := counted.cnt
  cases op with
  | commit allowedExpansion p wordSize =>
      rcases commit_cases counts s allowedExpansion p wordSize with
        ⟨refused, same⟩ | ⟨granted, -, card⟩
      · refine iff_of_true ⟨?_, fun granted => absurd granted refused⟩
          fun granted => absurd granted refused
        rw [same]
        exact within
      · have room : (s.mask.card + s.increase sizeInRange p wordSize) * sizeofMetaWord ≤
              maxMetaspaceSize ↔
            s.increase sizeInRange p wordSize ≤
              maxMetaspaceSize / sizeofMetaWord - s.cnt := by
          unfold Commits.committedBytes sizeofMetaWord at *
          omega
        constructor
        · intro enforced _
          have bytes := enforced.within
          rw [Commits.committedBytes, card] at bytes
          exact room.mp bytes
        · intro fits
          have bytes := room.mpr (fits granted)
          refine ⟨by rw [Commits.committedBytes, card]; exact bytes, ?_⟩
          intro _
          refine canExpand_of_le word ?_
          rw [Commits.committedBytes, ← Nat.add_mul]
          exact bytes
  | uncommit p wordSize =>
      obtain ⟨-, card⟩ := uncommit_le counts s p wordSize
      refine iff_of_true ⟨?_, False.elim⟩ False.elim
      refine le_trans (Nat.mul_le_mul_right _ ?_) within
      exact card.trans_le (Nat.sub_le _ _)

theorem Counted.along_iff (counts : sizeInRange.Counts)
    (counted : Counted maxMetaspaceSize s)
    (word : maxMetaspaceSize < addressSpace)
    (within : s.committedBytes ≤ maxMetaspaceSize) (ops : List CommitOp) :
    CommitOp.Along sizeInRange maxMetaspaceSize
        (CommitOp.Enforced sizeInRange maxMetaspaceSize) ops s ↔
      CommitOp.Along sizeInRange maxMetaspaceSize
        (CommitOp.Fits sizeInRange maxMetaspaceSize) ops s := by
  induction ops generalizing s with
  | nil => exact Iff.rfl
  | cons op ops ih =>
      have first := counted.enforced_iff counts word within op
      constructor
      · rintro ⟨enforced, rest⟩
        exact ⟨first.mp enforced,
          (ih (counted.step counts word op) enforced.within).mp rest⟩
      · rintro ⟨fits, rest⟩
        have enforced := first.mpr fits
        exact ⟨enforced, (ih (counted.step counts word op) enforced.within).mpr rest⟩

end Steps

/-- The limit is enforced in bytes in just those runs in which no granted step
asks for more words than are left. -/
theorem metaspace_limit_iff {sizeInRange : SizeInRange} {maxMetaspaceSize : Nat}
    (counts : sizeInRange.Counts) (word : maxMetaspaceSize < addressSpace)
    (ops : List CommitOp) :
    CommitOp.Along sizeInRange maxMetaspaceSize
        (CommitOp.Enforced sizeInRange maxMetaspaceSize) ops .start ↔
      CommitOp.Along sizeInRange maxMetaspaceSize
        (CommitOp.Fits sizeInRange maxMetaspaceSize) ops .start :=
  Counted.start.along_iff counts word (Nat.zero_le _) ops

/-- The mask counts word by word. -/
def sampleSizeInRange : SizeInRange := fun mask p wordSize =>
  (Finset.Ico p (p + wordSize) ∩ mask).card

theorem sampleSizeInRange_counts : sampleSizeInRange.Counts :=
  fun _ _ _ => rfl

/-- A limit of one granule of 64 KiB, and a commit of twice as much. -/
def sampleCommit : List CommitOp := [.commit 8192 0 8192]

theorem metaspace_limit_iff_sample :
    CommitOp.Along sampleSizeInRange 65536
        (CommitOp.Enforced sampleSizeInRange 65536) sampleCommit .start ↔
      CommitOp.Along sampleSizeInRange 65536
        (CommitOp.Fits sampleSizeInRange 65536) sampleCommit .start :=
  metaspace_limit_iff sampleSizeInRange_counts (by decide) sampleCommit

theorem metaspace_limit_exceeded :
    ¬ CommitOp.Along sampleSizeInRange 65536
      (CommitOp.Enforced sampleSizeInRange 65536) sampleCommit .start := by
  rintro ⟨enforced, -⟩
  have empty (w : Nat) : Commits.start.increase sampleSizeInRange 0 w = w := by
    simp [Commits.increase, sampleSizeInRange, Commits.start]
  have possible : Commits.start.possibleExpansionWords 65536 8192 = 8192 := rfl
  have bytes := enforced.within
  rcases commit_cases sampleSizeInRange_counts .start 8192 0 8192 with
    ⟨refused, -⟩ | ⟨-, -, card⟩
  · refine refused ?_
    change Commits.start.increase sampleSizeInRange 0 8192 ≤ _
    rw [empty, possible]
  · rw [Commits.committedBytes, card, empty] at bytes
    exact absurd bytes (by decide)

end Metaspace

end StoplessGC
