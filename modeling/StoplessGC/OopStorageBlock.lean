import StoplessGC.Cheri
import Mathlib.Data.List.Chain
import Mathlib.Data.Nat.ModEq
import Mathlib.Tactic.Ring

/-!
# The block of an `OopStorage` slot

`OopStorage::Block::block_for_ptr` for pure capabilities: a walk over plain
addresses, one section at a time, that re-derives each candidate from the slot
pointer and asks for its owner field.  A candidate below the block has its owner
field at a slot of the block, so the walk rests on what slots can hold and not
on what lies below.
-/

namespace StoplessGC

namespace OopStorage

/-- `sizeof(oop)`, which is also `sizeof(intptr_t)`. -/
abbrev sizeofOop : Nat := 16

/-- The stock layout of a block: the data, and the owner field behind it. -/
structure Layout where
  sectionSize : Nat
  sectionCount : Nat
  /-- The offset of `_owner_address`. -/
  ownerOffset : Nat
  ownerOffset_ge : sectionCount * (sectionSize * sizeofOop) ≤ ownerOffset
  ownerOffset_lt :
    ownerOffset < sectionCount * (sectionSize * sizeofOop) +
      sectionSize * sizeofOop
  ownerOffset_aligned : sizeofOop ∣ ownerOffset

/-- `block_alignment`, the length of a section in bytes. -/
def Layout.blockAlignment (layout : Layout) : Nat :=
  layout.sectionSize * sizeofOop

/-- A block is aligned to a section and ends within the address space. -/
structure Block (layout : Layout) where
  start : Nat
  aligned : layout.blockAlignment ∣ start
  fits : start + layout.ownerOffset + sizeofOop ≤ addressSpace

/-- `align_down` -/
def alignDown (x alignment : Nat) : Nat := x / alignment * alignment

/-- What a load of eight bytes at an address reads through a capability that
allows it; `none` where nothing readable is mapped. -/
abbrev Fetch := Nat → Option Nat

/-- `SafeFetchN`: a load that faults yields the error value. -/
def safeFetchN (fetch : Fetch) (c : Cap) (errValue : Nat) : Nat :=
  if c.tag = true ∧ c.base ≤ c.address ∧
      c.address + 8 ≤ c.base + c.length then
    (fetch c.address).getD errValue
  else errValue

/-- `&candidate->_owner_address` -/
def ownerField (cheri : Intrinsics) (layout : Layout) (candidate : Cap) : Cap :=
  cheri.addressSet candidate
    ((candidate.address + layout.ownerOffset) % addressSpace)

/-- The loop, with the rounds that are left: the candidate addresses that it
looks at, and what it returns. -/
def walk (cheri : Intrinsics) (layout : Layout) (fetch : Fetch)
    (ownerAddr : Nat) (ptr : Cap) : Nat → Nat → List Nat × Option Cap
  | 0, _ => ([], none)
  | rounds + 1, sectionAddr =>
      let candidate := cheri.addressSet ptr sectionAddr
      if safeFetchN fetch (ownerField cheri layout candidate) 0 = ownerAddr then
        ([sectionAddr], some candidate)
      else
        let rest := walk cheri layout fetch ownerAddr ptr rounds
          ((sectionAddr + layout.sectionSize * sizeofOop) % addressSpace)
        (sectionAddr :: rest.1, rest.2)

/-- `section_addr` before the loop; the subtraction wraps. -/
def firstSection (layout : Layout) (ptr : Cap) : Nat :=
  let below := layout.sectionSize * (layout.sectionCount - 1) * sizeofOop
  (alignDown ptr.address layout.blockAlignment +
    (addressSpace - below % addressSpace)) % addressSpace

/-- `block_for_ptr` -/
def blockForPtr (cheri : Intrinsics) (layout : Layout) (fetch : Fetch)
    (owner ptr : Cap) : List Nat × Option Cap :=
  walk cheri layout fetch owner.address ptr layout.sectionCount
    (firstSection layout ptr)

variable {cheri : Intrinsics} {layout : Layout} {block : Block layout}
  {fetch : Fetch} {owner ptr : Cap}

/-- The block belongs to `owner`, the storage whose method asks, and no slot
holds the owner's address in its low word. -/
structure Owned (block : Block layout) (fetch : Fetch) (owner : Cap) :
    Prop where
  owner_ne : owner.address ≠ 0
  owner_field :
    fetch (block.start + layout.ownerOffset) = some owner.address
  slots : ∀ j, j < layout.sectionCount * layout.sectionSize →
    fetch (block.start + j * sizeofOop) ≠ some owner.address

/-- A capability to a slot whose bounds cover the block. -/
structure SlotPointer (block : Block layout) (ptr : Cap) : Prop where
  tagged : ptr.tag = true
  lower : ptr.base ≤ block.start
  upper : block.start + layout.ownerOffset + sizeofOop ≤ ptr.base + ptr.length
  slot : ∃ j, j < layout.sectionCount * layout.sectionSize ∧
    ptr.address = block.start + j * sizeofOop

/-- The section of the block that the pointer is in. -/
def Block.sectionOf (block : Block layout) (ptr : Cap) : Nat :=
  (ptr.address - block.start) / layout.blockAlignment

/-- What a search has to do.  The candidates ascend by a section each in 64-bit
arithmetic; as numbers they ascend unless the search begins below address
zero. -/
structure FindsBlock (cheri : Intrinsics) (block : Block layout)
    (fetch : Fetch) (owner ptr : Cap) (search : List Nat × Option Cap) :
    Prop where
  count : search.1.length ≤ layout.sectionCount
  ascending : search.1.IsChain
    (fun a next => next = (a + layout.blockAlignment) % addressSpace)
  increasing : search.1.Pairwise (· < ·) ↔
    (layout.sectionCount - 1 - block.sectionOf ptr) * layout.blockAlignment ≤
      block.start
  reached : block.start ∈ search.1
  below : ∀ a ∈ search.1, a ≠ block.start →
    (∃ j, j < layout.sectionCount * layout.sectionSize ∧
      (a + layout.ownerOffset) % addressSpace = block.start + j * sizeofOop) ∧
    safeFetchN fetch (ownerField cheri layout (cheri.addressSet ptr a)) 0 ≠
      owner.address
  found : search.2 = some { ptr with address := block.start }

/-! ## Candidates -/

/-- The address `j` sections below the block. -/
def Block.candidateAddr (block : Block layout) (j : Nat) : Nat :=
  (block.start + (addressSpace - j * layout.blockAlignment)) % addressSpace

/-- The candidates from `j` sections below the block up to its start. -/
def Block.candidates (block : Block layout) : Nat → List Nat
  | 0 => [block.candidateAddr 0]
  | j + 1 => block.candidateAddr (j + 1) :: block.candidates j

/-! ## Addresses around the block -/

/-- One stride up from `d + stride` below `b`, in arithmetic modulo `m`. -/
theorem below_add_stride {m d stride : Nat} (b : Nat)
    (fits : d + stride ≤ m) :
    ((b + (m - (d + stride))) % m + stride) % m = (b + (m - d)) % m := by
  have sum : b + (m - (d + stride)) + stride = b + (m - d) := by omega
  rw [Nat.mod_add_mod, sum]

/-- An offset that reaches from `d` below `b` back to at least `b`. -/
theorem below_add_offset {m b d offset : Nat} (reaches : d ≤ offset)
    (fits : b + offset < m) :
    ((b + (m - d)) % m + offset) % m = b + (offset - d) := by
  have sum : b + (m - d) + offset = b + (offset - d) + m := by omega
  rw [Nat.mod_add_mod, sum, Nat.add_mod_right, Nat.mod_eq_of_lt (by omega)]

theorem Layout.sections_le (layout : Layout) {j : Nat}
    (inside : j ≤ layout.sectionCount) :
    j * layout.blockAlignment ≤ layout.ownerOffset :=
  (Nat.mul_le_mul_right _ inside).trans layout.ownerOffset_ge

theorem Block.ownerField_lt (block : Block layout) :
    block.start + layout.ownerOffset < addressSpace := by
  have fits := block.fits
  unfold sizeofOop at fits
  omega

theorem Block.start_lt (block : Block layout) : block.start < addressSpace :=
  (Nat.le_add_right _ _).trans_lt block.ownerField_lt

theorem Block.sections_lt (block : Block layout) {j : Nat}
    (inside : j ≤ layout.sectionCount) :
    j * layout.blockAlignment < addressSpace := by
  have small := layout.sections_le inside
  have fits := block.ownerField_lt
  omega

@[simp] theorem Block.candidateAddr_zero (block : Block layout) :
    block.candidateAddr 0 = block.start := by
  rw [Block.candidateAddr, Nat.zero_mul, Nat.sub_zero, Nat.add_mod_right,
    Nat.mod_eq_of_lt block.start_lt]

theorem Block.candidateAddr_succ (block : Block layout) {j : Nat}
    (inside : j + 1 ≤ layout.sectionCount) :
    (block.candidateAddr (j + 1) + layout.blockAlignment) % addressSpace =
      block.candidateAddr j := by
  have fits := (block.sections_lt inside).le
  rw [Nat.succ_mul] at fits
  rw [Block.candidateAddr, Nat.succ_mul]
  exact below_add_stride block.start fits

theorem Block.candidateAddr_ownerField (block : Block layout) {j : Nat}
    (inside : j ≤ layout.sectionCount) :
    (block.candidateAddr j + layout.ownerOffset) % addressSpace =
      block.start + (layout.ownerOffset - j * layout.blockAlignment) :=
  below_add_offset (layout.sections_le inside) block.ownerField_lt

/-- Seen from a candidate below the block, the owner field is a slot. -/
theorem Layout.exists_slot (layout : Layout) {j : Nat} (positive : 0 < j)
    (inside : j ≤ layout.sectionCount) :
    ∃ i, i < layout.sectionCount * layout.sectionSize ∧
      layout.ownerOffset - j * layout.blockAlignment = i * sizeofOop := by
  obtain ⟨offset, aligned⟩ := layout.ownerOffset_aligned
  have stride : j * layout.blockAlignment =
      sizeofOop * (j * layout.sectionSize) := by
    unfold Layout.blockAlignment
    ring
  refine ⟨offset - j * layout.sectionSize, ?_, ?_⟩
  · have near := layout.ownerOffset_lt
    have length : layout.sectionCount * (layout.sectionSize * sizeofOop) +
        layout.sectionSize * sizeofOop =
          sizeofOop * (layout.sectionCount * layout.sectionSize +
            layout.sectionSize) := by
      ring
    rw [length, aligned] at near
    have offset_lt := Nat.lt_of_mul_lt_mul_left near
    have one : layout.sectionSize ≤ j * layout.sectionSize :=
      Nat.le_mul_of_pos_left _ positive
    have reaches := layout.sections_le inside
    rw [stride, aligned] at reaches
    have reaches := Nat.le_of_mul_le_mul_left reaches (by decide)
    have some_section : 0 < layout.sectionSize := by
      rcases Nat.eq_zero_or_pos layout.sectionSize with none | some
      · have near := layout.ownerOffset_lt
        have after := layout.ownerOffset_ge
        simp only [none, Nat.zero_mul, Nat.mul_zero, Nat.add_zero] at near
        exact absurd near (Nat.not_lt_zero _)
      · exact some
    have whole : 0 < layout.sectionCount * layout.sectionSize :=
      Nat.mul_pos (positive.trans_le inside) some_section
    omega
  · rw [stride, aligned, ← Nat.mul_sub, Nat.mul_comm]

/-! ## What the probes read -/

theorem safeFetchN_eq_or (fetch : Fetch) (c : Cap) (errValue : Nat) :
    safeFetchN fetch c errValue = errValue ∨
      fetch c.address = some (safeFetchN fetch c errValue) := by
  unfold safeFetchN
  split
  · cases read : fetch c.address with
    | none => exact Or.inl rfl
    | some value => exact Or.inr rfl
  · exact Or.inl rfl

/-- Below the block a probe faults or reads a slot. -/
theorem Owned.probe_below (owned : Owned block fetch owner) (cheri : Intrinsics)
    (ptr : Cap) {j : Nat} (positive : 0 < j)
    (inside : j ≤ layout.sectionCount) :
    safeFetchN fetch
        (ownerField cheri layout
          (cheri.addressSet ptr (block.candidateAddr j))) 0 ≠
      owner.address := by
  intro matched
  obtain ⟨i, slot, place⟩ := layout.exists_slot positive inside
  have address : (ownerField cheri layout
      (cheri.addressSet ptr (block.candidateAddr j))).address =
        block.start + i * sizeofOop := by
    rw [← place, ← block.candidateAddr_ownerField inside]
    rfl
  rcases safeFetchN_eq_or fetch (ownerField cheri layout
      (cheri.addressSet ptr (block.candidateAddr j))) 0 with error | read
  · exact owned.owner_ne (matched.symm.trans error)
  · rw [matched, address] at read
    exact owned.slots i slot read

theorem SlotPointer.addressSet_start (laws : cheri.Laws)
    (pointer : SlotPointer block ptr) :
    cheri.addressSet ptr block.start = { ptr with address := block.start } := by
  have upper := pointer.upper
  have kept := laws.representable_inBounds ptr block.start pointer.lower
    (by omega)
  rw [Intrinsics.addressSet, kept, Bool.and_true]

theorem Owned.probe_start (owned : Owned block fetch owner)
    (laws : cheri.Laws) (pointer : SlotPointer block ptr) :
    safeFetchN fetch
        (ownerField cheri layout (cheri.addressSet ptr block.start)) 0 =
      owner.address := by
  have lower := pointer.lower
  have upper := pointer.upper
  have place : (block.start + layout.ownerOffset) % addressSpace =
      block.start + layout.ownerOffset :=
    Nat.mod_eq_of_lt block.ownerField_lt
  have kept := laws.representable_inBounds { ptr with address := block.start }
    (block.start + layout.ownerOffset)
    (lower.trans (Nat.le_add_right _ _)) ((Nat.le_add_right _ _).trans upper)
  have field : ownerField cheri layout (cheri.addressSet ptr block.start) =
      { ptr with address := block.start + layout.ownerOffset } := by
    rw [pointer.addressSet_start laws, ownerField, place, Intrinsics.addressSet,
      kept, Bool.and_true]
  have within : ptr.base ≤ block.start + layout.ownerOffset ∧
      block.start + layout.ownerOffset + 8 ≤ ptr.base + ptr.length := by
    unfold sizeofOop at upper
    omega
  rw [field, safeFetchN, if_pos ⟨pointer.tagged, within⟩, owned.owner_field]
  rfl

/-! ## The walk -/

/-- From `j` sections below the block the walk goes up to its start. -/
theorem walk_eq (laws : cheri.Laws) (owned : Owned block fetch owner)
    (pointer : SlotPointer block ptr) (rounds : Nat) :
    ∀ j, j ≤ layout.sectionCount →
      walk cheri layout fetch owner.address ptr (rounds + 1 + j)
          (block.candidateAddr j) =
        (block.candidates j, some { ptr with address := block.start }) := by
  intro j
  induction j with
  | zero =>
      intro _
      have hit := owned.probe_start laws pointer
      rw [block.candidateAddr_zero, Nat.add_zero, walk, if_pos hit,
        pointer.addressSet_start laws]
      simp [Block.candidates]
  | succ j induction =>
      intro inside
      have missed := owned.probe_below cheri ptr (Nat.succ_pos j) inside
      rw [← Nat.add_assoc, walk, if_neg missed]
      have next : (block.candidateAddr (j + 1) +
          layout.sectionSize * sizeofOop) % addressSpace =
            block.candidateAddr j :=
        block.candidateAddr_succ inside
      rw [next, induction (Nat.le_of_succ_le inside)]
      rfl

/-! ## The candidates in order -/

theorem Block.mem_candidates (block : Block layout) {a : Nat} :
    ∀ {j : Nat}, a ∈ block.candidates j ↔
      ∃ i, i ≤ j ∧ a = block.candidateAddr i
  | 0 => by simp [Block.candidates]
  | j + 1 => by
      rw [Block.candidates, List.mem_cons, block.mem_candidates]
      constructor
      · rintro (rfl | ⟨i, inside, rfl⟩)
        · exact ⟨j + 1, Nat.le_refl _, rfl⟩
        · exact ⟨i, Nat.le_succ_of_le inside, rfl⟩
      · rintro ⟨i, inside, rfl⟩
        rcases Nat.le_succ_iff.mp inside with lower | rfl
        · exact Or.inr ⟨i, lower, rfl⟩
        · exact Or.inl rfl

theorem Block.length_candidates (block : Block layout) (j : Nat) :
    (block.candidates j).length = j + 1 := by
  induction j with
  | zero => rfl
  | succ j induction => simp [Block.candidates, induction]

theorem Block.start_mem_candidates (block : Block layout) (j : Nat) :
    block.start ∈ block.candidates j :=
  block.mem_candidates.mpr ⟨0, Nat.zero_le _, block.candidateAddr_zero.symm⟩

theorem Block.isChain_candidates (block : Block layout) :
    ∀ j, j ≤ layout.sectionCount →
      (block.candidates j).IsChain
        (fun a next => next = (a + layout.blockAlignment) % addressSpace)
  | 0, _ => List.isChain_singleton _
  | 1, inside =>
      List.isChain_pair.mpr (block.candidateAddr_succ inside).symm
  | j + 2, inside =>
      List.IsChain.cons_cons (block.candidateAddr_succ inside).symm
        (block.isChain_candidates (j + 1) (Nat.le_of_succ_le inside))

theorem Block.candidateAddr_eq_sub (block : Block layout) {j : Nat}
    (above : j * layout.blockAlignment ≤ block.start) :
    block.candidateAddr j = block.start - j * layout.blockAlignment := by
  have start_lt := block.start_lt
  have sum : block.start + (addressSpace - j * layout.blockAlignment) =
      block.start - j * layout.blockAlignment + addressSpace := by
    omega
  rw [Block.candidateAddr, sum, Nat.add_mod_right, Nat.mod_eq_of_lt (by omega)]

theorem Block.start_lt_candidateAddr (block : Block layout) {j : Nat}
    (inside : j ≤ layout.sectionCount)
    (wraps : block.start < j * layout.blockAlignment) :
    block.start < block.candidateAddr j := by
  have small := block.sections_lt inside
  rw [Block.candidateAddr, Nat.mod_eq_of_lt (by omega)]
  omega

/-- The candidates ascend as numbers unless the lowest one wraps. -/
theorem Block.pairwise_candidates_iff (block : Block layout)
    (some_section : 0 < layout.blockAlignment) {j : Nat}
    (inside : j ≤ layout.sectionCount) :
    (block.candidates j).Pairwise (· < ·) ↔
      j * layout.blockAlignment ≤ block.start := by
  constructor
  · intro increasing
    by_contra below
    have wraps := Nat.not_le.mp below
    cases j with
    | zero => exact absurd wraps (by simp)
    | succ j =>
        have first := (List.pairwise_cons.mp increasing).1 block.start
          (block.start_mem_candidates j)
        exact Nat.lt_asymm first (block.start_lt_candidateAddr inside wraps)
  · intro above
    induction j with
    | zero => exact List.pairwise_singleton _ _
    | succ j induction =>
        have one : (j + 1) * layout.blockAlignment =
            j * layout.blockAlignment + layout.blockAlignment :=
          Nat.succ_mul _ _
        refine List.pairwise_cons.mpr
          ⟨?_, induction (Nat.le_of_succ_le inside) (by omega)⟩
        intro a member
        obtain ⟨i, lower, rfl⟩ := block.mem_candidates.mp member
        have shorter : i * layout.blockAlignment ≤
            j * layout.blockAlignment :=
          Nat.mul_le_mul_right _ lower
        rw [block.candidateAddr_eq_sub above,
          block.candidateAddr_eq_sub (by omega)]
        omega

/-! ## Where the walk begins -/

theorem SlotPointer.sectionOf_lt (pointer : SlotPointer block ptr) :
    block.sectionOf ptr < layout.sectionCount := by
  obtain ⟨i, slot, address⟩ := pointer.slot
  rw [Block.sectionOf, address, Nat.add_sub_cancel_left]
  apply Nat.div_lt_of_lt_mul
  have length : layout.blockAlignment * layout.sectionCount =
      layout.sectionCount * layout.sectionSize * sizeofOop := by
    unfold Layout.blockAlignment
    ring
  rw [length]
  exact Nat.mul_lt_mul_of_pos_right slot (by decide)

theorem SlotPointer.blockAlignment_pos (pointer : SlotPointer block ptr) :
    0 < layout.blockAlignment := by
  obtain ⟨i, slot, _⟩ := pointer.slot
  have some_slot : 0 < layout.sectionCount * layout.sectionSize := by omega
  exact Nat.mul_pos (Nat.pos_of_mul_pos_left some_slot) (by decide)

theorem SlotPointer.alignDown_eq (pointer : SlotPointer block ptr) :
    alignDown ptr.address layout.blockAlignment =
      block.start + block.sectionOf ptr * layout.blockAlignment := by
  obtain ⟨i, _, address⟩ := pointer.slot
  rw [alignDown, Block.sectionOf, address, Nat.add_sub_cancel_left,
    Nat.add_div_of_dvd_right block.aligned, Nat.add_mul,
    Nat.div_mul_cancel block.aligned]

/-- The first candidate is as many sections below the block as there are
sections behind that of the pointer. -/
theorem SlotPointer.firstSection_eq (pointer : SlotPointer block ptr) :
    firstSection layout ptr =
      block.candidateAddr (layout.sectionCount - 1 - block.sectionOf ptr) := by
  have section_lt := pointer.sectionOf_lt
  have small := block.sections_lt (Nat.sub_le layout.sectionCount 1)
  have stride : layout.sectionSize * (layout.sectionCount - 1) * sizeofOop =
      (layout.sectionCount - 1) * layout.blockAlignment := by
    unfold Layout.blockAlignment
    ring
  have split : (layout.sectionCount - 1) * layout.blockAlignment =
      block.sectionOf ptr * layout.blockAlignment +
        (layout.sectionCount - 1 - block.sectionOf ptr) *
          layout.blockAlignment := by
    rw [← Nat.add_mul, Nat.add_sub_cancel' (Nat.le_sub_one_of_lt section_lt)]
  rw [firstSection, pointer.alignDown_eq]
  rw [stride, Nat.mod_eq_of_lt small, Block.candidateAddr, split]
  rw [split] at small
  congr 1
  omega

theorem blockForPtr_eq (laws : cheri.Laws) (owned : Owned block fetch owner)
    (pointer : SlotPointer block ptr) :
    blockForPtr cheri layout fetch owner ptr =
      (block.candidates (layout.sectionCount - 1 - block.sectionOf ptr),
        some { ptr with address := block.start }) := by
  have section_lt := pointer.sectionOf_lt
  have rounds : block.sectionOf ptr + 1 +
      (layout.sectionCount - 1 - block.sectionOf ptr) =
        layout.sectionCount := by
    omega
  have walked := walk_eq laws owned pointer (block.sectionOf ptr)
    (layout.sectionCount - 1 - block.sectionOf ptr) (by omega)
  rw [rounds, ← pointer.firstSection_eq] at walked
  exact walked

/-- The walk finds the block of every slot. -/
theorem blockForPtr_findsBlock (laws : cheri.Laws)
    (owned : Owned block fetch owner) (pointer : SlotPointer block ptr) :
    FindsBlock cheri block fetch owner ptr
      (blockForPtr cheri layout fetch owner ptr) := by
  have section_lt := pointer.sectionOf_lt
  have inside : layout.sectionCount - 1 - block.sectionOf ptr ≤
      layout.sectionCount := by
    omega
  rw [blockForPtr_eq laws owned pointer]
  constructor
  · rw [block.length_candidates]
    omega
  · exact block.isChain_candidates _ inside
  · exact block.pairwise_candidates_iff pointer.blockAlignment_pos inside
  · exact block.start_mem_candidates _
  · intro a member other
    obtain ⟨j, lower, rfl⟩ := block.mem_candidates.mp member
    have positive : 0 < j := by
      rcases Nat.eq_zero_or_pos j with rfl | positive
      · exact absurd block.candidateAddr_zero other
      · exact positive
    have bounded := lower.trans inside
    obtain ⟨i, slot, place⟩ := layout.exists_slot positive bounded
    refine ⟨⟨i, slot, ?_⟩, owned.probe_below cheri ptr positive bounded⟩
    rw [block.candidateAddr_ownerField bounded, place]
  · rfl

/-! ## A block of the stock size -/

/-- Eight sections of eight slots, and the owner field behind the bitmap. -/
def stockLayout : Layout :=
  { sectionSize := 8
    sectionCount := 8
    ownerOffset := 1040
    ownerOffset_ge := by decide
    ownerOffset_lt := by decide
    ownerOffset_aligned := by decide }

/-- A block at this multiple of the section length. -/
def stockBlock (place : Nat) (low : place < 2 ^ 32) : Block stockLayout :=
  { start := 128 * place
    aligned := ⟨place, rfl⟩
    fits := by
      change 128 * place + 1040 + 16 ≤ 2 ^ 64
      omega }

/-- The storage object. -/
def stockOwner : Cap := Cap.ofInt 0x5000

/-- Memory in which only the owner field of the block is not zero. -/
def stockFetch (block : Block stockLayout) : Fetch := fun address =>
  if address = block.start + 1040 then some stockOwner.address else some 0

/-- A pointer to the first slot, with the bounds of the block. -/
def stockPtr (block : Block stockLayout) : Cap :=
  { tag := true
    base := block.start
    length := 1056
    address := block.start
    perms := { swVmem := false, rest := 1 } }

theorem stock_owned (block : Block stockLayout) :
    Owned block (stockFetch block) stockOwner where
  owner_ne := by decide
  owner_field := by simp [stockFetch, stockLayout]
  slots := by
    intro j slot
    have small : j < 64 := slot
    have other : ¬ block.start + j * sizeofOop = block.start + 1040 := by
      unfold sizeofOop
      omega
    rw [stockFetch, if_neg other]
    decide

theorem stock_pointer (block : Block stockLayout) :
    SlotPointer block (stockPtr block) where
  tagged := rfl
  lower := Nat.le_refl _
  upper := Nat.le_refl _
  slot := ⟨0, by decide, rfl⟩

theorem blockForPtr_findsBlock_stock :
    FindsBlock Intrinsics.exact (stockBlock 4096 (by decide))
      (stockFetch (stockBlock 4096 (by decide))) stockOwner
      (stockPtr (stockBlock 4096 (by decide)))
      (blockForPtr Intrinsics.exact stockLayout
        (stockFetch (stockBlock 4096 (by decide))) stockOwner
        (stockPtr (stockBlock 4096 (by decide)))) :=
  blockForPtr_findsBlock Intrinsics.exact_laws (stock_owned _) (stock_pointer _)

/-- For a block in the second section of the address space the walk begins near
the top of it. -/
theorem blockForPtr_wraps :
    ¬ ∀ (block : Block stockLayout) (fetch : Fetch) (owner ptr : Cap),
      Owned block fetch owner → SlotPointer block ptr →
        (blockForPtr Intrinsics.exact stockLayout fetch owner ptr).1.Pairwise
          (· < ·) := by
  intro increasing
  have numbers := increasing (stockBlock 1 (by decide)) _ _ _
    (stock_owned _) (stock_pointer _)
  rw [blockForPtr_eq Intrinsics.exact_laws (stock_owned _)
    (stock_pointer _)] at numbers
  exact absurd numbers (by decide)

end OopStorage

end StoplessGC
