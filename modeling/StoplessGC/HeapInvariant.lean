import StoplessGC.Mutator
import StoplessGC.ForwardTableChase

/-!
# The invariant of the heap

`Extents` records the copies of objects that were ever allocated: where each
starts and how long it is.  `Heap` says how memory, the table and all
capabilities fit these extents.  Nothing is ever freed, so extents only grow.
-/

namespace StoplessGC

open ForwardTable Allocator Forwarding

namespace Machine

/-- A property of every capability in memory and registers. -/
structure Every (m : Machine) (P : Cap → Prop) : Prop where
  mem : ∀ {p : Nat} {c : Cap}, m.mem p = .value c → P c
  regs : ∀ i, P (m.regs i)

namespace Every

variable {m : Machine} {P Q : Cap → Prop}

theorem imp (every : m.Every P) (weaker : ∀ {c}, P c → Q c) : m.Every Q where
  mem := fun loaded => weaker (every.mem loaded)
  regs := fun i => weaker (every.regs i)

theorem store (every : m.Every P) (p : Nat) {c : Cap} (holds : P c) :
    (m.store p (.value c)).Every P where
  mem := by
    intro q other loaded
    by_cases here : q = p
    · subst here
      simp only [Machine.store, Function.update_self] at loaded
      cases loaded
      exact holds
    · simp only [Machine.store, Function.update_of_ne here] at loaded
      exact every.mem loaded
  regs := every.regs

theorem storeHeader (every : m.Every P) (p : Nat) (klass : Option Klass)
    (size : Nat) : (m.store p (.header klass size)).Every P where
  mem := by
    intro q other loaded
    by_cases here : q = p
    · subst here
      simp only [Machine.store, Function.update_self] at loaded
      cases loaded
    · simp only [Machine.store, Function.update_of_ne here] at loaded
      exact every.mem loaded
  regs := every.regs

theorem copyWords (every : m.Every P) (src dst n : Nat) :
    (m.copyWords src dst n).Every P := by
  induction n with
  | zero => exact every
  | succ n ih =>
      rw [Machine.copyWords]
      cases word : (m.copyWords src dst n).load (src + n * heapWordSize) with
      | header klass size => exact ih.storeHeader _ klass size
      | value c => exact ih.store _ (ih.mem word)

theorem setReg (every : m.Every P) (dst : Fin 30) {c : Cap} (holds : P c) :
    (Mutator.setReg m dst c).Every P where
  mem := every.mem
  regs := by
    intro i
    by_cases here : i = dst
    · subst here
      simpa [Mutator.setReg] using holds
    · simpa [Mutator.setReg, Function.update_of_ne here] using every.regs i

theorem initialise (every : m.Every P) (zero : P (Cap.ofInt 0)) (start : Nat)
    (klass : Option Klass) (size n : Nat) :
    (Mutator.initialise m start klass size n).Every P := by
  induction n with
  | zero => exact every.storeHeader start klass size
  | succ n ih => exact ih.store _ zero

theorem sweep (every : m.Every P)
    (swept : ∀ {c}, P c → Q (Revoke.sweepCap m.shadow c)) :
    (Collector.sweep m).Every Q where
  mem := by
    intro p c loaded
    change Collector.sweepWord m.shadow (m.mem p) = .value c at loaded
    cases word : m.mem p with
    | header klass size =>
        rw [word] at loaded
        cases loaded
    | value before =>
        rw [word] at loaded
        cases loaded
        exact swept (every.mem word)
  regs := fun i => swept (every.regs i)

end Every

theorem store_mem_of_ne (m : Machine) {p q : Nat} (w : Word) (other : q ≠ p) :
    (m.store p w).mem q = m.mem q := by
  simp [store, Function.update_of_ne other]

@[simp] theorem store_mem_self (m : Machine) (p : Nat) (w : Word) :
    (m.store p w).mem p = w := by
  simp [store]

theorem copyWords_eq (m : Machine) (src dst n : Nat) :
    m.copyWords src dst n =
      { m with mem := (m.copyWords src dst n).mem } := by
  induction n with
  | zero => rfl
  | succ n ih =>
      rw [copyWords, ih]
      rfl

@[simp] theorem copyWords_regs (m : Machine) (src dst n : Nat) :
    (m.copyWords src dst n).regs = m.regs := by
  rw [copyWords_eq]

@[simp] theorem copyWords_bumpOffset (m : Machine) (src dst n : Nat) :
    (m.copyWords src dst n).bumpOffset = m.bumpOffset := by
  rw [copyWords_eq]

@[simp] theorem copyWords_table (m : Machine) (src dst n : Nat) :
    (m.copyWords src dst n).table = m.table := by
  rw [copyWords_eq]

@[simp] theorem copyWords_shadow (m : Machine) (src dst n : Nat) :
    (m.copyWords src dst n).shadow = m.shadow := by
  rw [copyWords_eq]

theorem copyWords_frame (m : Machine) (src dst n : Nat) {p : Nat}
    (outside : p < dst ∨ dst + n * heapWordSize ≤ p) :
    (m.copyWords src dst n).mem p = m.mem p := by
  induction n with
  | zero => rfl
  | succ n ih =>
      rw [heapWordSize] at outside
      rw [copyWords, store_mem_of_ne _ _ (by rw [heapWordSize]; omega)]
      exact ih (by rw [heapWordSize]; omega)

theorem copyWords_copied (m : Machine) {src dst n : Nat}
    (apart : src + n * heapWordSize ≤ dst) {i : Nat} (below : i < n) :
    (m.copyWords src dst n).mem (dst + i * heapWordSize) =
      m.mem (src + i * heapWordSize) := by
  induction n with
  | zero => omega
  | succ n ih =>
      rw [heapWordSize] at apart
      rw [copyWords]
      by_cases last : i = n
      · subst last
        rw [store_mem_self, load]
        apply copyWords_frame
        left
        rw [heapWordSize]
        omega
      · rw [store_mem_of_ne _ _ (by rw [heapWordSize]; omega)]
        exact ih (by rw [heapWordSize]; omega) (by omega)

end Machine

/-- The copies of objects: start and length in bytes. -/
abbrev Extents := Nat → Option Nat

/-- Extents that are still there, with the same length. -/
def Extents.Grows (ext ext' : Extents) : Prop :=
  ∀ ⦃a l : Nat⦄, ext a = some l → ext' a = some l

variable {cheri : Intrinsics} {arena : Arena cheri}

/-- Deriving from a length that was rounded before gives exact bounds. -/
theorem ftDerive_objectCap (laws : cheri.Laws) {start l : Nat}
    (rounded : cheri.representableLength l = l) (positive : 0 < l)
    (lower : arena.base.base ≤ start)
    (upper : start + l ≤ arena.base.base + arena.size)
    (aligned : cheri.alignment l ∣ start) :
    ftDerive cheri (some arena.base) start l =
      some (objectCap arena start l) := by
  have nonnull := arena.nonnull
  have nonzero : start ≠ 0 := by omega
  have fits : start + cheri.representableLength l ≤
      arena.base.base + arena.size := by omega
  have placed : cheri.alignment (cheri.representableLength l) ∣ start := by
    rw [rounded]
    exact aligned
  have derived := derive_exact laws arena lower fits placed
  simp only [ftDerive, if_neg nonzero, if_pos positive, derived, rounded]

/-- The extents lie below the bump offset, one behind the other. -/
structure Packed (arena : Arena cheri) (bump : Nat) (ext : Extents) : Prop where
  bump_le : bump ≤ arena.size
  bump_word : heapWordSize ∣ bump
  lower : ∀ {a l}, ext a = some l → arena.base.base ≤ a
  upper : ∀ {a l}, ext a = some l → a + l ≤ arena.base.base + bump
  positive : ∀ {a l}, ext a = some l → 0 < l
  separate : ∀ {a b l k}, ext a = some l → ext b = some k → a < b → a + l ≤ b
  rounded : ∀ {a l}, ext a = some l → cheri.representableLength l = l
  aligned : ∀ {a l}, ext a = some l → cheri.alignment l ∣ a
  word : ∀ {a l}, ext a = some l → heapWordSize ∣ a

/-- A new extent behind the old bump offset. -/
structure Fresh (arena : Arena cheri) (bump start l bump' : Nat) : Prop where
  lower : arena.base.base + bump ≤ start
  upper : start + l = arena.base.base + bump'
  fits : bump' ≤ arena.size
  positive : 0 < l
  rounded : cheri.representableLength l = l
  aligned : cheri.alignment l ∣ start
  word : heapWordSize ∣ start
  bump_word : heapWordSize ∣ bump'

namespace Fresh

variable {bump start l bump' : Nat} {ext : Extents}

theorem bump_le (fresh : Fresh arena bump start l bump') : bump ≤ bump' := by
  have lower := fresh.lower
  have upper := fresh.upper
  omega

theorem unused (fresh : Fresh arena bump start l bump')
    (packed : Packed arena bump ext) : ext start = none := by
  cases there : ext start with
  | none => rfl
  | some k =>
      have lower := fresh.lower
      have upper := packed.upper there
      have positive := packed.positive there
      omega

theorem below (fresh : Fresh arena bump start l bump')
    (packed : Packed arena bump ext) {a k : Nat} (there : ext a = some k) :
    a + k ≤ start :=
  (packed.upper there).trans fresh.lower

theorem grows (fresh : Fresh arena bump start l bump')
    (packed : Packed arena bump ext) :
    ext.Grows (Function.update ext start (some l)) := by
  intro a k there
  have elsewhere : a ≠ start := by
    intro same
    rw [same, fresh.unused packed] at there
    cases there
  rw [Function.update_of_ne elsewhere, there]

theorem update_cases {a k : Nat}
    (there : Function.update ext start (some l) a = some k) :
    (a = start ∧ k = l) ∨ (a ≠ start ∧ ext a = some k) := by
  by_cases same : a = start
  · subst same
    rw [Function.update_self] at there
    cases there
    exact .inl ⟨rfl, rfl⟩
  · rw [Function.update_of_ne same] at there
    exact .inr ⟨same, there⟩

end Fresh

theorem Packed.extend {bump start l bump' : Nat} {ext : Extents}
    (packed : Packed arena bump ext) (fresh : Fresh arena bump start l bump') :
    Packed arena bump' (Function.update ext start (some l)) := by
  have bumps := fresh.bump_le
  have freshLower := fresh.lower
  constructor
  · exact fresh.fits
  · exact fresh.bump_word
  · intro a k there
    rcases Fresh.update_cases there with ⟨rfl, _⟩ | ⟨_, old⟩
    · omega
    · exact packed.lower old
  · intro a k there
    rcases Fresh.update_cases there with ⟨rfl, rfl⟩ | ⟨_, old⟩
    · exact Nat.le_of_eq fresh.upper
    · have upper := packed.upper old
      omega
  · intro a k there
    rcases Fresh.update_cases there with ⟨_, rfl⟩ | ⟨_, old⟩
    · exact fresh.positive
    · exact packed.positive old
  · intro a b k j first second order
    rcases Fresh.update_cases first with ⟨rfl, rfl⟩ | ⟨_, oldFirst⟩
    · rcases Fresh.update_cases second with ⟨rfl, _⟩ | ⟨_, oldSecond⟩
      · omega
      · have upper := packed.upper oldSecond
        have positive := packed.positive oldSecond
        omega
    · rcases Fresh.update_cases second with ⟨rfl, _⟩ | ⟨_, oldSecond⟩
      · exact fresh.below packed oldFirst
      · exact packed.separate oldFirst oldSecond order
  · intro a k there
    rcases Fresh.update_cases there with ⟨_, rfl⟩ | ⟨_, old⟩
    · exact fresh.rounded
    · exact packed.rounded old
  · intro a k there
    rcases Fresh.update_cases there with ⟨rfl, rfl⟩ | ⟨_, old⟩
    · exact fresh.aligned
    · exact packed.aligned old
  · intro a k there
    rcases Fresh.update_cases there with ⟨rfl, _⟩ | ⟨_, old⟩
    · exact fresh.word
    · exact packed.word old

/-- A reference into a copy: bounds and permissions are those of the copy, and
the address is inside or one past the end. -/
structure Based (arena : Arena cheri) (ext : Extents) (c : Cap) : Prop where
  extent : ext c.base = some c.length
  perms : c.perms = { arena.base.perms with swVmem := false }
  lower : c.base ≤ c.address
  upper : c.address ≤ c.base + c.length

/-- What may stand in memory and registers: integers and references. -/
def CapOk (arena : Arena cheri) (ext : Extents) (c : Cap) : Prop :=
  (∃ n, c = Cap.ofInt n) ∨ Based arena ext c

theorem Based.grows {ext ext' : Extents} {c : Cap} (grows : ext.Grows ext')
    (based : Based arena ext c) : Based arena ext' c :=
  { based with extent := grows based.extent }

theorem CapOk.grows {ext ext' : Extents} {c : Cap} (grows : ext.Grows ext')
    (ok : CapOk arena ext c) : CapOk arena ext' c := by
  rcases ok with integer | based
  · exact .inl integer
  · exact .inr (based.grows grows)

theorem based_objectCap {ext : Extents} {a l : Nat} (there : ext a = some l) :
    Based arena ext (objectCap arena a l) where
  extent := there
  perms := rfl
  lower := Nat.le_refl _
  upper := Nat.le_add_right _ _

theorem CapOk.addressSet {ext : Extents} {c : Cap} (ok : CapOk arena ext c)
    {address : Nat} (lower : c.base ≤ address)
    (upper : address ≤ c.base + c.length) :
    CapOk arena ext (cheri.addressSet c address) := by
  rcases ok with ⟨n, rfl⟩ | based
  · exact .inl ⟨address, rfl⟩
  · exact .inr ⟨based.extent, based.perms, lower, upper⟩

theorem CapOk.ofInt (arena : Arena cheri) (ext : Extents) (n : Nat) :
    CapOk arena ext (Cap.ofInt n) := .inl ⟨n, rfl⟩

/-- A word count and the length of the extent it is allocated in. -/
structure Sized (cheri : Intrinsics) (size l : Nat) : Prop where
  positive : 0 < size
  bytes : size * heapWordSize < addressSpace
  length : cheri.representableLength (size * heapWordSize) = l

theorem Sized.le_length (laws : cheri.Laws) {size l : Nat}
    (sized : Sized cheri size l) : size * heapWordSize ≤ l := by
  rw [← sized.length]
  exact laws.le_length _

/-- An object of sixteen bytes is one word long. -/
theorem Sized.single {size : Nat} (sized : Sized Intrinsics.exact size 16) :
    size = 1 := by
  have length : size * 16 = 16 := sized.length
  omega

structure Heap (arena : Arena cheri) (ext : Extents) (m : Machine) : Prop where
  packed : Packed arena m.bumpOffset ext
  headers : ∀ {a l}, ext a = some l →
    ∃ klass size, m.mem a = .header klass size ∧ Sized cheri size l
  live : Live m.table
  source : ∀ {a b l}, ftFind m.table a = some (b, l) → ext a = some l
  target : ∀ {a b l}, ftFind m.table a = some (b, l) → ext b = some l
  upward : Upward (ftFind m.table)
  caps : m.Every (CapOk arena ext)

namespace Packed

variable {bump : Nat} {ext : Extents}

theorem nonzero (packed : Packed arena bump ext) {a l : Nat}
    (there : ext a = some l) : a ≠ 0 := by
  have lower := packed.lower there
  have positive := Nat.pos_of_ne_zero arena.nonnull
  omega

theorem zero (packed : Packed arena bump ext) : ext 0 = none := by
  cases there : ext 0 with
  | none => rfl
  | some l => exact absurd rfl (packed.nonzero there)

theorem covers (packed : Packed arena bump ext) {a l p : Nat}
    (there : ext a = some l) (lower : a ≤ p) (upper : p < a + l) :
    arena.covers p = true := by
  have first := packed.lower there
  have last := packed.upper there
  have below := packed.bump_le
  simp only [Arena.covers, Bool.and_eq_true, decide_eq_true_eq]
  omega

theorem unique (packed : Packed arena bump ext) {a b l k p : Nat}
    (first : ext a = some l) (second : ext b = some k)
    (inFirst : a ≤ p ∧ p < a + l) (inSecond : b ≤ p ∧ p < b + k) : a = b := by
  rcases Nat.lt_trichotomy a b with before | same | behind
  · have apart := packed.separate first second before
    omega
  · exact same
  · have apart := packed.separate second first behind
    omega

theorem ftDerive_eq (laws : cheri.Laws) (packed : Packed arena bump ext)
    {a l : Nat} (there : ext a = some l) :
    ftDerive cheri (some arena.base) a l = some (objectCap arena a l) := by
  have upper := packed.upper there
  have below := packed.bump_le
  exact ftDerive_objectCap laws (packed.rounded there) (packed.positive there)
    (packed.lower there) (by omega) (packed.aligned there)

end Packed

theorem memAllocate_bump {m m' : Machine} {size : Nat} {obj : Cap}
    (allocated : Collector.memAllocate arena m size = some (obj, m')) :
    ∃ bump, m' = { m with bumpOffset := bump } := by
  unfold Collector.memAllocate at allocated
  split at allocated
  · cases allocated
  · cases allocated
    exact ⟨_, rfl⟩

theorem memAllocate_eq_some (laws : cheri.Laws) {m m' : Machine} {ext : Extents}
    (packed : Packed arena m.bumpOffset ext) {size : Nat} {obj : Cap}
    (bytes : size * heapWordSize < addressSpace)
    (noWrap : NoWrap cheri m.bumpOffset
      (cheri.representableLength (size * heapWordSize)))
    (allocated : Collector.memAllocate arena m size = some (obj, m')) :
    ∃ start l bump, Fresh arena m.bumpOffset start l bump ∧
      Sized cheri size l ∧ obj = objectCap arena start l ∧
      m' = { m with bumpOffset := bump } := by
  unfold Collector.memAllocate at allocated
  rw [Nat.mod_eq_of_lt bytes] at allocated
  cases claimed : stoplessAlloc arena m.bumpOffset (size * heapWordSize) with
  | none =>
      simp only [claimed] at allocated
      cases allocated
  | some result =>
      obtain ⟨p, bump⟩ := result
      simp only [claimed] at allocated
      cases allocated
      obtain ⟨off, offset, bump_eq, fits, positive, aligned, obj_eq⟩ :=
        stoplessAlloc_eq_some laws noWrap claimed
      have long := laws.le_length (size * heapWordSize)
      have above := le_alignedOffset laws m.bumpOffset
        (cheri.representableLength (size * heapWordSize))
      have offWord : heapWordSize ∣ off := by
        rw [offset]
        exact pow_dvd_alignedOffset laws (k := 4) packed.bump_word _
      have lengthWord : heapWordSize ∣
          cheri.representableLength (size * heapWordSize) :=
        laws.length_dvd (e := 4) (Nat.dvd_mul_left heapWordSize size)
      have baseWord : heapWordSize ∣ arena.base.base :=
        Nat.dvd_trans (by decide) arena.paged
      refine ⟨_, _, bump, ?_, ?_, obj_eq, rfl⟩
      · constructor
        · omega
        · omega
        · exact fits
        · omega
        · exact laws.length_idem _
        · exact aligned
        · exact Nat.dvd_add baseWord offWord
        · rw [bump_eq]
          exact Nat.dvd_add offWord lengthWord
      · constructor
        · exact Nat.pos_of_mul_pos_right positive
        · exact bytes
        · rfl

namespace Heap

variable {ext : Extents} {m : Machine}

theorem unlinked (heap : Heap arena ext m) {a : Nat} (unused : ext a = none) :
    ftFind m.table a = none := by
  cases link : ftFind m.table a with
  | none => rfl
  | some pair =>
      rw [heap.source link] at unused
      cases unused

theorem ext_of_hops (heap : Heap arena ext m) {n a b : Nat}
    (hops : Hops (ftFind m.table) n a b) : ext a = ext b := by
  apply hops.preserves
  intro a b l linked
  rw [heap.source linked, heap.target linked]

/-- What a successful lookup returns: the last copy, rebuilt. -/
theorem lookup_sound (laws : cheri.Laws) (heap : Heap arena ext m) {key : Nat}
    {fwd : Cap}
    (found : forwardTableLookup cheri (some arena.base) m.table key =
      some fwd) :
    ∃ b l, fwd = objectCap arena b l ∧ ext b = some l ∧ ext key = some l ∧
      ftFind m.table key ≠ none ∧ Ends (ftFind m.table) key b := by
  unfold forwardTableLookup at found
  cases resolved : resolve (ftFind m.table) key with
  | none =>
      simp only [resolved] at found
      cases found
  | some pair =>
      obtain ⟨b, l⟩ := pair
      simp only [resolved] at found
      obtain ⟨present, ends, a, link⟩ := resolve_sound heap.upward resolved
      have there := heap.target link
      rw [heap.packed.ftDerive_eq laws there] at found
      cases found
      obtain ⟨n, hops⟩ := ends.1
      have sameLength := heap.ext_of_hops hops
      exact ⟨b, l, rfl, there, sameLength.trans there, present, ends⟩

theorem lookup_eq_none {key : Nat} (missing : ftFind m.table key = none) :
    forwardTableLookup cheri (some arena.base) m.table key = none := by
  simp only [forwardTableLookup, resolve_eq_none missing]

/-- Every chain ends: entries lead upwards and stay in allocated memory. -/
theorem exists_end (heap : Heap arena ext m) (key : Nat) :
    ∃ b, Ends (ftFind m.table) key b := by
  apply exists_end_of_rank (fun a => arena.base.base + m.bumpOffset - a)
  intro a b l linked
  have higher := heap.upward linked
  have upper := heap.packed.upper (heap.target linked)
  have positive := heap.packed.positive (heap.target linked)
  omega

theorem lookup_of_hops (laws : cheri.Laws) (heap : Heap arena ext m)
    {key b n : Nat} (present : ftFind m.table key ≠ none)
    (hops : Hops (ftFind m.table) n key b) (ended : ftFind m.table b = none)
    (short : n ≤ chaseMax) :
    ∃ l, ext b = some l ∧
      forwardTableLookup cheri (some arena.base) m.table key =
        some (objectCap arena b l) := by
  cases hops with
  | here => exact absurd ended present
  | @hop n _ a _ l linked rest =>
      obtain ⟨k, reached⟩ := chase_complete heap.upward rest ended l
        (Nat.lt_of_succ_le short)
      have resolved : resolve (ftFind m.table) key = some (b, k) := by
        simp only [resolve, linked, reached]
      obtain ⟨_, _, _, link⟩ := resolve_sound heap.upward resolved
      refine ⟨k, heap.target link, ?_⟩
      simp only [forwardTableLookup, resolved]
      exact heap.packed.ftDerive_eq laws (heap.target link)

theorem lookup_complete (laws : cheri.Laws) (heap : Heap arena ext m)
    (within : Within (ftFind m.table) chaseMax) {key : Nat}
    (present : ftFind m.table key ≠ none) :
    ∃ fwd, forwardTableLookup cheri (some arena.base) m.table key =
      some fwd := by
  obtain ⟨n, b, short, hops, ended⟩ := within.exists_end key
  obtain ⟨l, _, found⟩ := heap.lookup_of_hops laws present hops ended short
  exact ⟨_, found⟩

theorem ext_of_value (heap : Heap arena ext m) {p : Nat} {c : Cap}
    (word : m.mem p = .value c) : ext p = none := by
  cases there : ext p with
  | none => rfl
  | some l =>
      obtain ⟨klass, size, header, _⟩ := heap.headers there
      rw [word] at header
      cases header

theorem store (heap : Heap arena ext m) {p : Nat} (free : ext p = none)
    {c : Cap} (ok : CapOk arena ext c) :
    Heap arena ext (m.store p (.value c)) where
  packed := heap.packed
  headers := by
    intro a l there
    have elsewhere : a ≠ p := by
      intro same
      rw [same, free] at there
      cases there
    rw [m.store_mem_of_ne _ elsewhere]
    exact heap.headers there
  live := heap.live
  source := heap.source
  target := heap.target
  upward := heap.upward
  caps := heap.caps.store p ok

theorem setReg (heap : Heap arena ext m) (dst : Fin 30) {c : Cap}
    (ok : CapOk arena ext c) : Heap arena ext (Mutator.setReg m dst c) :=
  { heap with caps := heap.caps.setReg dst ok }

theorem extend (heap : Heap arena ext m) {start l bump : Nat}
    (fresh : Fresh arena m.bumpOffset start l bump) {m' : Machine}
    (bump_eq : m'.bumpOffset = bump) (table_eq : m'.table = m.table)
    (frame : ∀ p, p < start → m'.mem p = m.mem p)
    (header : ∃ klass size, m'.mem start = .header klass size ∧
      Sized cheri size l)
    (caps : m'.Every (CapOk arena ext)) :
    Heap arena (Function.update ext start (some l)) m' := by
  have grows := fresh.grows heap.packed
  constructor
  · rw [bump_eq]
    exact heap.packed.extend fresh
  · intro a k there
    rcases Fresh.update_cases there with ⟨rfl, rfl⟩ | ⟨_, old⟩
    · exact header
    · have below := fresh.below heap.packed old
      have positive := heap.packed.positive old
      rw [frame a (by omega)]
      exact heap.headers old
  · rw [table_eq]
    exact heap.live
  · intro a b k link
    rw [table_eq] at link
    exact grows (heap.source link)
  · intro a b k link
    rw [table_eq] at link
    exact grows (heap.target link)
  · rw [table_eq]
    exact heap.upward
  · exact caps.imp (fun ok => ok.grows grows)

theorem link (heap : Heap arena ext m) {table : State} {a b l : Nat}
    (old : ext a = some l) (new : ext b = some l) (higher : a < b)
    (live : Live table)
    (added : ftFind table = Function.update (ftFind m.table) a (some (b, l))) :
    Heap arena ext { m with table := table } := by
  have linkCases : ∀ {x y k}, ftFind table x = some (y, k) →
      (x = a ∧ y = b ∧ k = l) ∨ ftFind m.table x = some (y, k) := by
    intro x y k linked
    rw [added] at linked
    by_cases same : x = a
    · subst same
      rw [Function.update_self] at linked
      cases linked
      exact .inl ⟨rfl, rfl, rfl⟩
    · rw [Function.update_of_ne same] at linked
      exact .inr linked
  constructor
  · exact heap.packed
  · exact heap.headers
  · exact live
  · intro x y k linked
    rcases linkCases linked with ⟨rfl, _, rfl⟩ | before
    · exact old
    · exact heap.source before
  · intro x y k linked
    rcases linkCases linked with ⟨_, rfl, rfl⟩ | before
    · exact new
    · exact heap.target before
  · intro x y k linked
    rcases linkCases linked with ⟨rfl, rfl, _⟩ | before
    · exact higher
    · exact heap.upward before
  · exact ⟨heap.caps.mem, heap.caps.regs⟩

/-- Only lookups matter of the table. -/
theorem retable (heap : Heap arena ext m) {table : State} (live : Live table)
    (same : ftFind table = ftFind m.table) :
    Heap arena ext { m with table := table } := by
  constructor
  · exact heap.packed
  · exact heap.headers
  · exact live
  · intro a b l linked
    rw [show ftFind table = ftFind m.table from same] at linked
    exact heap.source linked
  · intro a b l linked
    rw [show ftFind table = ftFind m.table from same] at linked
    exact heap.target linked
  · intro a b l linked
    rw [show ftFind table = ftFind m.table from same] at linked
    exact heap.upward linked
  · exact ⟨heap.caps.mem, heap.caps.regs⟩

/-- A sweep takes tags and nothing else. -/
theorem sweep (heap : Heap arena ext m) : Heap arena ext (Collector.sweep m) := by
  constructor
  · exact heap.packed
  · intro a l there
    obtain ⟨klass, size, header, sized⟩ := heap.headers there
    refine ⟨klass, size, ?_, sized⟩
    change Collector.sweepWord m.shadow (m.mem a) = _
    rw [header]
    rfl
  · exact heap.live
  · exact heap.source
  · exact heap.target
  · exact heap.upward
  · apply heap.caps.sweep
    intro c ok
    rcases ok with ⟨n, rfl⟩ | based
    · exact .inl ⟨n, rfl⟩
    · exact .inr ⟨based.extent, based.perms, based.lower, based.upper⟩

end Heap

end StoplessGC
