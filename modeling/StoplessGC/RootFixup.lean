import StoplessGC.ForwardingGraph

/-!
# What a scan leaves in the root slots

`do_oop` repairs one slot at a time while it keeps moving objects.  A slot that
held an old reference is repaired to the last copy, and this copy may still be
moved through a later slot.  The theorem says that this, and a chain that the
lookup gives up on, are the only ways to leave a key of the table in a root
slot.
-/

namespace StoplessGC

open ForwardTable Allocator Forwarding Collector Mutator

variable {cheri : Intrinsics} {arena : Arena cheri}

/-- Why a visit leaves an object without an entry in place. -/
def Stays (arena : Arena cheri) (env : Env) (limit : Nat) (s : Scan)
    (o : Cap) : Prop :=
  limit ≤ s.moved ∨ ∃ klass size, s.machine.header o = some (klass, size) ∧
    (targeted env klass = false ∨ moveObject arena s.machine o size = none)

theorem doOop_outside {env : Env} {replies : Replies} {limit : Nat}
    {s s' : Scan} {p : Nat} {o : Cap}
    (ran : doOop arena env replies limit s p = .ok s')
    (word : s.machine.mem p = .value o)
    (outside : o.address = 0 ∨ isIn arena o = false) :
    s'.machine = s.machine := by
  unfold doOop at ran
  simp only [Machine.load, word] at ran
  by_cases null : o.address = 0
  · rw [if_pos null] at ran
    cases ran
    rfl
  · have notIn := outside.resolve_left null
    rw [if_neg null, if_pos (by simp [notIn])] at ran
    cases ran
    rfl

theorem doOop_forwarded {env : Env} {replies : Replies} {limit : Nat}
    {s s' : Scan} {p : Nat} {o fwd : Cap}
    (ran : doOop arena env replies limit s p = .ok s')
    (word : s.machine.mem p = .value o) (nonnull : o.address ≠ 0)
    (inArena : isIn arena o = true)
    (found : forwardTableLookup cheri (some arena.base) s.machine.table
      o.address = some fwd) :
    s'.machine = fix env s.machine p fwd := by
  unfold doOop at ran
  simp only [Machine.load, word, if_neg nonnull, inArena, found, Bool.not_true,
    Bool.false_eq_true, if_false] at ran
  cases ran
  exact fixup_machine ..

/-- An object that the table does not return is moved, or left in place. -/
theorem doOop_unforwarded {env : Env} {replies : Replies} {limit : Nat}
    {s s' : Scan} {p : Nat} {o : Cap}
    (ran : doOop arena env replies limit s p = .ok s')
    (word : s.machine.mem p = .value o) (nonnull : o.address ≠ 0)
    (inArena : isIn arena o = true)
    (missing : forwardTableLookup cheri (some arena.base) s.machine.table
      o.address = none) :
    Reaches arena env limit s p o ∨
      s'.machine = s.machine ∧ Stays arena env limit s o := by
  unfold doOop at ran
  simp only [Machine.load, word, if_neg nonnull, inArena, missing, Bool.not_true,
    Bool.false_eq_true, if_false] at ran
  by_cases reached : limit ≤ s.moved
  · rw [if_pos reached] at ran
    cases ran
    exact .inr ⟨rfl, .inl reached⟩
  rw [if_neg reached] at ran
  cases header : s.machine.header o with
  | none =>
      simp only [header] at ran
      cases ran
  | some answer =>
      obtain ⟨klass, size⟩ := answer
      simp only [header] at ran
      by_cases wanted : targeted env klass = true
      case neg =>
        rw [if_neg wanted] at ran
        cases ran
        exact .inr ⟨rfl, .inr ⟨klass, size, header,
          .inl (Bool.eq_false_of_not_eq_true wanted)⟩⟩
      rw [if_pos wanted, relocate] at ran
      cases copied : moveObject arena s.machine o size with
      | none =>
          simp only [copied] at ran
          cases ran
          exact .inr ⟨rfl, .inr ⟨klass, size, header, .inr copied⟩⟩
      | some result =>
          left
          exact
            { word := word
              nonnull := nonnull
              inArena := inArena
              unforwarded := missing
              below := Nat.lt_of_not_le reached
              copied := ⟨klass, size, header, wanted, by
                rw [copied]; exact Option.some_ne_none _⟩ }

theorem Machine.header_eq_some {m : Machine} {o : Cap} {klass : Option Klass}
    {size : Nat} (header : m.header o = some (klass, size)) :
    m.mem o.address = .header klass size := by
  unfold Machine.header Machine.load at header
  split at header
  · cases word : m.mem o.address with
    | header klass' size' =>
        rw [word] at header
        cases header
        rfl
    | value c =>
        rw [word] at header
        cases header
  · cases header

/-- Where an allocation fails, it also fails behind. -/
theorem Allocator.stoplessAlloc_exhausted (laws : cheri.Laws)
    {bump bump' sizeBytes : Nat} (later : bump ≤ bump')
    (noWrap : NoWrap cheri bump' (cheri.representableLength sizeBytes))
    (refused : stoplessAlloc arena bump sizeBytes = none) :
    stoplessAlloc arena bump' sizeBytes = none := by
  have further : alignedOffset cheri bump (cheri.representableLength sizeBytes) ≤
      alignedOffset cheri bump' (cheri.representableLength sizeBytes) :=
    Alignment.up_mono _ later
  have noWrap' : NoWrap cheri bump (cheri.representableLength sizeBytes) := by
    rw [NoWrap] at noWrap ⊢
    omega
  simp only [stoplessAlloc, noWrap.roundedLength_eq,
    newOffset_eq laws noWrap'] at refused
  simp only [stoplessAlloc, noWrap.roundedLength_eq, newOffset_eq laws noWrap]
  split at refused
  · rename_i rejected
    rw [if_pos rejected]
  · rename_i accepted
    rw [if_neg accepted]
    split at refused
    · rw [if_pos (by omega)]
    · cases refused

theorem moveObject_exhausted (laws : cheri.Laws) {ext : Extents}
    {m m' : Machine} (heap : Heap arena ext m') {o : Cap} {size l : Nat}
    (there : ext o.address = some l) (sized : Sized cheri size l)
    (later : m.bumpOffset ≤ m'.bumpOffset)
    (refused : moveObject arena m o size = none) (o' : Cap) :
    moveObject arena m' o' size = none := by
  have upper := heap.packed.upper there
  have lower := heap.packed.lower there
  have bumped := heap.packed.bump_le
  have noWrap : NoWrap cheri m'.bumpOffset
      (cheri.representableLength (size * heapWordSize)) := by
    apply noWrap_of_le laws arena bumped
    rw [sized.length]
    omega
  unfold moveObject memAllocate at refused ⊢
  rw [Nat.mod_eq_of_lt sized.bytes] at refused ⊢
  cases allocated : stoplessAlloc arena m.bumpOffset (size * heapWordSize) with
  | some result =>
      simp only [allocated] at refused
      cases refused
  | none =>
      simp only [stoplessAlloc_exhausted laws later noWrap allocated]

/-- A scan in the middle, with the slots that are still to be visited: they
hold what they held at the start. -/
structure Midway (arena : Arena cheri) (ext₀ : Extents) (m₀ : Machine)
    (rest : List Nat) (ext : Extents) (m : Machine) : Prop where
  heap : Heap arena ext m
  grows : ext₀.Grows ext
  slots : ∀ q, q ∈ rest → RootSlot arena m q
  same : ∀ q, q ∈ rest → m.mem q = m₀.mem q
  larger : Extends (ftFind m₀.table) (ftFind m.table)
  links : NewLinks (fun a => ext₀ a ≠ none) (ftFind m₀.table)
    (ftFind m.table)
  first : Heap arena ext₀ m₀

namespace Midway

variable {ext₀ ext ext' : Extents} {m₀ m m' : Machine} {rest : List Nat}

theorem start (heap : Heap arena ext m)
    (slots : ∀ q, q ∈ rest → RootSlot arena m q) :
    Midway arena ext m rest ext m where
  heap := heap
  grows := fun _ _ there => there
  slots := slots
  same := fun _ _ => rfl
  larger := .refl _
  links := fun _ _ _ linked => .inl linked
  first := heap

theorem based (mid : Midway arena ext₀ m₀ rest ext m) {q : Nat}
    (member : q ∈ rest) {o : Cap} (word : m.mem q = .value o)
    (inArena : isIn arena o = true) :
    Based arena ext₀ o ∧ o.address = o.base := by
  have before : m₀.mem q = .value o := by
    rw [← mid.same q member, word]
  have starts := (mid.heap.based_of_root (mid.slots q member) word inArena).2
  refine ⟨?_, starts⟩
  rcases mid.first.caps.mem before with ⟨n, rfl⟩ | based
  · exfalso
    have lower : arena.base.base ≤ n := (isIn_iff.mp inArena).1
    have zero : n = 0 := starts
    have positive := Nat.pos_of_ne_zero arena.nonnull
    omega
  · exact based

theorem visit (laws : cheri.Laws) {env : Env} {granted : Bool} {lossy : Prop}
    {p : Nat} {news : List Cap}
    (mid : Midway arena ext₀ m₀ (p :: rest) ext m) (new : p ∉ rest)
    (visit : Visit arena env granted lossy p ext m ext' m' news) :
    Midway arena ext₀ m₀ rest ext' m' := by
  have root := mid.slots p List.mem_cons_self
  constructor
  · exact visit.heap laws mid.heap root
  · exact fun _ _ there => visit.grows mid.heap (mid.grows there)
  · intro q member
    exact visit.rootSlot laws (mid.slots q (List.mem_cons_of_mem p member))
  · intro q member
    have elsewhere : q ≠ p := fun same => new (same ▸ member)
    rw [visit.frame laws (mid.slots q (List.mem_cons_of_mem p member)) elsewhere]
    exact mid.same q (List.mem_cons_of_mem p member)
  · exact mid.larger.trans visit.extends
  · cases visit with
    | quiet => exact mid.links
    | fixed word based atStart present ends there =>
        rw [fix_table]
        exact mid.links
    | @moved o size start bump table moves absent room live added =>
        rw [fix_table, added]
        have unused := moves.fresh.unused mid.heap.packed
        have old : ext₀ o.base ≠ none := by
          have inArena : isIn arena o = true := by
            have there := mid.heap.packed.isIn_objectCap moves.based.extent
            rw [isIn_iff] at there ⊢
            rw [moves.atStart]
            exact there
          rw [(mid.based List.mem_cons_self moves.word inArena).1.extent]
          exact Option.some_ne_none _
        have startNew : ext₀ start = none := by
          cases there : ext₀ start with
          | none => rfl
          | some l =>
              rw [mid.grows there] at unused
              cases unused
        intro a b l linked
        by_cases here : a = o.base
        · subst here
          rw [Function.update_self] at linked
          cases linked
          have apart : start ≠ o.base := by
            intro same
            rw [same] at startNew
            exact old startNew
          refine .inr ⟨not_not_intro startNew, ?_⟩
          rw [Function.update_of_ne apart]
          exact mid.heap.unlinked unused
        · rw [Function.update_of_ne here] at linked
          rcases mid.links linked with before | ⟨fresh, ended⟩
          · exact .inl before
          · have apart : b ≠ o.base := by
              intro same
              rw [same] at fresh
              exact fresh old
            rw [Function.update_of_ne apart]
            exact .inr ⟨fresh, ended⟩
    | lost loses moves missing live same =>
        rw [fix_table, same]
        exact mid.links
  · exact mid.first

theorem visits (laws : cheri.Laws) {env : Env} {granted : Bool} {lossy : Prop}
    {before after : List Nat} {all : List Cap}
    (visits : Visits arena env granted lossy before ext m ext' m' all)
    (mid : Midway arena ext₀ m₀ (before ++ after) ext m)
    (distinct : (before ++ after).Nodup) :
    Midway arena ext₀ m₀ after ext' m' := by
  induction visits with
  | nil => exact mid
  | cons visit _ ih =>
      rw [List.cons_append, List.nodup_cons] at distinct
      exact ih (mid.visit laws distinct.1 visit) distinct.2

end Midway

theorem Visits.frame (laws : cheri.Laws) {env : Env} {granted : Bool}
    {lossy : Prop} {roots : List Nat} {ext ext' : Extents} {m m' : Machine}
    {all : List Cap}
    (visits : Visits arena env granted lossy roots ext m ext' m' all) {q : Nat}
    (root : RootSlot arena m q) (other : q ∉ roots) : m'.mem q = m.mem q := by
  induction visits with
  | nil => rfl
  | cons visit _ ih =>
      rw [List.mem_cons, not_or] at other
      rw [ih (visit.rootSlot laws root) other.2, visit.frame laws root other.1]

theorem Visits.kept (laws : cheri.Laws) {env : Env} {granted : Bool}
    {lossy : Prop} {roots : List Nat} {ext ext' : Extents} {m m' : Machine}
    {all : List Cap}
    (visits : Visits arena env granted lossy roots ext m ext' m' all)
    (heap : Heap arena ext m) (slots : ∀ p, p ∈ roots → RootSlot arena m p)
    {a l : Nat} (there : ext a = some l) :
    m'.mem a = m.mem a ∧ m.bumpOffset ≤ m'.bumpOffset ∧
      ext' a = some l := by
  have kept := (visits.invariant laws (fun ext₁ m₁ _ => m₁.mem a = m.mem a ∧
      m.bumpOffset ≤ m₁.bumpOffset ∧ ext₁ a = some l) ?_ heap slots []
    ⟨rfl, Nat.le_refl _, there⟩).2
  · exact kept
  · intro p ext m₁ ext' m' done news heap root visit before
    obtain ⟨header, bump, still⟩ := before
    refine ⟨?_, bump.trans visit.bump_le, visit.grows heap still⟩
    rw [visit.header laws heap still, header]

/-- A key that a visit adds is the address it moves from. -/
theorem doOop_adds (laws : cheri.Laws) {env : Env} {replies : Replies}
    {limit : Nat} {ext : Extents} {s s' : Scan} {p key : Nat}
    (heap : Heap arena ext s.machine) (root : RootSlot arena s.machine p)
    (ran : doOop arena env replies limit s p = .ok s')
    (absent : ftFind s.machine.table key = none)
    (present : ftFind s'.machine.table key ≠ none) :
    ∃ o, Reaches arena env limit s p o ∧ o.address = key := by
  cases doOop_cases ran with
  | quiet machine_eq =>
      rw [machine_eq] at present
      exact absurd absent present
  | fixed word inArena looked machine_eq =>
      rw [machine_eq, fix_table] at present
      exact absurd absent present
  | @inserted o o2 klass size m table fwd reaches header copied entered
      machine_eq =>
      obtain ⟨start, bump, moves, rfl, outcome⟩ :=
        heap.inserted laws root reaches header copied entered
      rw [machine_eq, fix_table] at present
      refine ⟨o, reaches, ?_⟩
      rw [moves.atStart]
      by_contra other
      apply present
      cases outcome with
      | added missing room live added =>
          change ftFind table key = none
          rw [added, Function.update_of_ne (Ne.symm other), absent]
      | found known live same =>
          change ftFind table key = none
          rw [same, absent]
      | full missing noRoom live same =>
          change ftFind table key = none
          rw [same, absent]

theorem scanRoots_moved_le {env : Env} {replies : Replies} {limit : Nat}
    {roots : List Nat} {s s' : Scan}
    (ran : scanRoots arena env replies limit roots s = .ok s') :
    s.moved ≤ s'.moved := by
  induction roots generalizing s with
  | nil =>
      cases ran
      exact Nat.le_refl _
  | cons p rest ih =>
      obtain ⟨s₁, visited, later⟩ := scanRoots_cons ran
      refine Nat.le_trans ?_ (ih later)
      rcases doOop_count visited with ⟨same, _⟩ | ⟨_, more, _⟩ <;> omega

/-- The scans that are considered: distinct root slots of a well-formed heap,
with fixup, and with room in the table at every insertion. -/
structure Scanned (arena : Arena cheri) (env : Env) (replies : Replies)
    (limit : Nat) (roots : List Nat) (ext₀ : Extents) (m₀ : Machine)
    (s : Scan) : Prop where
  heap : Heap arena ext₀ m₀
  injective : Injective (ftFind m₀.table)
  distinct : roots.Nodup
  slots : ∀ p, p ∈ roots → RootSlot arena m₀ p
  fixes : env.noFixup = false
  room : AtInsertion arena env replies limit roots (Scan.start m₀)
    (fun table _ => HasRoom replies.callocInsert table)
  ran : scanRoots arena env replies limit roots (Scan.start m₀) = .ok s

section Scanned

variable {env : Env} {replies : Replies} {limit : Nat} {roots : List Nat}
  {ext₀ : Extents} {m₀ : Machine} {s : Scan}

theorem Scanned.midway (laws : cheri.Laws)
    (scan : Scanned arena env replies limit roots ext₀ m₀ s)
    {before after : List Nat} {s₁ : Scan} (split : roots = before ++ after)
    (early : scanRoots arena env replies limit before (Scan.start m₀) =
      .ok s₁) : ∃ ext₁, Midway arena ext₀ m₀ after ext₁ s₁.machine := by
  have slots := scan.slots
  have distinct := scan.distinct
  rw [split] at slots distinct
  have first : ∀ q, q ∈ before → RootSlot arena (Scan.start m₀).machine q :=
    fun q member => slots q (List.mem_append_left _ member)
  obtain ⟨ext₁, _, visits, _⟩ := scanRoots_visits laws
    (show Heap arena ext₀ (Scan.start m₀).machine from scan.heap) first
    (AtInsertion.trivial ..) early
  exact ⟨ext₁, Midway.visits laws visits (.start scan.heap slots) distinct⟩

theorem Midway.rest (laws : cheri.Laws) {after : List Nat} {ext₁ : Extents}
    {s₁ : Scan} (mid : Midway arena ext₀ m₀ after ext₁ s₁.machine)
    (later : scanRoots arena env replies limit after s₁ = .ok s) :
    ∃ ext all, Visits arena env replies.callocInsert True after ext₁ s₁.machine
      ext s.machine all := by
  obtain ⟨ext, all, visits, _⟩ := scanRoots_visits laws mid.heap mid.slots
    (AtInsertion.trivial ..) later
  exact ⟨ext, all, visits⟩

theorem scanRoots_adds (laws : cheri.Laws) {after : List Nat} {ext₁ : Extents}
    {s₁ : Scan} {key : Nat} (distinct : after.Nodup)
    (mid : Midway arena ext₀ m₀ after ext₁ s₁.machine)
    (later : scanRoots arena env replies limit after s₁ = .ok s)
    (absent : ftFind s₁.machine.table key = none)
    (present : ftFind s.machine.table key ≠ none) :
    ∃ middle rest p s₂ o, after = middle ++ p :: rest ∧
      scanRoots arena env replies limit middle s₁ = .ok s₂ ∧
      Reaches arena env limit s₂ p o ∧ o.address = key ∧
      ext₀ key ≠ none := by
  induction after generalizing s₁ ext₁ with
  | nil =>
      cases later
      exact absurd absent present
  | cons p rest ih =>
      obtain ⟨s₂, visited, further⟩ := scanRoots_cons later
      have root := mid.slots p List.mem_cons_self
      by_cases here : ftFind s₂.machine.table key = none
      · obtain ⟨ext₂, news, visit, _⟩ := doOop_visit laws mid.heap root
          (fun _ _ => .inl True.intro) visited
        rw [List.nodup_cons] at distinct
        obtain ⟨middle, rest', p', s₃, o, split, ran, reaches, address, old⟩ :=
          ih distinct.2 (mid.visit laws distinct.1 visit) further here
        refine ⟨p :: middle, rest', p', s₃, o, ?_, ?_, reaches, address, old⟩
        · rw [split, List.cons_append]
        · rw [scanRoots, visited]
          exact ran
      · obtain ⟨o, reaches, address⟩ :=
          doOop_adds laws mid.heap root visited absent here
        refine ⟨[], rest, p, s₁, o, rfl, rfl, reaches, address, ?_⟩
        obtain ⟨based, atStart⟩ :=
          mid.based List.mem_cons_self reaches.word reaches.inArena
        rw [← address, atStart, based.extent]
        exact Option.some_ne_none _

end Scanned

/-- Fixup is complete: no root slot holds a key, a slot whose object has been
relocated holds the capability of the current copy, and slots with arena
references hold equal addresses exactly when these were to the same object. -/
structure FixupComplete (arena : Arena cheri) (roots : List Nat)
    (m m' : Machine) : Prop where
  current : ∀ {p c}, p ∈ roots → m'.mem p = .value c →
    ftFind m'.table c.address = none
  copies : ∀ {p o}, p ∈ roots → m.mem p = .value o →
    ftFind m'.table o.address ≠ none →
    ∃ b l, Ends (ftFind m'.table) o.address b ∧ ObjectAt arena m' b l ∧
      m'.mem p = .value (objectCap arena b l)
  identity : ∀ {p q o o' c d}, p ∈ roots → q ∈ roots →
    m.mem p = .value o → m.mem q = .value o' →
    isIn arena o = true → isIn arena o' = true →
    m'.mem p = .value c → m'.mem q = .value d →
    (c.address = d.address ↔ ∃ e, Ends (ftFind m.table) o.address e ∧
      Ends (ftFind m.table) o'.address e)

/-- The condition: the lookup follows the chain of every key that a visit
finds, and no visit moves a copy to which an earlier slot with an old reference
has been repaired. -/
structure RootsSettle (arena : Arena cheri) (env : Env) (replies : Replies)
    (limit : Nat) (roots : List Nat) (m : Machine) : Prop where
  resolves : ∀ {before after p s o}, roots = before ++ p :: after →
    scanRoots arena env replies limit before (Scan.start m) = .ok s →
    s.machine.mem p = .value o → isIn arena o = true →
    ftFind s.machine.table o.address ≠ none →
    forwardTableLookup cheri (some arena.base) s.machine.table o.address ≠ none
  apart : ∀ {before after p s o q c}, roots = before ++ p :: after →
    scanRoots arena env replies limit before (Scan.start m) = .ok s →
    Reaches arena env limit s p o → q ∈ before → m.mem q = .value c →
    ftFind m.table c.address ≠ none → ¬ Ends (ftFind m.table) c.address o.address

section Settle

variable {env : Env} {replies : Replies} {limit : Nat} {roots : List Nat}
  {ext₀ : Extents} {m₀ : Machine} {s : Scan}

/-- The visit of one slot in a scan. -/
structure Cut (arena : Arena cheri) (env : Env) (replies : Replies)
    (limit : Nat) (roots : List Nat) (ext₀ : Extents) (m₀ : Machine) (s : Scan)
    (before : List Nat) (p : Nat) (after : List Nat) (ext₁ : Extents)
    (s₁ s₂ : Scan) : Prop where
  split : roots = before ++ p :: after
  early : scanRoots arena env replies limit before (Scan.start m₀) = .ok s₁
  mid : Midway arena ext₀ m₀ (p :: after) ext₁ s₁.machine
  visited : doOop arena env replies limit s₁ p = .ok s₂
  later : scanRoots arena env replies limit after s₂ = .ok s
  final : s.machine.mem p = s₂.machine.mem p
  distinct : after.Nodup
  next : ∃ ext₂, Midway arena ext₀ m₀ after ext₂ s₂.machine
  larger : Extends (ftFind s₁.machine.table) (ftFind s.machine.table)

theorem Scanned.cut (laws : cheri.Laws)
    (scan : Scanned arena env replies limit roots ext₀ m₀ s)
    {before after : List Nat} {p : Nat} (split : roots = before ++ p :: after) :
    ∃ ext₁ s₁ s₂, Cut arena env replies limit roots ext₀ m₀ s before p after
      ext₁ s₁ s₂ := by
  have ran := scan.ran
  rw [split] at ran
  obtain ⟨s₁, s₂, early, visited, later⟩ := scanRoots_split ran
  obtain ⟨ext₁, mid⟩ := scan.midway laws split early
  have distinct := scan.distinct
  rw [split] at distinct
  have tail := List.nodup_cons.mp (List.nodup_append.mp distinct).2.1
  have root := mid.slots p List.mem_cons_self
  obtain ⟨ext₂, news, visit, _⟩ := doOop_visit laws mid.heap root
    (fun _ _ => .inl True.intro) visited
  have next := mid.visit laws tail.1 visit
  obtain ⟨ext, all, visits⟩ := next.rest laws later
  refine ⟨ext₁, s₁, s₂, split, early, mid, visited, later, ?_, tail.2,
    ⟨ext₂, next⟩, visit.extends.trans visits.extends⟩
  exact visits.frame laws (visit.rootSlot laws root) tail.1

namespace Cut

variable {before after : List Nat} {p : Nat} {ext₁ : Extents} {s₁ s₂ : Scan}

theorem word (cut : Cut arena env replies limit roots ext₀ m₀ s before p after
      ext₁ s₁ s₂) : s₁.machine.mem p = m₀.mem p :=
  cut.mid.same p List.mem_cons_self

/-- A key that comes later is an old copy, and was moved through a later
slot. -/
theorem moved_later (laws : cheri.Laws)
    (cut : Cut arena env replies limit roots ext₀ m₀ s before p after ext₁
      s₁ s₂) {key : Nat} (absent : ftFind s₂.machine.table key = none)
    (present : ftFind s.machine.table key ≠ none) :
    ∃ middle rest q s₃ o, roots = (before ++ p :: middle) ++ q :: rest ∧
      scanRoots arena env replies limit (before ++ p :: middle)
        (Scan.start m₀) = .ok s₃ ∧
      scanRoots arena env replies limit middle s₂ = .ok s₃ ∧
      (∃ ext₂, Midway arena ext₀ m₀ after ext₂ s₂.machine ∧
        after = middle ++ q :: rest) ∧
      Reaches arena env limit s₃ q o ∧ o.address = key ∧ ext₀ key ≠ none := by
  obtain ⟨ext₂, next⟩ := cut.next
  obtain ⟨middle, rest, q, s₃, o, split, ran, reaches, address, old⟩ :=
    scanRoots_adds laws cut.distinct next cut.later absent present
  refine ⟨middle, rest, q, s₃, o, ?_, ?_, ran, ⟨ext₂, next, split⟩, reaches,
    address, old⟩
  · rw [cut.split, split]
    simp
  · rw [scanRoots_append cut.early, scanRoots, cut.visited]
    exact ran

theorem stays_unmoved (laws : cheri.Laws)
    (cut : Cut arena env replies limit roots ext₀ m₀ s before p after ext₁
      s₁ s₂) {o : Cap} (based : Based arena ext₁ o) (atStart : o.address = o.base)
    (quiet : s₂.machine = s₁.machine) (stays : Stays arena env limit s₁ o)
    (absent : ftFind s₁.machine.table o.address = none) :
    ftFind s.machine.table o.address = none := by
  by_contra present
  rw [← quiet] at absent
  obtain ⟨middle, rest, q, s₃, o', _, _, ran, ⟨ext₂, next, split⟩, reaches,
    address, _⟩ := cut.moved_later laws absent present
  have slots : ∀ r, r ∈ middle → RootSlot arena s₂.machine r := by
    intro r member
    rw [split] at next
    exact next.slots r (List.mem_append_left _ member)
  have heap : Heap arena ext₁ s₂.machine := by
    rw [quiet]
    exact cut.mid.heap
  obtain ⟨ext₃, _, visits, _⟩ := scanRoots_visits laws heap slots
    (AtInsertion.trivial ..) ran
  have there : ext₁ o.address = some o.length := by
    rw [atStart]
    exact based.extent
  obtain ⟨header₃, bumps, there₃⟩ := visits.kept laws heap slots there
  have after₃ := (visits.invariant laws (fun _ _ _ => True)
    (fun _ _ _ _ => trivial) heap slots [] trivial).1
  obtain ⟨klass', size', header', wanted, available⟩ := reaches.copied
  rcases stays with reached | ⟨klass, size, header, stuck⟩
  · have below := reaches.below
    have later := scanRoots_moved_le ran
    have more : s₁.moved ≤ s₂.moved := by
      rcases doOop_count cut.visited with ⟨same, _⟩ | ⟨_, more, _⟩ <;> omega
    omega
  · have first := Machine.header_eq_some header
    have second := Machine.header_eq_some header'
    rw [address, header₃, quiet, first] at second
    cases second
    rcases stuck with skipped | refused
    · rw [wanted] at skipped
      cases skipped
    · obtain ⟨_, _, first', sized⟩ := cut.mid.heap.headers there
      rw [first] at first'
      cases first'
      rw [quiet] at bumps
      exact available
        (moveObject_exhausted laws after₃ there₃ sized bumps refused o')

end Cut

theorem Heap.isIn_of_key {ext : Extents} {m : Machine}
    (heap : Heap arena ext m) {o : Cap}
    (present : ftFind m.table o.address ≠ none) :
    o.address ≠ 0 ∧ isIn arena o = true := by
  obtain ⟨⟨b, l⟩, link⟩ := Option.ne_none_iff_exists'.mp present
  have there := heap.source link
  exact ⟨heap.packed.nonzero there,
    heap.packed.isIn_objectCap there⟩

/-- What a slot holds in the end that held `o` at the start. -/
structure Settled (arena : Arena cheri) (m' : Machine) (p : Nat) (o c : Cap) :
    Prop where
  held : m'.mem p = .value c
  current : ftFind m'.table c.address = none
  ends : isIn arena o = true → Ends (ftFind m'.table) o.address c.address
  copy : ftFind m'.table o.address ≠ none →
    ∃ l, ObjectAt arena m' c.address l ∧ c = objectCap arena c.address l

namespace Cut

variable {before after : List Nat} {p : Nat} {ext₁ : Extents} {s₁ s₂ : Scan}

theorem objectAt (laws : cheri.Laws)
    (cut : Cut arena env replies limit roots ext₀ m₀ s before p after ext₁
      s₁ s₂) {ext₂ : Extents} (heap : Heap arena ext₂ s₂.machine)
    (slots : ∀ q, q ∈ after → RootSlot arena s₂.machine q) {b l : Nat}
    (there : ext₂ b = some l) : ObjectAt arena s.machine b l := by
  obtain ⟨ext, all, visits, _⟩ := scanRoots_visits laws heap slots
    (AtInsertion.trivial ..) cut.later
  have still := (visits.kept laws heap slots there).2.2
  exact (visits.invariant laws (fun _ _ _ => True)
    (fun _ _ _ _ => trivial) heap slots [] trivial).1.objectAt still

/-- A repaired slot: no later slot may move the copy it now refers to. -/
theorem repaired (laws : cheri.Laws)
    (scan : Scanned arena env replies limit roots ext₀ m₀ s)
    (cut : Cut arena env replies limit roots ext₀ m₀ s before p after ext₁
      s₁ s₂) (settle : RootsSettle arena env replies limit roots m₀) {o fwd : Cap}
    (start : m₀.mem p = .value o) (nonnull : o.address ≠ 0)
    (inArena : isIn arena o = true)
    (looked : forwardTableLookup cheri (some arena.base) s₁.machine.table
      o.address = some fwd) : Settled arena s.machine p o fwd := by
  have mid := cut.mid
  obtain ⟨b, l, rfl, there, _, present, ends⟩ :=
    mid.heap.lookup_sound laws looked
  have machine_eq := doOop_forwarded cut.visited (cut.word.trans start) nonnull
    inArena looked
  have current : ftFind s.machine.table b = none := by
    by_contra moved
    have absent : ftFind s₂.machine.table b = none := by
      rw [machine_eq, fix_table]
      exact ends.2
    obtain ⟨middle, rest, q, s₃, o', whole, ran, _, _, reaches, address, old⟩ :=
      cut.moved_later laws absent moved
    obtain ⟨⟨n, hops⟩, ended⟩ := ends
    have oldHops := hops.of_newLinks mid.links old
    have oldEnd : ftFind m₀.table b = none := by
      cases link : ftFind m₀.table b with
      | none => rfl
      | some pair =>
          rw [mid.larger link] at ended
          cases ended
    have key : ftFind m₀.table o.address ≠ none := by
      cases oldHops with
      | here => exact absurd ended present
      | hop linked _ =>
          rw [linked]
          exact Option.some_ne_none _
    refine settle.apart whole ran reaches (by simp) start key ?_
    rw [address]
    exact ⟨⟨n, oldHops⟩, oldEnd⟩
  have slot := mid.heap.ext_of_value (cut.word.trans start)
  have heap : Heap arena ext₁ s₂.machine := by
    rw [machine_eq]
    exact mid.heap.fix slot (.inr (based_objectCap there))
  obtain ⟨_, next⟩ := cut.next
  constructor
  · rw [cut.final, machine_eq, fix, if_neg (by simp [scan.fixes])]
    exact Machine.store_mem_self ..
  · exact current
  · intro _
    exact ⟨ends.1.mono cut.larger, current⟩
  · intro _
    exact ⟨l, cut.objectAt laws heap next.slots there, rfl⟩

theorem inserts (laws : cheri.Laws)
    (scan : Scanned arena env replies limit roots ext₀ m₀ s)
    (cut : Cut arena env replies limit roots ext₀ m₀ s before p after ext₁
      s₁ s₂) {o : Cap} (reaches : Reaches arena env limit s₁ p o)
    (absent : ftFind s₁.machine.table o.address = none) :
    ∃ start, ftFind s₂.machine.table o.address = some (start, o.length) ∧
      s.machine.mem p = .value (objectCap arena start o.length) := by
  have mid := cut.mid
  have root := mid.slots p List.mem_cons_self
  obtain ⟨klass, size, o2, m, table, fwd, header, copied, entered, machine_eq,
    _, _⟩ := reaches.inserts cut.visited
  obtain ⟨start, bump, moves, rfl, outcome⟩ :=
    mid.heap.inserted laws root reaches header copied entered
  have room := scan.room cut.split cut.early reaches
  cases outcome with
  | found present live same =>
      rw [moves.atStart] at absent
      exact absurd absent present
  | full missing noRoom live same => exact absurd room noRoom
  | added missing hasRoom live added =>
      have packed := mid.heap.packed.extend moves.fresh
      rw [show ftDerive cheri (some arena.base)
          (objectCap arena start o.length).address
          (objectCap arena start o.length).length =
          some (objectCap arena start o.length) from
        packed.ftDerive_eq laws (Function.update_self ..)] at machine_eq
      refine ⟨start, ?_, ?_⟩
      · rw [machine_eq, fix_table, moves.atStart]
        change ftFind table o.base = _
        rw [added, Function.update_self]
        rfl
      · rw [cut.final, machine_eq, fix, if_neg (by simp [scan.fixes])]
        exact Machine.store_mem_self ..

theorem copied (laws : cheri.Laws)
    (scan : Scanned arena env replies limit roots ext₀ m₀ s)
    (cut : Cut arena env replies limit roots ext₀ m₀ s before p after ext₁
      s₁ s₂) {o : Cap} (reaches : Reaches arena env limit s₁ p o)
    (absent : ftFind s₁.machine.table o.address = none) :
    ∃ c, Settled arena s.machine p o c := by
  obtain ⟨start, linked, held⟩ := cut.inserts laws scan reaches absent
  obtain ⟨ext₂, next⟩ := cut.next
  have there : ext₂ start = some o.length := next.heap.target linked
  have new : ¬ ext₀ start ≠ none ∧ ftFind s₂.machine.table start = none := by
    rcases next.links linked with before | new
    · rw [cut.mid.larger before] at absent
      cases absent
    · exact new
  have current : ftFind s.machine.table start = none := by
    by_contra moved
    obtain ⟨_, _, _, _, _, _, _, _, _, _, _, old⟩ :=
      cut.moved_later laws new.2 moved
    exact new.1 old
  obtain ⟨ext, all, visits⟩ := next.rest laws cut.later
  refine ⟨objectCap arena start o.length, held, current, ?_, ?_⟩
  · intro _
    exact ⟨.single (visits.extends linked), current⟩
  · intro _
    exact ⟨o.length, cut.objectAt laws next.heap next.slots there, rfl⟩

end Cut

theorem RootsSettle.slot (laws : cheri.Laws)
    (scan : Scanned arena env replies limit roots ext₀ m₀ s)
    (settle : RootsSettle arena env replies limit roots m₀) {p : Nat} {o : Cap}
    (member : p ∈ roots) (start : m₀.mem p = .value o) :
    ∃ c, Settled arena s.machine p o c := by
  obtain ⟨before, after, split⟩ := List.append_of_mem member
  obtain ⟨ext₁, s₁, s₂, cut⟩ := scan.cut laws split
  obtain ⟨ext', done⟩ := scan.midway laws (List.append_nil roots).symm scan.ran
  have word : s₁.machine.mem p = .value o := cut.word.trans start
  have leaves : s₂.machine = s₁.machine →
      ftFind s.machine.table o.address = none →
      Settled arena s.machine p o o := by
    intro quiet noKey
    refine ⟨?_, noKey, fun _ => ⟨.refl _, noKey⟩,
      fun present => absurd noKey present⟩
    rw [cut.final, quiet, word]
  by_cases arenaRef : o.address ≠ 0 ∧ isIn arena o = true
  · obtain ⟨nonnull, inArena⟩ := arenaRef
    obtain ⟨based, atStart⟩ := cut.mid.heap.based_of_root
      (cut.mid.slots p List.mem_cons_self) word inArena
    cases looked : forwardTableLookup cheri (some arena.base) s₁.machine.table
        o.address with
    | some fwd =>
        exact ⟨fwd, cut.repaired laws scan settle start nonnull inArena looked⟩
    | none =>
        have absent : ftFind s₁.machine.table o.address = none := by
          by_contra present
          exact settle.resolves split cut.early word inArena present looked
        rcases doOop_unforwarded cut.visited word nonnull inArena looked with
          reaches | ⟨quiet, stays⟩
        · exact cut.copied laws scan reaches absent
        · exact ⟨o, leaves quiet
            (cut.stays_unmoved laws based atStart quiet stays absent)⟩
  · have outside : o.address = 0 ∨ isIn arena o = false := by
      by_cases null : o.address = 0
      · exact .inl null
      · exact .inr (Bool.eq_false_of_not_eq_true fun inArena =>
          arenaRef ⟨null, inArena⟩)
    have noKey : ftFind s.machine.table o.address = none := by
      by_contra present
      exact arenaRef (done.heap.isIn_of_key present)
    exact ⟨o, leaves (doOop_outside cut.visited word outside) noKey⟩

/-- References that were to one object before a scan lead to one copy after it,
and only these. -/
theorem Scanned.same_end (laws : cheri.Laws)
    (scan : Scanned arena env replies limit roots ext₀ m₀ s) {a a' b b' : Nat}
    (old : ext₀ a ≠ none) (old' : ext₀ a' ≠ none)
    (ends : Ends (ftFind s.machine.table) a b)
    (ends' : Ends (ftFind s.machine.table) a' b') :
    b = b' ↔ ∃ e, Ends (ftFind m₀.table) a e ∧ Ends (ftFind m₀.table) a' e := by
  obtain ⟨ext, done⟩ := scan.midway laws (List.append_nil roots).symm scan.ran
  obtain ⟨e, start⟩ := scan.heap.exists_end a
  obtain ⟨e', start'⟩ := scan.heap.exists_end a'
  have last := ends.of_leads (start.1.mono done.larger)
  have last' := ends'.of_leads (start'.1.mono done.larger)
  constructor
  · intro same
    subst same
    refine ⟨e, start, ?_⟩
    obtain ⟨⟨n, hops⟩, _⟩ := last
    obtain ⟨⟨n', hops'⟩, _⟩ := last'
    have oldEnd : ext₀ e ≠ none := by
      obtain ⟨⟨_, chain⟩, _⟩ := start
      rwa [← scan.heap.ext_of_hops chain]
    have oldEnd' : ext₀ e' ≠ none := by
      obtain ⟨⟨_, chain⟩, _⟩ := start'
      rwa [← scan.heap.ext_of_hops chain]
    have sameEnd : e = e' := by
      rcases hops.one_of_newLinks done.links start.2 with rfl | ⟨fresh, l, link⟩
      · rcases hops'.one_of_newLinks done.links start'.2 with rfl | ⟨fresh', _⟩
        · rfl
        · exact absurd oldEnd fresh'
      · rcases hops'.one_of_newLinks done.links start'.2 with
          rfl | ⟨_, l', link'⟩
        · exact absurd oldEnd' fresh
        · obtain ⟨_, _, visits, _⟩ := scanRoots_visits laws
            (show Heap arena ext₀ (Scan.start m₀).machine from scan.heap)
            scan.slots (AtInsertion.trivial ..) scan.ran
          have linked : Linked ext₀ [] (Scan.start m₀).machine :=
            ⟨scan.injective, by simp, by simp, List.nodup_nil⟩
          exact (linked.visits laws visits scan.heap scan.slots).2.injective
            link link'
    rw [sameEnd]
    exact start'
  · intro shared
    obtain ⟨e₁, first, second⟩ := shared
    rw [start.unique first] at last
    rw [start'.unique second] at last'
    exact last.unique last'

theorem RootsSettle.complete (laws : cheri.Laws)
    (scan : Scanned arena env replies limit roots ext₀ m₀ s)
    (settle : RootsSettle arena env replies limit roots m₀) :
    FixupComplete arena roots m₀ s.machine := by
  constructor
  · intro p c member held
    obtain ⟨o, start, _⟩ := (scan.slots p member).content
    obtain ⟨c', settled⟩ := settle.slot laws scan member start
    have same := settled.held
    rw [held] at same
    cases same
    exact settled.current
  · intro p o member start present
    obtain ⟨c, settled⟩ := settle.slot laws scan member start
    obtain ⟨ext, done⟩ := scan.midway laws (List.append_nil roots).symm scan.ran
    obtain ⟨l, object, rebuilt⟩ := settled.copy present
    refine ⟨c.address, l, ?_, object, ?_⟩
    · exact settled.ends (done.heap.isIn_of_key present).2
    · rw [settled.held, ← rebuilt]
  · intro p q o o' c d member member' start start' inArena inArena' held held'
    obtain ⟨c', settled⟩ := settle.slot laws scan member start
    obtain ⟨d', settled'⟩ := settle.slot laws scan member' start'
    have same := settled.held
    rw [held] at same
    cases same
    have same' := settled'.held
    rw [held'] at same'
    cases same'
    obtain ⟨based, atStart⟩ :=
      scan.heap.based_of_root (scan.slots p member) start inArena
    obtain ⟨based', atStart'⟩ :=
      scan.heap.based_of_root (scan.slots q member') start' inArena'
    apply scan.same_end laws
    · rw [atStart, based.extent]
      exact Option.some_ne_none _
    · rw [atStart', based'.extent]
      exact Option.some_ne_none _
    · exact settled.ends inArena
    · exact settled'.ends inArena'

/-- A key on which the lookup gives up stays in its slot, or is lost. -/
theorem FixupComplete.resolves (laws : cheri.Laws)
    (scan : Scanned arena env replies limit roots ext₀ m₀ s)
    (complete : FixupComplete arena roots m₀ s.machine)
    {before after : List Nat} {p : Nat} {ext₁ : Extents} {s₁ s₂ : Scan}
    (cut : Cut arena env replies limit roots ext₀ m₀ s before p after ext₁
      s₁ s₂) {o : Cap} (word : s₁.machine.mem p = .value o)
    (inArena : isIn arena o = true)
    (present : ftFind s₁.machine.table o.address ≠ none) :
    forwardTableLookup cheri (some arena.base) s₁.machine.table o.address ≠
      none := by
  intro missing
  have mid := cut.mid
  have member : p ∈ roots := by
    rw [cut.split]
    simp
  have still : ftFind s.machine.table o.address ≠ none := by
    obtain ⟨pair, link⟩ := Option.ne_none_iff_exists'.mp present
    rw [cut.larger link]
    exact Option.some_ne_none _
  have nonnull := (mid.heap.isIn_of_key present).1
  rcases doOop_unforwarded cut.visited word nonnull inArena missing with
    reaches | ⟨quiet, _⟩
  · obtain ⟨klass, size, o2, m, table, fwd, header, copied, entered,
      machine_eq, _, _⟩ := reaches.inserts cut.visited
    obtain ⟨start, bump, moves, rfl, outcome⟩ := mid.heap.inserted laws
      (mid.slots p List.mem_cons_self) reaches header copied entered
    rw [moves.atStart] at present missing
    obtain ⟨b, l, _, _, held⟩ :=
      complete.copies member (cut.word.symm.trans word) still
    cases outcome with
    | added absent => exact present absent
    | full absent => exact present absent
    | found =>
        rw [cut.final, machine_eq, fix, if_neg (by simp [scan.fixes]),
          Machine.store_mem_self, missing] at held
        cases held
  · apply still
    apply complete.current member
    rw [cut.final, quiet, word]

/-- A copy to which a slot has been repaired is not moved afterwards. -/
theorem FixupComplete.apart (laws : cheri.Laws)
    (scan : Scanned arena env replies limit roots ext₀ m₀ s)
    (complete : FixupComplete arena roots m₀ s.machine)
    {before after : List Nat} {p : Nat} {ext₁ : Extents} {s₁ s₂ : Scan}
    (cut : Cut arena env replies limit roots ext₀ m₀ s before p after ext₁
      s₁ s₂) {o : Cap} (reaches : Reaches arena env limit s₁ p o) {q : Nat}
    (earlier : q ∈ before) {c : Cap} (start : m₀.mem q = .value c)
    (key : ftFind m₀.table c.address ≠ none) :
    ¬ Ends (ftFind m₀.table) c.address o.address := by
  intro ends
  have absent : ftFind s₁.machine.table o.address = none := by
    by_contra present
    exact complete.resolves laws scan cut reaches.word reaches.inArena present
      reaches.unforwarded
  obtain ⟨before', after', split⟩ := List.append_of_mem earlier
  have whole : roots = before' ++ q :: (after' ++ p :: after) := by
    rw [cut.split, split]
    simp
  have member : q ∈ roots := by
    rw [whole]
    simp
  obtain ⟨ext₃, t₁, t₂, cut'⟩ := scan.cut laws whole
  have word := cut'.word.trans start
  have stale : ftFind t₁.machine.table c.address ≠ none := by
    obtain ⟨pair, link⟩ := Option.ne_none_iff_exists'.mp key
    rw [cut'.mid.larger link]
    exact Option.some_ne_none _
  obtain ⟨nonnull, inArena⟩ := cut'.mid.heap.isIn_of_key stale
  obtain ⟨fwd, looked⟩ := Option.ne_none_iff_exists'.mp
    (complete.resolves laws scan cut' word inArena stale)
  obtain ⟨b, l, rfl, _, _, _, found⟩ := cut'.mid.heap.lookup_sound laws looked
  have unmoved : ftFind t₁.machine.table o.address = none := by
    have between := cut.early
    rw [split, scanRoots_append cut'.early] at between
    have slots : ∀ r, r ∈ q :: after' → RootSlot arena t₁.machine r := by
      intro r member
      apply cut'.mid.slots r
      rw [← List.cons_append]
      exact List.mem_append_left _ member
    obtain ⟨_, _, visits, _⟩ := scanRoots_visits laws cut'.mid.heap slots
      (AtInsertion.trivial ..) between
    cases link : ftFind t₁.machine.table o.address with
    | none => rfl
    | some pair =>
        rw [visits.extends link] at absent
        cases absent
  have same : b = o.address := by
    have last := found.of_leads (ends.1.mono cut'.mid.larger)
    exact last.unique ⟨.refl _, unmoved⟩
  have held : s.machine.mem q = .value (objectCap arena b l) := by
    rw [cut'.final, doOop_forwarded cut'.visited word nonnull inArena looked,
      fix, if_neg (by simp [scan.fixes])]
    exact Machine.store_mem_self ..
  have current := complete.current member held
  change ftFind s.machine.table b = none at current
  obtain ⟨copy, linked, _⟩ := cut.inserts laws scan reaches absent
  obtain ⟨ext₂, next⟩ := cut.next
  obtain ⟨_, _, visits⟩ := next.rest laws cut.later
  rw [same, visits.extends linked] at current
  cases current

end Settle

/-- From every reachable machine: a scan of distinct root slots with fixup, and
with room in the table, is complete if and only if the roots settle. -/
theorem scanRoots_complete_iff (laws : cheri.Laws) {env : Env}
    {replies : Replies} {limit : Nat} {roots : List Nat} {m : Machine} {s : Scan}
    (runs : Runs arena Machine.boot m) (distinct : roots.Nodup)
    (slots : ∀ p, p ∈ roots → RootSlot arena m p) (fixes : env.noFixup = false)
    (room : AtInsertion arena env replies limit roots
      (Scan.start (grown replies m))
      (fun table _ => HasRoom replies.callocInsert table))
    (ran : scanRoots arena env replies limit roots
      (Scan.start (grown replies m)) = .ok s) :
    FixupComplete arena roots (grown replies m) s.machine ↔
      RootsSettle arena env replies limit roots (grown replies m) := by
  obtain ⟨ext, heap, injective⟩ := runs.injective laws
  obtain ⟨table, grew, live, same⟩ := heap.live.maybeGrow replies.callocGrow
  have start_eq : grown replies m = { m with table := table } := by
    simp only [grown, grew]
  have scan : Scanned arena env replies limit roots ext (grown replies m) s := by
    refine ⟨?_, ?_, distinct, ?_, fixes, room, ran⟩
    · rw [start_eq]
      exact heap.start live same
    · rw [start_eq, same]
      exact injective
    · rw [start_eq]
      exact fun p member => (slots p member).start table
  constructor
  · intro complete
    constructor
    · intro before after p s₁ o split early word inArena present
      obtain ⟨ext₁, t₁, t₂, cut⟩ := scan.cut laws split
      have sameScan := early.symm.trans cut.early
      cases sameScan
      exact complete.resolves laws scan cut word inArena present
    · intro before after p s₁ o q c split early reaches earlier start key
      obtain ⟨ext₁, t₁, t₂, cut⟩ := scan.cut laws split
      have sameScan := early.symm.trans cut.early
      cases sameScan
      exact complete.apart laws scan cut reaches earlier start key
  · intro settle
    exact settle.complete laws scan

/-- A holder whose field refers to an object that is then moved.  The program
loads the old reference from the field into a frame slot, without using it. -/
def reloadsOld : List Act :=
  [.op (.alloc 0 none 1), .op (.spill 32 0), .op (.alloc 1 none 2),
    .op (.store 1 16 0), .op (.spill 48 1),
    .cycle { Env.unset with moveLimit := 1 } Replies.granted [32, 48],
    .op (.fill 1 48), .op (.load 2 1 16), .op (.spill 16 2)]

/-- The scan of a default cycle after that program. -/
def rescan (roots : List Nat) (m : Machine) : Except Halt Scan :=
  scanRoots Arena.small Env.unset Replies.granted 8 roots
    (Scan.start (grown Replies.granted m))

/-- The word holds a capability that passes the check. -/
def Word.holds (w : Word) (check : Cap → Bool) : Bool :=
  match w with
  | .header _ _ => false
  | .value c => check c

theorem Word.exists_of_holds {w : Word} {check : Cap → Bool}
    (holds : w.holds check = true) : ∃ c, w = .value c ∧ check c = true := by
  cases w with
  | header klass size => cases holds
  | value c => exact ⟨c, rfl, holds⟩

/-- The old reference is repaired first, and its object moved afterwards. -/
theorem scanRoots_leaves_key :
    ∃ m s, Runs Arena.small Machine.boot m ∧ [16, 32, 48].Nodup ∧
      (∀ p, p ∈ [16, 32, 48] → RootSlot Arena.small m p) ∧
      AtInsertion Arena.small Env.unset Replies.granted 8 [16, 32, 48]
        (Scan.start (grown Replies.granted m))
        (fun table _ => HasRoom Replies.granted.callocInsert table) ∧
      rescan [16, 32, 48] m = .ok s ∧
      ¬ FixupComplete Arena.small [16, 32, 48] (grown Replies.granted m)
        s.machine := by
  obtain ⟨m, ran, checked⟩ := (Option.any_eq_true _ _).mp
    (by decide +kernel : (perform Arena.small Machine.boot reloadsOld).any
      (fun m => [16, 32, 48].all (rootSlot Arena.small m) &&
        roomy Arena.small Env.unset Replies.granted 8 [16, 32, 48]
          (Scan.start (grown Replies.granted m)) &&
        (rescan [16, 32, 48] m).toOption.any (fun s =>
          (s.machine.mem 16).holds fun c =>
            decide (ftFind s.machine.table c.address ≠ none))) = true)
  rw [Bool.and_eq_true, Bool.and_eq_true] at checked
  obtain ⟨⟨accepted, room⟩, last⟩ := checked
  obtain ⟨s, scanned, holds⟩ := Except.exists_of_any last
  refine ⟨m, s, runs_perform ran, by decide, ?_, roomy_sound room, scanned, ?_⟩
  · intro p member
    exact rootSlot_sound (List.all_eq_true.mp accepted p member)
  · intro complete
    obtain ⟨c, word, forwarded⟩ := Word.exists_of_holds holds
    exact of_decide_eq_true forwarded (complete.current (by simp) word)

/-- In the other order both slots end up with the last copy. -/
theorem scanRoots_complete_iff_reordered :
    ∃ m s, Runs Arena.small Machine.boot m ∧
      rescan [32, 16] m = .ok s ∧
      FixupComplete Arena.small [32, 16] (grown Replies.granted m)
        s.machine := by
  obtain ⟨m, ran, checked⟩ := (Option.any_eq_true _ _).mp
    (by decide +kernel : (perform Arena.small Machine.boot reloadsOld).any
      (fun m => [32, 16].all (rootSlot Arena.small m) &&
        roomy Arena.small Env.unset Replies.granted 8 [32, 16]
          (Scan.start (grown Replies.granted m)) &&
        ((grown Replies.granted m).mem 32).holds (fun c => decide
          (ftFind (grown Replies.granted m).table c.address = none)) &&
        (rescan [32] m).toOption.any (fun s =>
          (s.machine.mem 16).holds fun c =>
            (forwardTableLookup Intrinsics.exact (some Arena.small.base)
              s.machine.table c.address).isSome) &&
        (rescan [32, 16] m).toOption.any (fun _ => true)) = true)
  simp only [Bool.and_eq_true] at checked
  obtain ⟨⟨⟨⟨accepted, room⟩, unmoved⟩, first⟩, last⟩ := checked
  obtain ⟨s₁, early, resolved⟩ := Except.exists_of_any first
  obtain ⟨s, scanned, _⟩ := Except.exists_of_any last
  have slots : ∀ p, p ∈ [32, 16] → RootSlot Arena.small m p := fun p member =>
    rootSlot_sound (List.all_eq_true.mp accepted p member)
  have current : ∀ {c}, (grown Replies.granted m).mem 32 = .value c →
      ftFind (grown Replies.granted m).table c.address = none := by
    intro c word
    rw [word] at unmoved
    exact of_decide_eq_true unmoved
  have positions : ∀ {before after : List Nat} {p : Nat},
      [32, 16] = before ++ p :: after →
      before = [] ∧ p = 32 ∨ before = [32] ∧ p = 16 := by
    intro before after p split
    cases before with
    | nil =>
        cases split
        exact .inl ⟨rfl, rfl⟩
    | cons q before =>
        cases before with
        | nil =>
            cases split
            exact .inr ⟨rfl, rfl⟩
        | cons r before => simp at split
  refine ⟨m, s, runs_perform ran, scanned, ?_⟩
  refine (scanRoots_complete_iff Intrinsics.exact_laws (runs_perform ran)
    (by decide) slots rfl (roomy_sound room) scanned).mpr ⟨?_, ?_⟩
  · intro before after p s₂ o split ran word _ present
    rcases positions split with ⟨rfl, rfl⟩ | ⟨rfl, rfl⟩
    · cases ran
      exact absurd (current word) present
    · have same : s₁ = s₂ := Except.ok.inj (early.symm.trans ran)
      subst same
      rw [word] at resolved
      exact Option.isSome_iff_ne_none.mp resolved
  · intro before after p s₂ o q c split ran reaches earlier word key
    rcases positions split with ⟨rfl, rfl⟩ | ⟨rfl, rfl⟩
    · cases earlier
    · rw [List.mem_singleton.mp earlier] at word
      exact absurd (current word) key

end StoplessGC
