import StoplessGC.Denotation
import StoplessGC.Healing

/-!
# The identity barrier is exact

`if_acmp` decides by addresses, by tags and by normalised addresses.  On the
references of a sound run all three agree with the objects that the references
denote, and neither cycles nor heals change the decision.
-/

namespace StoplessGC

open ForwardTable Allocator Forwarding Collector Handler Mutator

variable {cheri : Intrinsics} {arena : Arena cheri}

/-- Where a mutator keeps references. -/
inductive Place where
  | word (p : Nat)
  | register (i : Fin 30)

/-- The capability at a place. -/
def Machine.HoldsAt (m : Machine) (c : Cap) : Place → Prop
  | .word p => m.mem p = .value c
  | .register i => m.regs i = c

/-- A word of free arena memory belongs to nobody. -/
def Place.Used (arena : Arena cheri) (m : Machine) : Place → Prop
  | .word p => arena.Used m p
  | .register _ => True

/-- A value of a reference type: null, or a capability that points at the start
of its object. -/
def Cap.IsReference (c : Cap) : Prop :=
  c = Cap.null ∨ c.base ≠ 0 ∧ c.address = c.base

/-- The reference at a place. -/
structure Machine.Reference (m : Machine) (x : Place) (c : Cap) : Prop where
  holds : m.HoldsAt c x
  reference : c.IsReference

/-- Both references are null, or both are to one object. -/
def SameObject (m : Machine) (objs : List Nat) (a b : Cap) : Prop :=
  a = Cap.null ∧ b = Cap.null ∨ ∃ o, Denotes m objs a o ∧ Denotes m objs b o

theorem Machine.Every.at {m : Machine} {P : Cap → Prop} (every : m.Every P)
    {x : Place} {c : Cap} (holds : m.HoldsAt c x) : P c := by
  cases x with
  | word p => exact every.mem holds
  | register i =>
      have same : m.regs i = c := holds
      rw [← same]
      exact every.regs i

namespace Sound

variable {objs : List Nat} {ext : Extents} {m : Machine} {x y : Place}
  {a b c : Cap}

theorem based (sound : Sound arena objs ext m []) (held : m.Reference x c)
    (nonnull : c ≠ Cap.null) : Based arena ext c := by
  obtain ⟨nonzero, _⟩ := held.reference.resolve_left nonnull
  rcases sound.heap.caps.at held.holds with ⟨n, rfl⟩ | based
  · exact absurd rfl nonzero
  · exact based

theorem not_denotes_null (sound : Sound arena objs ext m []) {o : Nat} :
    ¬ Denotes m objs Cap.null o := by
  intro denotes
  obtain ⟨n, hops⟩ := denotes.2
  apply sound.linked.objects o denotes.1
  rw [sound.heap.ext_of_hops hops]
  exact sound.heap.packed.zero

/-- A reference compares by the address of the last copy of its object. -/
theorem normalize_eq (laws : cheri.Laws) (sound : Sound arena objs ext m [])
    (short : Within (ftFind m.table) chaseMax) (held : m.Reference x c)
    (nonnull : c ≠ Cap.null) :
    Ends (ftFind m.table) c.base
      (stoplessAcmpNormalize arena m.table c) := by
  have based := sound.based held nonnull
  obtain ⟨nonzero, atStart⟩ := held.reference.resolve_left nonnull
  cases tag : c.tag with
  | true =>
      have current : ftFind m.table c.base = none := by
        simpa using sound.revocable.tagged.at held.holds tag
      rw [normalize_of_end current, atStart]
      exact ⟨.refl _, current⟩
  | false =>
      have key := sound.guarded.stale.at held.holds tag nonzero
      obtain ⟨n, e, few, hops, ended⟩ := short.exists_end c.base
      obtain ⟨l, there, found⟩ :=
        sound.heap.lookup_of_hops laws key hops ended few
      have gone : revoked c = true := by
        rw [revoked, tag]
        rfl
      have upper := sound.heap.packed.upper there
      have bumped := sound.heap.packed.bump_le
      have user := arena.userSpace
      have small : e < addressSpace := by
        rw [addressSpace]
        omega
      have normal : stoplessAcmpNormalize arena m.table c = e := by
        have start : offset c.address c.base = 0 := by
          rw [sound.heap.offset_eq based, atStart, Nat.sub_self]
        rw [normalize_of_lookup (by rw [atStart]; exact nonzero) gone found,
          start]
        exact Nat.mod_eq_of_lt small
      rw [normal]
      exact ⟨⟨n, hops⟩, ended⟩

theorem normalize_ne_zero (laws : cheri.Laws)
    (sound : Sound arena objs ext m [])
    (short : Within (ftFind m.table) chaseMax) (held : m.Reference x c)
    (nonnull : c ≠ Cap.null) :
    stoplessAcmpNormalize arena m.table c ≠ 0 := by
  intro zero
  obtain ⟨⟨n, hops⟩, _⟩ := sound.normalize_eq laws short held nonnull
  have there := (sound.based held nonnull).extent
  rw [sound.heap.ext_of_hops hops, zero, sound.heap.packed.zero] at there
  cases there

theorem address_ne_zero (held : m.Reference x c) (nonnull : c ≠ Cap.null) :
    c.address ≠ 0 := by
  obtain ⟨nonzero, atStart⟩ := held.reference.resolve_left nonnull
  rw [atStart]
  exact nonzero

theorem normalize_of_tag (sound : Sound arena objs ext m [])
    (holds : m.HoldsAt c x) (tag : c.tag = true) :
    stoplessAcmpNormalize arena m.table c = c.address := by
  apply normalize_of_end
  simpa using sound.revocable.tagged.at holds tag

theorem normalize_congr (laws : cheri.Laws)
    (sound : Sound arena objs ext m [])
    (short : Within (ftFind m.table) chaseMax) (first : m.Reference x a)
    (second : m.Reference y b) (same : a.address = b.address) :
    stoplessAcmpNormalize arena m.table a =
      stoplessAcmpNormalize arena m.table b := by
  by_cases null : a = Cap.null
  · have null' : b = Cap.null := by
      by_contra nonnull
      apply address_ne_zero second nonnull
      rw [← same, null]
      rfl
    rw [null, null']
  · have null' : b ≠ Cap.null := by
      intro other
      apply address_ne_zero first null
      rw [same, other]
      rfl
    have firstEnd := sound.normalize_eq laws short first null
    have secondEnd := sound.normalize_eq laws short second null'
    rw [← (first.reference.resolve_left null).2, same,
      (second.reference.resolve_left null').2] at firstEnd
    exact firstEnd.unique secondEnd

/-- The three tiers decide as the last one would. -/
theorem ifAcmp_iff_normalize (laws : cheri.Laws)
    (sound : Sound arena objs ext m [])
    (short : Within (ftFind m.table) chaseMax) (first : m.Reference x a)
    (second : m.Reference y b) :
    ifAcmp arena m.table a b = true ↔
      stoplessAcmpNormalize arena m.table a =
        stoplessAcmpNormalize arena m.table b := by
  unfold ifAcmp
  split
  · rename_i same
    exact iff_of_true rfl (sound.normalize_congr laws short first second same)
  rename_i differ
  split
  · rename_i tags
    rw [Bool.and_eq_true] at tags
    rw [sound.normalize_of_tag first.holds tags.1,
      sound.normalize_of_tag second.holds tags.2]
    exact iff_of_false Bool.false_ne_true differ
  · exact beq_iff_eq

theorem normalize_iff (laws : cheri.Laws) (sound : Sound arena objs ext m [])
    (short : Within (ftFind m.table) chaseMax) (first : m.Reference x a)
    (second : m.Reference y b) :
    stoplessAcmpNormalize arena m.table a =
        stoplessAcmpNormalize arena m.table b ↔ SameObject m objs a b := by
  by_cases null : a = Cap.null
  · subst null
    by_cases null' : b = Cap.null
    · subst null'
      exact iff_of_true rfl (.inl ⟨rfl, rfl⟩)
    · apply iff_of_false
      · intro same
        exact sound.normalize_ne_zero laws short second null' same.symm
      · rintro (⟨_, absurdly⟩ | ⟨o, denotes, _⟩)
        · exact null' absurdly
        · exact sound.not_denotes_null denotes
  by_cases null' : b = Cap.null
  · subst null'
    apply iff_of_false
    · exact sound.normalize_ne_zero laws short first null
    · rintro (⟨absurdly, _⟩ | ⟨o, _, denotes⟩)
      · exact null absurdly
      · exact sound.not_denotes_null denotes
  obtain ⟨o, denotes⟩ := sound.denotes (sound.based first null).extent
  obtain ⟨o', denotes'⟩ := sound.denotes (sound.based second null').extent
  have ends := sound.normalize_eq laws short first null
  have ends' := sound.normalize_eq laws short second null'
  rw [← sound.same_object_iff denotes denotes' ends ends']
  constructor
  · intro same
    subst same
    exact .inr ⟨o, denotes, denotes'⟩
  · rintro (⟨absurdly, _⟩ | ⟨o₁, one, one'⟩)
    · exact absurd absurdly null
    · have left := (sound.same_object_iff denotes one ends ends).mpr rfl
      have right := (sound.same_object_iff denotes' one' ends' ends').mpr rfl
      exact left.trans right.symm

theorem tryCap_null (table : State) :
    tryCap arena none table Cap.null = none := by
  have missing : forwardTableLookup cheri (some arena.base) table
      Cap.null.base = none := by
    simp only [forwardTableLookup, resolve_eq_none (ftFind_zero table),
      show Cap.null.base = 0 from rfl]
  unfold tryCap
  rw [if_neg (by decide)]
  simp only [missing]
  rfl

/-- A heal of a reference is a reference to a later copy. -/
theorem tryCap_later (laws : cheri.Laws) (sound : Sound arena objs ext m [])
    (short : Within (ftFind m.table) chaseMax) (held : m.Reference x c)
    {fwd : Cap} (healed : tryCap arena none m.table c = some fwd) :
    Later (ftFind m.table) c fwd := by
  have nonnull : c ≠ Cap.null := by
    intro null
    rw [null, tryCap_null] at healed
    cases healed
  have based := sound.based held nonnull
  obtain ⟨nonzero, atStart⟩ := held.reference.resolve_left nonnull
  have gone := revoked_of_tryCap (by rw [healed]; exact Option.some_ne_none _)
  have untagged : c.tag = false := by
    have usable : c.perms.isZero = false := by
      rw [based.perms]
      simp [Perms.isZero, arena.usable]
    simpa [revoked, usable] using gone
  have key := sound.guarded.stale.at held.holds untagged nonzero
  obtain ⟨new, found⟩ := sound.heap.lookup_complete laws short key
  rw [tryCap_base gone found] at healed
  cases healed
  obtain ⟨b, l, rfl, there, keyThere, _, ends⟩ :=
    sound.heap.lookup_sound laws found
  have sameLength : l = c.length := by
    rw [based.extent] at keyThere
    exact (Option.some.inj keyThere).symm
  have start : offset c.address c.base = 0 := by
    rw [sound.heap.offset_eq based, atStart, Nat.sub_self]
  rw [start]
  refine ⟨ends.1, sameLength, based.perms.symm, ?_⟩
  change b + c.base = c.address + b
  rw [atStart, Nat.add_comm]

end Sound

/-- What a transition does to the references in use. -/
structure SameIdentity (arena : Arena cheri) (objs : List Nat)
    (m m' : Machine) : Prop where
  denotes : ∀ {x c}, x.Used arena m → m.Reference x c →
    ∃ c', m'.Reference x c' ∧ ∀ o, Denotes m' objs c' o ↔ Denotes m objs c o
  decides : ∀ {x y a b a' b'}, x.Used arena m → y.Used arena m →
    m.Reference x a → m.Reference y b → m'.HoldsAt a' x → m'.HoldsAt b' y →
    ifAcmp arena m'.table a' b' = ifAcmp arena m.table a b

/-- Every reference in use is kept, or replaced by a later one. -/
def KeepsPlaces (arena : Arena cheri) (m m' : Machine) : Prop :=
  ∀ {x c}, x.Used arena m → m.Reference x c →
    ∃ c', m'.HoldsAt c' x ∧ Later (ftFind m'.table) c c'

theorem Machine.HoldsAt.unique {m : Machine} {x : Place} {c c' : Cap}
    (first : m.HoldsAt c x) (second : m.HoldsAt c' x) : c = c' := by
  cases x with
  | word p =>
      have one : m.mem p = .value c := first
      rw [show m.mem p = .value c' from second] at one
      cases one
      rfl
  | register i =>
      have one : m.regs i = c := first
      exact one.symm.trans second

namespace Sound

variable {objs : List Nat} {ext ext' : Extents} {m m' : Machine} {x y : Place}
  {a b c c' : Cap}

theorem denotes_unique (sound : Sound arena objs ext m []) {o o' : Nat}
    (first : Denotes m objs c o) (second : Denotes m objs c o') : o = o' := by
  obtain ⟨e, ends⟩ := sound.heap.exists_end c.base
  exact (sound.same_object_iff first second ends ends).mpr rfl

theorem later_reference (before : Sound arena objs ext m [])
    (after : Sound arena objs ext' m' [])
    (larger : Extends (ftFind m.table) (ftFind m'.table))
    (held : m.Reference x c) (holds : m'.HoldsAt c' x)
    (later : Later (ftFind m'.table) c c') :
    m'.Reference x c' ∧ ∀ o, Denotes m' objs c' o ↔ Denotes m objs c o := by
  by_cases null : c = Cap.null
  · subst null
    have null' := after.heap.later_int (after.heap.caps.at holds) later
    subst null'
    refine ⟨⟨holds, .inl rfl⟩, fun o => ?_⟩
    exact iff_of_false after.not_denotes_null before.not_denotes_null
  obtain ⟨nonzero, atStart⟩ := held.reference.resolve_left null
  have based := before.based held null
  obtain ⟨o, denotes⟩ := before.denotes based.extent
  have denotes' : Denotes m' objs c' o := denotes.later larger later
  refine ⟨⟨holds, .inr ⟨?_, ?_⟩⟩, fun o' => ?_⟩
  · intro zero
    obtain ⟨n, hops⟩ := denotes'.2
    apply after.linked.objects o denotes'.1
    rw [after.heap.ext_of_hops hops, zero]
    exact after.heap.packed.zero
  · have offset := later.offset
    omega
  · constructor
    · intro other
      rw [after.denotes_unique other denotes']
      exact denotes
    · intro other
      rw [before.denotes_unique other denotes]
      exact denotes'

/-- Between sound states, keeping references keeps the decisions. -/
theorem sameIdentity (laws : cheri.Laws) (before : Sound arena objs ext m [])
    (after : Sound arena objs ext' m' [])
    (shortBefore : Within (ftFind m.table) chaseMax)
    (shortAfter : Within (ftFind m'.table) chaseMax)
    (larger : Extends (ftFind m.table) (ftFind m'.table))
    (keeps : KeepsPlaces arena m m') : SameIdentity arena objs m m' := by
  have kept : ∀ {x c}, x.Used arena m → m.Reference x c →
      ∃ c', m'.Reference x c' ∧ (c' = Cap.null ↔ c = Cap.null) ∧
        ∀ o, Denotes m' objs c' o ↔ Denotes m objs c o := by
    intro x c used held
    obtain ⟨c', holds, later⟩ := keeps used held
    obtain ⟨held', denotes⟩ :=
      before.later_reference after larger held holds later
    refine ⟨c', held', ⟨?_, ?_⟩, denotes⟩
    · intro null'
      by_contra null
      obtain ⟨o, one⟩ := before.denotes (before.based held null).extent
      rw [← denotes, null'] at one
      exact after.not_denotes_null one
    · intro null
      subst null
      exact after.heap.later_int (after.heap.caps.at holds) later
  constructor
  · intro x c used held
    obtain ⟨c', held', _, denotes⟩ := kept used held
    exact ⟨c', held', denotes⟩
  · intro x y a b a' b' used used' first second holds holds'
    obtain ⟨a₁, first', null, denotes⟩ := kept used first
    obtain ⟨b₁, second', null', denotes'⟩ := kept used' second
    cases first'.holds.unique holds
    cases second'.holds.unique holds'
    rw [Bool.eq_iff_iff,
      after.ifAcmp_iff_normalize laws shortAfter first' second',
      after.normalize_iff laws shortAfter first' second',
      before.ifAcmp_iff_normalize laws shortBefore first second,
      before.normalize_iff laws shortBefore first second]
    simp only [SameObject, null, null', denotes, denotes']

theorem keepsPlaces_healed (laws : cheri.Laws)
    (sound : Sound arena objs ext m [])
    (short : Within (ftFind m.table) chaseMax) {fault : Fault}
    {regs : Fin 30 → Cap}
    (heals : stoplessTryHeal arena none m.table fault m.regs = some regs) :
    KeepsPlaces arena m { m with regs := regs } := by
  intro x c _ held
  cases x with
  | word p => exact ⟨c, held.holds, .refl _ c⟩
  | register j =>
      have holds : m.regs j = c := held.holds
      refine ⟨regs j, rfl, ?_⟩
      change Later (ftFind m.table) c (regs j)
      rcases stoplessTryHeal_cases heals with rfl | ⟨i, fwd, tried, rfl⟩
      · rw [holds]
        exact .refl _ c
      · by_cases here : j = i
        · subst here
          rw [Function.update_self]
          rw [holds] at tried
          exact sound.tryCap_later laws short held tried
        · rw [Function.update_of_ne here, holds]
          exact .refl _ c

end Sound

theorem KeepsReferences.places {m m' : Machine}
    (keeps : KeepsReferences arena m m') : KeepsPlaces arena m m' := by
  intro x c used held
  cases x with
  | word p =>
      obtain ⟨c', word, later⟩ := keeps.words used held.holds
      exact ⟨c', word, later⟩
  | register i =>
      have holds : m.regs i = c := held.holds
      have later := keeps.regs i
      rw [holds] at later
      exact ⟨m'.regs i, rfl, later⟩

/-- What the barrier guarantees in a state: every reference is null or to
exactly one object, the decision is the identity of objects, hence an
equivalence, and it outlasts heals and cycles. -/
structure IdentityExact (arena : Arena cheri) (objs : List Nat)
    (m : Machine) : Prop where
  denotes : ∀ {x c}, m.Reference x c → c ≠ Cap.null →
    ∃! o, Denotes m objs c o
  exact : ∀ {x y a b}, m.Reference x a → m.Reference y b →
    (ifAcmp arena m.table a b = true ↔ SameObject m objs a b)
  equivalence : Equivalence (fun a b : { c // ∃ x, m.Reference x c } =>
    ifAcmp arena m.table a.1 b.1 = true)
  heals : ∀ {fault regs},
    stoplessTryHeal arena none m.table fault m.regs = some regs →
    SameIdentity arena objs m { m with regs := regs }
  cycles : ∀ {env replies roots m' moved}, env.Synchronous →
    (∀ p, p ∈ roots → RootSlot arena m p) →
    doit arena env replies roots m = .ok (m', moved) →
    CycleFits arena env replies roots m m' → KernelSucceeds replies moved →
    SameIdentity arena objs m m'

/-- In every state of a sound run the identity barrier is exact. -/
theorem identity_exact (laws : cheri.Laws) {objs : List Nat} {m : Machine}
    (run : SoundRun arena objs m) : IdentityExact arena objs m := by
  obtain ⟨ext, sound, short⟩ := run.sound laws
  constructor
  · intro x c held nonnull
    obtain ⟨o, denotes⟩ := sound.denotes (sound.based held nonnull).extent
    exact ⟨o, denotes, fun o' other => sound.denotes_unique other denotes⟩
  · intro x y a b first second
    rw [sound.ifAcmp_iff_normalize laws short first second]
    exact sound.normalize_iff laws short first second
  · have decides := fun {a b : { c // ∃ x, m.Reference x c }} =>
      sound.ifAcmp_iff_normalize laws short a.2.choose_spec b.2.choose_spec
    constructor
    · intro a
      exact decides.mpr rfl
    · intro a b same
      exact decides.mpr (decides.mp same).symm
    · intro a b c first second
      exact decides.mpr ((decides.mp first).trans (decides.mp second))
  · intro fault regs heals
    exact sound.sameIdentity laws (sound.healed laws heals) short short
      (.refl _) (sound.keepsPlaces_healed laws short heals)
  · intro env replies roots m' moved mode slots returned fits succeeds
    obtain ⟨ext', after⟩ := sound.cycle laws mode slots returned fits succeeds
    exact sound.sameIdentity laws after short fits.short
      (fits.extends laws sound.heap mode slots returned)
      (fits.keepsReferences laws sound.heap mode slots returned).places

/-- Two objects, one of them moved: `x0` and the field of its new copy hold the
stale reference, the frame slot the new one, and `x1` the other object. -/
theorem identity_exact_moved :
    ∃ objs m, SoundRun Arena.small objs m ∧
      m.regs 0 = { objectCap Arena.small (2 ^ 30) 32 with tag := false } ∧
      m.mem 16 = .value (objectCap Arena.small (2 ^ 30 + 48) 32) ∧
      m.regs 1 = objectCap Arena.small (2 ^ 30 + 32) 16 ∧
      IdentityExact Arena.small objs m := by
  obtain ⟨⟨objs, m⟩, ran, checked⟩ := (Option.any_eq_true _ _).mp
    (by decide +kernel : (performWhen Arena.small (soundCycle Arena.small) []
      Machine.boot [.op (.alloc 0 none 2), .op (.spill 16 0),
        .op (.store 0 16 0), .op (.alloc 1 none 1),
        .cycle Env.unset Replies.granted [16]]).any (fun r =>
      decide (r.2.regs 0 = { objectCap Arena.small (2 ^ 30) 32 with
          tag := false } ∧
        r.2.mem 16 = .value (objectCap Arena.small (2 ^ 30 + 48) 32) ∧
        r.2.regs 1 = objectCap Arena.small (2 ^ 30 + 32) 16)) = true)
  obtain ⟨stale, moved, other⟩ := of_decide_eq_true checked
  have run := soundRun_perform Intrinsics.exact_laws ran
  exact ⟨objs, m, run, stale, moved, other,
    identity_exact Intrinsics.exact_laws run⟩

end StoplessGC
