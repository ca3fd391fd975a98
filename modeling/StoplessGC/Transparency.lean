import StoplessGC.Identity
import StoplessGC.Representation

/-!
# The collector is transparent

The machine with the collector simulates the one without.  An access to a field
goes through, after at most one heal, and it goes to the last copy of the
object; so after the same instructions, with cycles anywhere between them, every
register, frame slot and field has the same value.
-/

namespace StoplessGC

open ForwardTable Allocator Forwarding Collector Handler Mutator

variable {cheri : Intrinsics} {arena : Arena cheri}

theorem Mutator.check_eq_none {c : Cap} {delta : Nat} (tag : c.tag = true)
    (usable : c.perms.isZero = false) (lower : c.base ≤ effective c delta)
    (upper : effective c delta + heapWordSize ≤ c.base + c.length)
    (aligned : heapWordSize ∣ effective c delta) : check c delta = none := by
  unfold check
  rw [if_neg (by simp [tag]), if_neg (by simp [usable]),
    if_pos ⟨lower, upper⟩, if_pos aligned]

theorem Mutator.check_untagged {c : Cap} (delta : Nat) (tag : c.tag = false) :
    check c delta = some 2 := by
  unfold check
  rw [if_pos (by simp [tag])]

/-- A capability that is based at the last copy of an object, and the word that
an access goes to. -/
theorem Mutator.effective_eq {c : Cap} {delta off w : Nat}
    (address : c.address = c.base + off)
    (word : (off + delta) % addressSpace = w * heapWordSize)
    (small : c.base + w * heapWordSize < addressSpace) :
    effective c delta = c.base + w * heapWordSize := by
  rw [effective, address, Nat.add_assoc, ← Nat.add_mod_mod, word]
  exact Nat.mod_eq_of_lt small

theorem Handler.stoplessTryHeal_base {evacuate : Option (Nat → Option Cap)}
    {table : State} {base : Fin 30} {regs : Fin 30 → Cap} {fwd : Cap}
    (pc : Nat) (healed : tryCap arena evacuate table (regs base) = some fwd) :
    stoplessTryHeal arena evacuate table
      { siCode := 2, siAddr := pc, rn := base } regs =
        some (Function.update regs base fwd) := by
  have tried : tryReg arena evacuate table regs base = some (fwd, base) := by
    unfold tryReg
    rw [dif_pos base.isLt]
    simp only [Fin.eta, healed]
  unfold stoplessTryHeal
  simp only [tried]
  rfl

namespace Represents

variable {objs : List Nat} {ext ext' : Extents} {m m' : Machine}
  {s s' : Plain}

theorem withRegs (before : Represents arena objs m s) {regs : Fin 30 → Cap}
    {values : Fin 30 → Value}
    (rep : ∀ i, Rep (ftFind m.table) objs (regs i) (values i)) :
    Represents arena objs { m with regs := regs }
      { s with regs := values } where
  count := before.count
  objects := fun allocated plain => by
    obtain ⟨e, ends, contains⟩ := before.objects allocated plain
    exact ⟨e, ends, contains.header, contains.fields⟩
  frame := before.frame
  regs := rep

theorem setReg (before : Represents arena objs m s) (dst : Fin 30) {c : Cap}
    {v : Value} (rep : Rep (ftFind m.table) objs c v) :
    Represents arena objs (setReg m dst c) (s.setReg dst v) := by
  apply before.withRegs
  intro i
  by_cases here : i = dst
  · subst here
    rw [Function.update_self, Function.update_self]
    exact rep
  · rw [Function.update_of_ne here, Function.update_of_ne here]
    exact before.regs i

end Represents

/-- A reference that represents one of an object. -/
structure Refers (arena : Arena cheri) (ext : Extents) (m : Machine)
    (c : Cap) (o off : Nat) : Prop where
  based : Based arena ext c
  leads : Leads (ftFind m.table) o c.base
  address : c.address = c.base + off

theorem Sound.refers {objs : List Nat} {ext : Extents} {m : Machine}
    (sound : Sound arena objs ext m []) {c : Cap} {i off : Nat}
    (ok : CapOk arena ext c)
    (rep : Rep (ftFind m.table) objs c (.ref i off)) :
    ∃ o, objs[i]? = some o ∧ Refers arena ext m c o off := by
  cases rep with
  | @ref _ _ o _ allocated leads address =>
      refine ⟨o, allocated, ?_, leads, address⟩
      rcases ok with ⟨n, rfl⟩ | based
      · exact absurd ⟨List.mem_of_getElem? allocated, leads⟩
          sound.not_denotes_null
      · exact based

/-- An access through the base register goes to the address `q`, with the
register file `regs`. -/
structure Accessed (arena : Arena cheri) (m : Machine) (pc : Nat)
    (base : Fin 30) (delta q : Nat) (regs : Fin 30 → Cap) : Prop where
  completes : ∀ fuel,
    access arena none m.table pc base delta (fuel + 2) m.regs = some regs
  once : access arena none m.table pc base delta 1 m.regs = some regs ∨
    access arena none m.table pc base delta 1 m.regs = none
  goes : effective (regs base) delta = q

theorem Accessed.eq_of_some {m : Machine} {pc : Nat} {base : Fin 30}
    {delta q fuel : Nat} {regs regs' : Fin 30 → Cap}
    (accessed : Accessed arena m pc base delta q regs)
    (passed : access arena none m.table pc base delta fuel m.regs =
      some regs') : regs' = regs := by
  match fuel with
  | 0 => cases passed
  | 1 =>
      rcases accessed.once with through | trapped
      · rw [through] at passed
        exact (Option.some.inj passed).symm
      · rw [trapped] at passed
        cases passed
  | fuel + 2 =>
      rw [accessed.completes] at passed
      exact (Option.some.inj passed).symm

theorem Accessed.direct {m : Machine} {base : Fin 30} {delta q : Nat}
    (pc : Nat) (passes : check (m.regs base) delta = none)
    (goes : effective (m.regs base) delta = q) :
    Accessed arena m pc base delta q m.regs where
  completes := fun fuel => by simp only [access, passes]
  once := .inl (by simp only [access, passes])
  goes := goes

theorem Accessed.trapped {m : Machine} {base : Fin 30} {delta q : Nat}
    {fwd : Cap} (pc : Nat) (untagged : (m.regs base).tag = false)
    (healed : tryCap arena none m.table (m.regs base) = some fwd)
    (passes : check fwd delta = none) (goes : effective fwd delta = q) :
    Accessed arena m pc base delta q (Function.update m.regs base fwd) where
  completes := fun fuel => by
    simp only [access, check_untagged delta untagged,
      stoplessTryHeal_base pc healed, Function.update_self, passes]
  once := .inr (by
    simp only [access, check_untagged delta untagged,
      stoplessTryHeal_base pc healed])
  goes := by
    rw [Function.update_self]
    exact goes

/-- An untagged reference is healed to one of the last copy, with the same
offset. -/
theorem Sound.tryCap_eq (laws : cheri.Laws) {objs : List Nat} {ext : Extents}
    {m : Machine} (sound : Sound arena objs ext m [])
    (short : Within (ftFind m.table) chaseMax) {c : Cap} {o off e l : Nat}
    (refers : Refers arena ext m c o off)
    (key : ftFind m.table c.base ≠ none) (untagged : c.tag = false)
    (ends : Ends (ftFind m.table) o e) (there : ext e = some l) :
    tryCap arena none m.table c =
      some { objectCap arena e l with address := e + off } := by
  obtain ⟨fwd, found⟩ := sound.heap.lookup_complete laws short key
  have gone : revoked c = true := by
    rw [revoked, untagged]
    rfl
  rw [tryCap_base gone found]
  obtain ⟨b, k, rfl, home, keyThere, _, chain⟩ :=
    sound.heap.lookup_sound laws found
  cases chain.unique (ends.of_leads refers.leads)
  rw [there] at home
  cases home
  have offset_eq : offset c.address c.base = off := by
    rw [sound.heap.offset_eq refers.based, refers.address,
      Nat.add_sub_cancel_left]
  have inside : off ≤ l := by
    have upper := refers.based.upper
    have length := refers.based.extent
    rw [keyThere] at length
    cases length
    rw [refers.address] at upper
    omega
  rw [offset_eq, sound.heap.reapply_eq laws there inside]

theorem Sound.base_eq {objs : List Nat} {ext : Extents} {m : Machine}
    (sound : Sound arena objs ext m []) {i : Fin 30} {o off e : Nat}
    (refers : Refers arena ext m (m.regs i) o off)
    (tag : (m.regs i).tag = true) (ends : Ends (ftFind m.table) o e) :
    (m.regs i).base = e := by
  have current : ftFind m.table (m.regs i).base = none := by
    simpa using sound.revocable.tagged.regs i tag
  exact Ends.unique ⟨refers.leads, current⟩ ends

theorem Sound.passes (laws : cheri.Laws) {objs : List Nat} {ext : Extents}
    {m : Machine} (sound : Sound arena objs ext m []) {object : PlainObject}
    {c : Cap} {e l off delta w : Nat} (contains : Contains m objs e object)
    (there : ext e = some l) (tag : c.tag = true) (base : c.base = e)
    (length : c.length = l)
    (perms : c.perms = { arena.base.perms with swVmem := false })
    (address : c.address = e + off)
    (word : (off + delta) % addressSpace = w * heapWordSize)
    (below : w < object.size) :
    check c delta = none ∧ effective c delta = e + w * heapWordSize := by
  obtain ⟨long, inside⟩ := contains.inside laws sound.heap there
  have bumped := sound.heap.packed.bump_le
  have user := arena.userSpace
  have aligned := sound.heap.packed.word there
  have wordEnd : w * heapWordSize + heapWordSize ≤
      object.size * heapWordSize := by
    rw [← Nat.succ_mul]
    exact Nat.mul_le_mul_right _ below
  subst base
  have effective_eq : effective c delta = c.base + w * heapWordSize := by
    apply Mutator.effective_eq address word
    rw [addressSpace]
    omega
  refine ⟨check_eq_none tag ?_ ?_ ?_ ?_, effective_eq⟩
  · rw [perms]
    simp [Perms.isZero, arena.usable]
  · rw [effective_eq]
    exact Nat.le_add_right ..
  · rw [effective_eq]
    omega
  · rw [effective_eq]
    exact Nat.dvd_add aligned (Nat.dvd_mul_left ..)

/-- An access to a word of an object goes to its last copy, and the register
file represents the same values. -/
theorem Sound.reached (laws : cheri.Laws) {objs : List Nat} {ext : Extents}
    {m : Machine} {s : Plain} (sound : Sound arena objs ext m [])
    (short : Within (ftFind m.table) chaseMax)
    (before : Represents arena objs m s) {base : Fin 30} {delta i off w : Nat}
    {object : PlainObject} (pc : Nat) (value : s.regs base = .ref i off)
    (plain : s.objects[i]? = some object)
    (word : (off + delta) % addressSpace = w * heapWordSize)
    (below : w < object.size) :
    ∃ o e regs, objs[i]? = some o ∧ Ends (ftFind m.table) o e ∧
      Contains m objs e object ∧
      Accessed arena m pc base delta (e + w * heapWordSize) regs ∧
      ∀ j, Rep (ftFind m.table) objs (regs j) (s.regs j) := by
  have rep := before.regs base
  rw [value] at rep
  obtain ⟨o, allocated, refers⟩ := sound.refers (sound.heap.caps.regs base) rep
  obtain ⟨e, ends, contains⟩ := before.objects allocated plain
  obtain ⟨l, there⟩ := sound.extent allocated ends
  cases tag : (m.regs base).tag with
  | true =>
      have current := sound.base_eq refers tag ends
      have length : (m.regs base).length = l := by
        have same := refers.based.extent
        rw [current, there] at same
        exact (Option.some.inj same).symm
      obtain ⟨passes, goes⟩ := sound.passes laws contains there tag current
        length refers.based.perms (current ▸ refers.address) word below
      exact ⟨o, e, m.regs, allocated, ends, contains, .direct pc passes goes,
        before.regs⟩
  | false =>
      have nonzero := sound.heap.packed.nonzero refers.based.extent
      have key := sound.guarded.stale.regs base tag nonzero
      have healed := sound.tryCap_eq laws short refers key tag ends there
      obtain ⟨passes, goes⟩ := sound.passes laws contains there
        (c := { objectCap arena e l with address := e + off }) rfl rfl rfl rfl
        rfl word below
      refine ⟨o, e, _, allocated, ends, contains, .trapped pc tag healed passes
        goes, ?_⟩
      intro j
      by_cases here : j = base
      · subst here
        rw [Function.update_self, value]
        exact .ref allocated ends.1 rfl
      · rw [Function.update_of_ne here]
        exact before.regs j

theorem Sound.accessed (laws : cheri.Laws) {objs : List Nat} {ext : Extents}
    {m : Machine} {s : Plain} (sound : Sound arena objs ext m [])
    (short : Within (ftFind m.table) chaseMax)
    (before : Represents arena objs m s) {base : Fin 30} {delta i w : Nat}
    {object : PlainObject} (pc : Nat)
    (found : s.field delta (s.regs base) = some (i, object, w)) :
    ∃ o e regs, objs[i]? = some o ∧ s.objects[i]? = some object ∧
      Ends (ftFind m.table) o e ∧ Contains m objs e object ∧
      (0 < w ∧ w < object.size) ∧
      Accessed arena m pc base delta (e + w * heapWordSize) regs ∧
      ∀ j, Rep (ftFind m.table) objs (regs j) (s.regs j) := by
  obtain ⟨off, value, plain, word, positive, below⟩ := Plain.field_cases found
  obtain ⟨o, e, regs, allocated, ends, contains, accessed, rep⟩ :=
    sound.reached laws short before pc value plain word below
  exact ⟨o, e, regs, allocated, plain, ends, contains, ⟨positive, below⟩,
    accessed, rep⟩

namespace Represents

variable {objs : List Nat} {ext : Extents} {m : Machine} {s : Plain}

theorem stored (laws : cheri.Laws) (sound : Sound arena objs ext m [])
    (before : Represents arena objs m s) {i o e w : Nat}
    {object : PlainObject} {c : Cap} {v : Value}
    (allocated : objs[i]? = some o) (plain : s.objects[i]? = some object)
    (ends : Ends (ftFind m.table) o e) (contains : Contains m objs e object)
    (field : 0 < w ∧ w < object.size)
    (rep : Rep (ftFind m.table) objs c v) :
    Represents arena objs (m.store (e + w * heapWordSize) (.value c))
      { s with
        objects := s.objects.set i { object with
          fields := Function.update object.fields w v } } := by
  have heap := sound.heap
  obtain ⟨l, there⟩ := sound.extent allocated ends
  obtain ⟨long, _⟩ := contains.inside laws heap there
  have within : w * heapWordSize < l := by
    rw [heapWordSize] at long ⊢
    omega
  refine ⟨?_, ?_, ?_, before.regs⟩
  · rw [List.length_set]
    exact before.count
  · intro j o' object' allocated' plain'
    by_cases here : j = i
    · subst here
      rw [allocated] at allocated'
      cases allocated'
      rw [List.getElem?_set_self (List.getElem?_eq_some_iff.mp plain).1]
        at plain'
      cases plain'
      refine ⟨e, ends, ?_, ?_⟩
      · rw [m.store_mem_of_ne _ (by rw [heapWordSize]; omega)]
        exact contains.header
      · intro w' positive below
        by_cases same : w' = w
        · subst same
          refine ⟨c, m.store_mem_self .., ?_⟩
          change Rep _ _ _ (Function.update object.fields w' v w')
          rw [Function.update_self]
          exact rep
        · rw [m.store_mem_of_ne _ (by rw [heapWordSize]; omega)]
          change ∃ c, _ ∧ Rep _ _ _ (Function.update object.fields w v w')
          rw [Function.update_of_ne same]
          exact contains.fields positive below
    · rw [List.getElem?_set_ne (Ne.symm here)] at plain'
      obtain ⟨e', ends', contains'⟩ := before.objects allocated' plain'
      obtain ⟨l', there'⟩ := sound.extent allocated' ends'
      refine ⟨e', ends', contains'.untouched laws heap there' rfl ?_⟩
      -- Two objects never have the same last copy.
      intro q lower upper
      apply m.store_mem_of_ne
      intro same
      have one := heap.packed.unique there' there ⟨lower, upper⟩ (by omega)
      subst one
      have first := (sound.linked.graph heap).apart
        (List.mem_of_getElem? allocated') (List.mem_of_getElem? allocated)
        ends' ends
      subst first
      obtain ⟨below, _⟩ := List.getElem?_eq_some_iff.mp allocated'
      exact here ((List.getElem?_inj below sound.linked.distinct).mp
        (allocated'.trans allocated.symm))
  · intro p uncovered
    have elsewhere : p ≠ e + w * heapWordSize := by
      intro same
      have covered := heap.packed.covers there (p := p) (by omega) (by omega)
      rw [uncovered] at covered
      cases covered
    rw [m.store_mem_of_ne _ elsewhere]
    exact before.frame uncovered

theorem spilled (laws : cheri.Laws) (sound : Sound arena objs ext m [])
    (before : Represents arena objs m s) {p : Nat} {c : Cap}
    {v : Value} (uncovered : arena.covers p = false)
    (rep : Rep (ftFind m.table) objs c v) :
    Represents arena objs (m.store p (.value c))
      { s with frame := Function.update s.frame p v } := by
  refine ⟨before.count, ?_, ?_, before.regs⟩
  · intro i o object allocated plain
    obtain ⟨e, ends, contains⟩ := before.objects allocated plain
    obtain ⟨l, there⟩ := sound.extent allocated ends
    refine ⟨e, ends, contains.untouched laws sound.heap there rfl ?_⟩
    intro q lower upper
    apply m.store_mem_of_ne
    intro same
    have covered := sound.heap.packed.covers there lower upper
    rw [same, uncovered] at covered
    cases covered
  · intro q outside
    by_cases here : q = p
    · subst here
      refine ⟨c, m.store_mem_self .., ?_⟩
      change Rep _ _ _ (Function.update s.frame q v q)
      rw [Function.update_self]
      exact rep
    · rw [m.store_mem_of_ne _ here]
      change ∃ c, _ ∧ Rep _ _ _ (Function.update s.frame p v q)
      rw [Function.update_of_ne here]
      exact before.frame outside

theorem allocated (laws : cheri.Laws) (sound : Sound arena objs ext m [])
    (before : Represents arena objs m s) {klass : Option Klass}
    {size start l bump : Nat} (fresh : Fresh arena m.bumpOffset start l bump)
    (sized : Sized cheri size l) :
    Represents arena (objs ++ [start])
      (initialise { m with bumpOffset := bump } start klass size (size - 1))
      (s.alloc klass size) := by
  have heap := sound.heap
  have positive := sized.positive
  have long := sized.le_length laws
  have table : (initialise { m with bumpOffset := bump } start klass size
      (size - 1)).table = m.table := by
    rw [initialise_eq]
  have frame : ∀ {q}, q < start ∨ start + l ≤ q →
      (initialise { m with bumpOffset := bump } start klass size
        (size - 1)).mem q = m.mem q := by
    intro q outside
    apply initialise_frame
    rw [Nat.sub_add_cancel positive]
    omega
  refine ⟨?_, ?_, ?_, ?_⟩
  · change (s.objects ++ [_]).length = _
    rw [List.length_append, List.length_append, before.count]
    rfl
  · intro i o object allocated plain
    have old : i < objs.length ∨ i = objs.length := by
      obtain ⟨below, _⟩ := List.getElem?_eq_some_iff.mp allocated
      rw [List.length_append, List.length_singleton] at below
      omega
    rw [table]
    change (s.objects ++ [_])[i]? = some object at plain
    rcases old with old | last
    · rw [List.getElem?_append_left old] at allocated
      rw [List.getElem?_append_left (by rw [before.count]; exact old)] at plain
      obtain ⟨e, ends, contains⟩ := before.objects allocated plain
      obtain ⟨k, there⟩ := sound.extent allocated ends
      refine ⟨e, ends, ?_⟩
      have kept : Contains (initialise { m with bumpOffset := bump } start klass
          size (size - 1)) objs e object := by
        apply contains.untouched laws heap there table
        intro q lower upper
        have below := fresh.below heap.packed there
        exact frame (.inl (by omega))
      exact kept.append [start]
    · subst last
      rw [List.getElem?_concat_length] at allocated
      rw [← before.count, List.getElem?_concat_length] at plain
      cases allocated
      cases plain
      refine ⟨start, ⟨.refl start,
        heap.unlinked (fresh.unused heap.packed)⟩, initialise_header .., ?_⟩
      intro w nonzero below
      exact ⟨Cap.ofInt 0, initialise_field _ _ _ _ _ nonzero
        (Nat.le_sub_one_of_lt below), .int 0⟩
  · intro p uncovered
    obtain ⟨c, word, rep⟩ := before.frame uncovered
    refine ⟨c, ?_, by rw [table]; exact rep.append [start]⟩
    rw [frame, word]
    have lower := fresh.lower
    have upper := fresh.upper
    have fits := fresh.fits
    simp only [Arena.covers, Bool.and_eq_false_iff, decide_eq_false_iff_not]
      at uncovered
    omega
  · intro i
    rw [table, initialise_eq]
    exact (before.regs i).append [start]

theorem shifted (laws : cheri.Laws) (sound : Sound arena objs ext m [])
    (before : Represents arena objs m s) {src : Fin 30} {delta : Nat}
    {v : Value} (moved : s.shift delta (s.regs src) = some v) :
    Rep (ftFind m.table) objs
      (cheri.addressSet (m.regs src) (effective (m.regs src) delta)) v := by
  have rep := before.regs src
  cases value : s.regs src with
  | int n =>
      rw [value] at moved rep
      cases moved
      generalize m.regs src = c at rep
      cases rep
      exact .int _
  | ref i off =>
      rw [value] at moved rep
      unfold Plain.shift at moved
      cases plain : s.objects[i]? with
      | none =>
          simp only [plain] at moved
          cases moved
      | some object =>
          simp only [plain] at moved
          split at moved
          case isFalse => cases moved
          case isTrue bound =>
            cases moved
            obtain ⟨o, allocated, refers⟩ :=
              sound.refers (sound.heap.caps.regs src) rep
            obtain ⟨e, ends, contains⟩ := before.objects allocated plain
            obtain ⟨l, there⟩ := sound.extent allocated ends
            obtain ⟨long, _⟩ := contains.inside laws sound.heap there
            -- All copies of the object have the same length.
            have length : (m.regs src).length = l := by
              obtain ⟨⟨n, hops⟩, _⟩ := ends.of_leads refers.leads
              have same := refers.based.extent
              rw [sound.heap.ext_of_hops hops, there] at same
              exact (Option.some.inj same).symm
            have last := sound.heap.packed.upper refers.based.extent
            have bumped := sound.heap.packed.bump_le
            have user := arena.userSpace
            refine .ref allocated refers.leads ?_
            change effective (m.regs src) delta = (m.regs src).base + _
            rw [effective, refers.address, Nat.add_assoc, ← Nat.add_mod_mod]
            apply Nat.mod_eq_of_lt
            rw [addressSpace] at bound ⊢
            omega

theorem alloc (laws : cheri.Laws) (sound : Sound arena objs ext m [])
    (before : Represents arena objs m s) {dst : Fin 30}
    {klass : Option Klass} {size pc fuel : Nat} {granted : Bool}
    {m' : Machine} {s' : Plain}
    (admissible : (Op.alloc dst klass size).Admissible cheri m)
    (stepped : s.step granted (.alloc dst klass size) = some s')
    (ran : exec arena none pc fuel m (.alloc dst klass size) =
      some (m', granted)) :
    Represents arena (objs ++ births arena m (.alloc dst klass size)) m' s' := by
  unfold Mutator.exec at ran
  cases reserved : memAllocate arena m size with
  | none =>
      simp only [reserved] at ran
      cases ran
      cases stepped
      simp only [births, reserved, List.append_nil]
      exact before.setReg dst (.int 0)
  | some result =>
      obtain ⟨obj, next⟩ := result
      simp only [reserved] at ran
      cases ran
      cases stepped
      obtain ⟨start, l, bump, fresh, sized, rfl, rfl⟩ :=
        memAllocate_eq_some laws sound.heap.packed admissible.1 admissible.2
          reserved
      simp only [births, reserved]
      apply (before.allocated laws sound fresh sized).setReg dst
      rw [before.count]
      exact .ref List.getElem?_concat_length (.refl start) rfl

theorem load (laws : cheri.Laws) (sound : Sound arena objs ext m [])
    (short : Within (ftFind m.table) chaseMax)
    (before : Represents arena objs m s) {dst base : Fin 30}
    {delta pc fuel : Nat} {granted : Bool} {m' : Machine} {s' : Plain}
    (stepped : s.step granted (.load dst base delta) = some s')
    (ran : exec arena none pc fuel m (.load dst base delta) =
      some (m', granted)) : Represents arena objs m' s' := by
  obtain ⟨i, object, w, found, rfl⟩ := Plain.step_load stepped
  obtain ⟨o, e, regs, _, _, _, contains, inside, accessed, rep⟩ :=
    sound.accessed laws short before pc found
  obtain ⟨c, word, repField⟩ := contains.fields inside.1 inside.2
  obtain ⟨regs', c', passed, loaded, rfl⟩ := exec_load arena ran
  cases accessed.eq_of_some passed
  rw [accessed.goes, Machine.load, word] at loaded
  cases loaded
  exact (before.withRegs rep).setReg dst repField

theorem store (laws : cheri.Laws) (sound : Sound arena objs ext m [])
    (short : Within (ftFind m.table) chaseMax)
    (before : Represents arena objs m s) {base src : Fin 30}
    {delta pc fuel : Nat} {granted : Bool} {m' : Machine} {s' : Plain}
    (stepped : s.step granted (.store base delta src) = some s')
    (ran : exec arena none pc fuel m (.store base delta src) =
      some (m', granted)) : Represents arena objs m' s' := by
  obtain ⟨i, object, w, found, rfl⟩ := Plain.step_store stepped
  obtain ⟨o, e, regs, allocated, plain, ends, contains, inside, accessed,
    rep⟩ := sound.accessed laws short before pc found
  obtain ⟨regs', c', passed, _, rfl⟩ := exec_store arena ran
  cases accessed.eq_of_some passed
  rw [accessed.goes]
  have written := before.stored laws sound allocated plain ends contains
    inside (rep src)
  exact written.withRegs rep

theorem executed (laws : cheri.Laws) (sound : Sound arena objs ext m [])
    (short : Within (ftFind m.table) chaseMax)
    (before : Represents arena objs m s) {op : Op} {pc fuel : Nat}
    {granted : Bool} {m' : Machine} {s' : Plain}
    (admissible : op.Admissible cheri m)
    (stepped : s.step granted op = some s')
    (ran : exec arena none pc fuel m op = some (m', granted)) :
    Represents arena (objs ++ births arena m op) m' s' := by
  cases op with
  | alloc dst klass size =>
      exact before.alloc laws sound admissible stepped ran
  | imm dst n =>
      cases ran
      cases stepped
      simp only [births, List.append_nil]
      exact before.setReg dst (.int n)
  | move dst src =>
      cases ran
      cases stepped
      simp only [births, List.append_nil]
      exact before.setReg dst (before.regs src)
  | lea dst src delta =>
      cases ran
      simp only [births, List.append_nil]
      unfold Plain.step at stepped
      cases moved : s.shift delta (s.regs src) with
      | none =>
          simp only [moved] at stepped
          cases stepped
      | some v =>
          simp only [moved] at stepped
          cases stepped
          exact before.setReg dst (before.shifted laws sound moved)
  | fill dst p =>
      cases stepped
      simp only [births, List.append_nil]
      simp only [Mutator.exec] at ran
      split at ran
      · cases ran
      rename_i uncovered
      obtain ⟨c, word, rep⟩ := before.frame (by simpa using uncovered)
      rw [show m.load p = .value c from word] at ran
      cases ran
      exact before.setReg dst rep
  | spill p src =>
      cases stepped
      simp only [births, List.append_nil]
      simp only [Mutator.exec] at ran
      split at ran
      · cases ran
      rename_i uncovered
      cases ran
      exact before.spilled laws sound (by simpa using uncovered)
        (before.regs src)
  | load dst base delta =>
      simp only [births, List.append_nil]
      exact before.load laws sound short stepped ran
  | store base delta src =>
      simp only [births, List.append_nil]
      exact before.store laws sound short stepped ran

end Represents

/-- Frame slots are outside the arena. -/
def Mutator.Op.OnFrame (arena : Arena cheri) : Op → Prop
  | .fill _ p => arena.covers p = false
  | .spill p _ => arena.covers p = false
  | _ => True

/-- A value of a reference type. -/
def Value.IsReference : Value → Prop
  | .int n => n = 0
  | .ref _ offset => offset = 0

namespace Represents

variable {objs : List Nat} {ext : Extents} {m : Machine} {s : Plain}

/-- What the plain machine can do, the machine completes, with one retry. -/
theorem completes (laws : cheri.Laws) (sound : Sound arena objs ext m [])
    (short : Within (ftFind m.table) chaseMax)
    (before : Represents arena objs m s) {op : Op} {granted : Bool}
    {s' : Plain} {fuel : Nat} (pc : Nat) (onFrame : op.OnFrame arena)
    (stepped : s.step granted op = some s') (enough : 2 ≤ fuel) :
    ∃ m' answer, exec arena none pc fuel m op = some (m', answer) := by
  obtain ⟨fuel, rfl⟩ : ∃ n, fuel = n + 2 := ⟨fuel - 2, by omega⟩
  have through : ∀ {base : Fin 30} {delta i w : Nat} {object : PlainObject},
      s.field delta (s.regs base) = some (i, object, w) → ∃ q regs c,
        Accessed arena m pc base delta q regs ∧ m.mem q = .value c := by
    intro base delta i w object found
    obtain ⟨_, e, regs, _, _, _, contains, inside, accessed, _⟩ :=
      sound.accessed laws short before pc found
    obtain ⟨c, word, _⟩ := contains.fields inside.1 inside.2
    exact ⟨_, regs, c, accessed, word⟩
  cases op with
  | alloc dst klass size =>
      cases reserved : memAllocate arena m size with
      | none =>
          simp only [Mutator.exec, reserved]
          exact ⟨_, _, rfl⟩
      | some result =>
          simp only [Mutator.exec, reserved]
          exact ⟨_, _, rfl⟩
  | imm dst n => exact ⟨_, _, rfl⟩
  | move dst src => exact ⟨_, _, rfl⟩
  | lea dst src delta => exact ⟨_, _, rfl⟩
  | fill dst p =>
      have uncovered : arena.covers p = false := onFrame
      obtain ⟨c, word, _⟩ := before.frame uncovered
      simp only [Mutator.exec, uncovered, Machine.load, word]
      exact ⟨_, _, rfl⟩
  | spill p src =>
      have uncovered : arena.covers p = false := onFrame
      simp only [Mutator.exec, uncovered]
      exact ⟨_, _, rfl⟩
  | load dst base delta =>
      obtain ⟨_, _, _, found, _⟩ := Plain.step_load stepped
      obtain ⟨q, regs, c, accessed, word⟩ := through found
      simp only [Mutator.exec, accessed.completes, accessed.goes, Machine.load,
        word]
      exact ⟨_, _, rfl⟩
  | store base delta src =>
      obtain ⟨_, _, _, found, _⟩ := Plain.step_store stepped
      obtain ⟨q, regs, c, accessed, word⟩ := through found
      simp only [Mutator.exec, accessed.completes, accessed.goes, Machine.load,
        word]
      exact ⟨_, _, rfl⟩

end Represents

/-- References are equal for the barrier if and only if they are equal on the
plain machine. -/
theorem Represents.identity (laws : cheri.Laws) {objs : List Nat}
    {ext : Extents} {m : Machine} {s : Plain}
    (sound : Sound arena objs ext m [])
    (short : Within (ftFind m.table) chaseMax)
    (represents : Represents arena objs m s) {i j : Fin 30}
    (first : (s.regs i).IsReference) (second : (s.regs j).IsReference) :
    ifAcmp arena m.table (m.regs i) (m.regs j) = true ↔
      s.regs i = s.regs j := by
  have reference : ∀ {i v}, s.regs i = v → v.IsReference →
      m.Reference (.register i) (m.regs i) ∧
        (m.regs i = Cap.null ∧ v = .int 0 ∨
          ∃ k o, v = .ref k 0 ∧ objs[k]? = some o ∧
            Denotes m objs (m.regs i) o) := by
    intro i v value starts
    have rep := represents.regs i
    have ok := sound.heap.caps.regs i
    rw [value] at rep
    generalize held : m.regs i = c at rep ok
    refine ⟨⟨held, ?_⟩, ?_⟩
    · cases rep with
      | int n =>
          cases starts
          exact .inl rfl
      | ref allocated leads address =>
          cases starts
          obtain ⟨o, _, refers⟩ :=
            sound.refers ok (.ref allocated leads address)
          exact .inr ⟨sound.heap.packed.nonzero refers.based.extent, address⟩
    · cases rep with
      | int n =>
          cases starts
          exact .inl ⟨rfl, rfl⟩
      | @ref _ k o _ allocated leads address =>
          cases starts
          exact .inr ⟨k, o, rfl, allocated,
            List.mem_of_getElem? allocated, leads⟩
  obtain ⟨heldFirst, left⟩ := reference rfl first
  obtain ⟨heldSecond, right⟩ := reference rfl second
  rw [sound.ifAcmp_iff_normalize laws short heldFirst heldSecond,
    sound.normalize_iff laws short heldFirst heldSecond]
  rcases left with ⟨null, value⟩ | ⟨k, o, value, allocated, denotes⟩
  · rw [null, value]
    rcases right with ⟨null', value'⟩ | ⟨k', o', value', _, denotes'⟩
    · rw [null', value']
      exact iff_of_true (.inl ⟨rfl, rfl⟩) rfl
    · rw [value']
      refine iff_of_false ?_ (by simp)
      rintro (⟨_, null'⟩ | ⟨o, none, _⟩)
      · rw [null'] at denotes'
        exact sound.not_denotes_null denotes'
      · exact sound.not_denotes_null none
  · rw [value]
    rcases right with ⟨null', value'⟩ | ⟨k', o', value', allocated', denotes'⟩
    · rw [null', value']
      refine iff_of_false ?_ (by simp)
      rintro (⟨null, _⟩ | ⟨o, _, none⟩)
      · rw [null] at denotes
        exact sound.not_denotes_null denotes
      · exact sound.not_denotes_null none
    · rw [value']
      constructor
      · rintro (⟨null, _⟩ | ⟨one, left, right⟩)
        · rw [null] at denotes
          exact absurd denotes sound.not_denotes_null
        · cases sound.denotes_unique denotes left
          cases sound.denotes_unique denotes' right
          obtain ⟨below, _⟩ := List.getElem?_eq_some_iff.mp allocated
          rw [(List.getElem?_inj below sound.linked.distinct).mp
            (allocated.trans allocated'.symm)]
      · intro same
        cases same
        rw [allocated] at allocated'
        cases allocated'
        exact .inr ⟨o, denotes, denotes'⟩

/-- Instructions and completed synchronous cycles in any order, with the
instructions that were executed and the answers of their allocations. -/
inductive CollectedRun (arena : Arena cheri) :
    List (Op × Bool) → List Nat → Machine → Prop where
  | boot : CollectedRun arena [] [] Machine.boot
  | op {trace : List (Op × Bool)} {objs : List Nat} {m m' : Machine} (op : Op)
      (pc fuel : Nat) {granted : Bool} :
      CollectedRun arena trace objs m → op.Admissible cheri m →
      exec arena none pc fuel m op = some (m', granted) →
      CollectedRun arena (trace ++ [(op, granted)])
        (objs ++ births arena m op) m'
  | cycle {trace : List (Op × Bool)} {objs : List Nat} {m m' : Machine}
      {env : Env} {replies : Replies} {roots : List Nat} {moved : List Cap} :
      CollectedRun arena trace objs m → env.Synchronous →
      (∀ p, p ∈ roots → RootSlot arena m p) →
      doit arena env replies roots m = .ok (m', moved) →
      CycleFits arena env replies roots m m' →
      KernelSucceeds replies moved → CollectedRun arena trace objs m'

theorem CollectedRun.soundRun {trace : List (Op × Bool)} {objs : List Nat}
    {m : Machine} (run : CollectedRun arena trace objs m) :
    SoundRun arena objs m := by
  induction run with
  | boot => exact .boot
  | op op pc fuel _ admissible ran ih => exact .op op pc fuel ih admissible ran
  | cycle _ mode slots returned fits succeeds ih =>
      exact .cycle ih mode slots returned fits succeeds

theorem represents_boot : Represents arena [] Machine.boot Plain.boot where
  count := rfl
  objects := by
    intro i o object allocated
    cases allocated
  frame := fun _ => ⟨_, rfl, .int 0⟩
  regs := fun _ => .int 0

/-- What the mutator sees is what the plain machine has: all values, the
decisions of the identity barrier, and that every instruction with a meaning
there completes here and does the same. -/
structure Transparent (arena : Arena cheri) (objs : List Nat) (m : Machine)
    (s : Plain) : Prop where
  represents : Represents arena objs m s
  identity : ∀ {i j}, (s.regs i).IsReference → (s.regs j).IsReference →
    (ifAcmp arena m.table (m.regs i) (m.regs j) = true ↔
      s.regs i = s.regs j)
  completes : ∀ {op granted s' fuel} (pc : Nat), op.OnFrame arena →
    op.Admissible cheri m → s.step granted op = some s' → 2 ≤ fuel →
    ∃ m' answer s'', exec arena none pc fuel m op = some (m', answer) ∧
      s.step answer op = some s'' ∧
      Represents arena (objs ++ births arena m op) m' s''

/-- Wherever cycles come between the instructions, the machine has simulated
the plain one. -/
theorem gc_transparent (laws : cheri.Laws) {trace : List (Op × Bool)}
    {objs : List Nat} {m : Machine} (run : CollectedRun arena trace objs m)
    {s : Plain} (plain : Plain.boot.run trace = some s) :
    Transparent arena objs m s := by
  obtain ⟨ext, sound, short⟩ := run.soundRun.sound laws
  have represents : Represents arena objs m s := by
    clear sound short
    induction run generalizing s with
    | boot =>
        cases plain
        exact represents_boot
    | op op pc fuel run admissible ran ih =>
        obtain ⟨s₁, before, stepped⟩ := Plain.run_snoc plain
        obtain ⟨ext, sound, short⟩ := run.soundRun.sound laws
        exact (ih before).executed laws sound short admissible stepped ran
    | cycle run mode slots returned fits succeeds ih =>
        obtain ⟨ext, sound, _⟩ := run.soundRun.sound laws
        exact (ih plain).cycle laws sound mode slots returned fits
  refine ⟨represents, ?_, ?_⟩
  · intro i j first second
    exact represents.identity laws sound short first second
  · intro op granted s' fuel pc onFrame admissible stepped enough
    obtain ⟨m', answer, ran⟩ :=
      represents.completes laws sound short pc onFrame stepped enough
    obtain ⟨s'', next⟩ := Plain.step_answer stepped answer
    exact ⟨m', answer, s'', ran, next,
      represents.executed laws sound short admissible next ran⟩

/-- A program whose cycles are checked, with its trace. -/
def performTraced (arena : Arena cheri) (trace : List (Op × Bool))
    (objs : List Nat) (m : Machine) :
    List Act → Option (List (Op × Bool) × List Nat × Machine)
  | [] => some (trace, objs, m)
  | .op op :: rest =>
      if op.Admissible cheri m then
        match exec arena none 0 4 m op with
        | none => none
        | some (m', granted) =>
            performTraced arena (trace ++ [(op, granted)])
              (objs ++ births arena m op) m' rest
      else none
  | .cycle env replies roots :: rest =>
      if roots.all (rootSlot arena m) then
        match doit arena env replies roots m with
        | .error _ => none
        | .ok (m', moved) =>
            if soundCycle arena m env replies roots m' moved then
              performTraced arena trace objs m' rest
            else none
      else none

theorem collectedRun_perform (laws : cheri.Laws) {acts : List Act}
    {trace trace' : List (Op × Bool)} {objs objs' : List Nat} {m m' : Machine}
    (run : CollectedRun arena trace objs m)
    (ran : performTraced arena trace objs m acts = some (trace', objs', m')) :
    CollectedRun arena trace' objs' m' := by
  induction acts generalizing trace objs m with
  | nil =>
      cases ran
      exact run
  | cons act rest ih =>
      cases act with
      | op op =>
          rw [performTraced] at ran
          split at ran
          case isTrue admissible =>
            cases executed : exec arena none 0 4 m op with
            | none =>
                rw [executed] at ran
                cases ran
            | some result =>
                rw [executed] at ran
                exact ih (.op op 0 4 run admissible executed) ran
          case isFalse => cases ran
      | cycle env replies roots =>
          rw [performTraced] at ran
          split at ran
          case isTrue accepted =>
            cases returned : doit arena env replies roots m with
            | error reason =>
                rw [returned] at ran
                cases ran
            | ok result =>
                obtain ⟨next, moved⟩ := result
                simp only [returned] at ran
                split at ran
                case isTrue met =>
                  have slots : ∀ p, p ∈ roots → RootSlot arena m p := by
                    intro p member
                    exact rootSlot_sound (List.all_eq_true.mp accepted p member)
                  obtain ⟨ext, sound, _⟩ := run.soundRun.sound laws
                  obtain ⟨mode, fits, succeeds⟩ :=
                    soundCycle_sound laws sound.heap slots returned met
                  exact ih (.cycle run mode slots returned fits succeeds) ran
                case isFalse => cases ran
          case isFalse => cases ran

/-- Two objects, the first with a reference to the second; both are moved, and
the second is read through stale references. -/
def readThrough : List Act :=
  [.op (.alloc 0 none 2), .op (.alloc 1 none 2), .op (.spill 16 0),
    .op (.store 0 16 1), .op (.imm 2 42), .op (.store 1 16 2),
    .cycle Env.unset Replies.granted [16, 2 ^ 30 + 16],
    .op (.load 3 0 16), .op (.load 4 3 16),
    .cycle { Env.unset with noFixup := true } Replies.granted [16]]

theorem gc_transparent_readThrough :
    ∃ trace objs m s, CollectedRun Arena.small trace objs m ∧
      Plain.boot.run trace = some s ∧ s.regs 4 = .int 42 ∧
      ftFind m.table (2 ^ 30 + 64) = some (2 ^ 30 + 128, 32) ∧
      Transparent Arena.small objs m s := by
  obtain ⟨⟨trace, objs, m⟩, ran, checked⟩ := (Option.any_eq_true _ _).mp
    (by decide +kernel : (performTraced Arena.small [] [] Machine.boot
      readThrough).any (fun r =>
        (Plain.boot.run r.1).any (fun s => decide (s.regs 4 = .int 42)) &&
        decide (ftFind r.2.2.table (2 ^ 30 + 64) =
          some (2 ^ 30 + 128, 32))) = true)
  rw [Bool.and_eq_true, decide_eq_true_eq] at checked
  obtain ⟨meaning, again⟩ := checked
  obtain ⟨s, plain, value⟩ := (Option.any_eq_true _ _).mp meaning
  have run := collectedRun_perform Intrinsics.exact_laws .boot ran
  exact ⟨trace, objs, m, s, run, plain, of_decide_eq_true value, again,
    gc_transparent Intrinsics.exact_laws run plain⟩

end StoplessGC
