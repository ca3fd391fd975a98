import StoplessGC.Transparency

/-!
# `Object.clone`

`JVM_Clone` copies an object word by word, each word as one capability, behind
the back of the access barriers.  Source and copy may move at any time before
and after; the source may be reached through a stale reference, which faults
and is healed at its first word.  To the mutator the copy has the fields of the
object, and nothing else has changed.
-/

namespace StoplessGC

open ForwardTable Allocator Forwarding Collector Handler

variable {cheri : Intrinsics} (arena : Arena cheri)

namespace Mutator

/-- `d[i] = s[i]`.  A field is held in the register `tmp` between the load and
the store. -/
def copyWord (evacuate : Option (Nat → Option Cap)) (pc fuel : Nat)
    (dst tmp src : Fin 30) (i : Nat) (m : Machine) : Option Machine :=
  match access arena evacuate m.table pc src (i * heapWordSize) fuel m.regs with
  | none => none
  | some regs =>
      match m.load (effective (regs src) (i * heapWordSize)) with
      | .header klass size =>
          match access arena evacuate m.table pc dst (i * heapWordSize) fuel
              regs with
          | none => none
          | some regs =>
              some (({ m with regs := regs } : Machine).store
                (effective (regs dst) (i * heapWordSize)) (.header klass size))
      | .value c =>
          match access arena evacuate m.table pc dst (i * heapWordSize) fuel
              (Function.update regs tmp c) with
          | none => none
          | some regs =>
              some (({ m with regs := regs } : Machine).store
                (effective (regs dst) (i * heapWordSize))
                (.value (regs tmp)))

/-- The loop over the first `n` words. -/
def copyWords (evacuate : Option (Nat → Option Cap)) (pc fuel : Nat)
    (dst tmp src : Fin 30) : Nat → Machine → Option Machine
  | 0, m => some m
  | n + 1, m =>
      match copyWords evacuate pc fuel dst tmp src n m with
      | none => none
      | some m => copyWord arena evacuate pc fuel dst tmp src n m

/-- `obj->klass()` and `obj->size()`. -/
def readHeader (evacuate : Option (Nat → Option Cap)) (pc fuel : Nat)
    (src : Fin 30) (m : Machine) : Option (Machine × Option Klass × Nat) :=
  match access arena evacuate m.table pc src 0 fuel m.regs with
  | none => none
  | some regs =>
      match m.load (effective (regs src) 0) with
      | .value _ => none
      | .header klass size => some ({ m with regs := regs }, klass, size)

/-- The boolean is false when there was no memory for the copy.  Sizes are
aligned already, and `init_mark` writes to the mark only, which is not part of
a header here. -/
def jvmClone (evacuate : Option (Nat → Option Cap)) (pc fuel : Nat)
    (dst tmp src : Fin 30) (m : Machine) : Option (Machine × Bool) :=
  match readHeader arena evacuate pc fuel src m with
  | none => none
  | some (m, klass, size) =>
      match exec arena evacuate pc fuel m (.alloc dst klass size) with
      | none => none
      | some (m, false) => some (m, false)
      | some (m, true) =>
          match copyWords arena evacuate pc fuel dst tmp src size m with
          | none => none
          | some m => some (m, true)

end Mutator

open Mutator

/-! ## The plain machine -/

/-- The first `n` words of the object, the others zero. -/
def PlainObject.upTo (object : PlainObject) (n : Nat) : PlainObject :=
  { object with
    fields := fun w =>
      if 0 < w ∧ w < n then object.fields w else .int 0 }

theorem PlainObject.upTo_succ (object : PlainObject) {w : Nat}
    (positive : 0 < w) :
    { object.upTo w with
        fields := Function.update (object.upTo w).fields w
          (object.fields w) } = object.upTo (w + 1) := by
  change PlainObject.mk _ _ _ = PlainObject.mk _ _ _
  congr 1
  funext k
  change Function.update (object.upTo w).fields w (object.fields w) k =
    if 0 < k ∧ k < w + 1 then object.fields k else .int 0
  by_cases here : k = w
  · subst here
    rw [Function.update_self, if_pos ⟨positive, Nat.lt_succ_self k⟩]
  · rw [Function.update_of_ne here]
    change (if 0 < k ∧ k < w then object.fields k else .int 0) = _
    by_cases before : 0 < k ∧ k < w
    · rw [if_pos before, if_pos (by omega)]
    · rw [if_neg before, if_neg (by omega)]

namespace Plain

theorem field_word {s : Plain} {i w : Nat} {object : PlainObject}
    (there : s.objects[i]? = some object) (positive : 0 < w)
    (below : w < object.size)
    (bytes : object.size * heapWordSize < addressSpace) :
    s.field (w * heapWordSize) (.ref i 0) = some (i, object, w) := by
  have small : (0 + w * heapWordSize) % addressSpace = w * heapWordSize := by
    rw [Nat.zero_add]
    apply Nat.mod_eq_of_lt
    rw [heapWordSize] at bytes ⊢
    omega
  have word : w * heapWordSize / heapWordSize = w :=
    Nat.mul_div_cancel w (by decide)
  unfold field
  simp only [there, small, word]
  rw [if_pos ⟨Nat.dvd_mul_left .., positive, below⟩]

/-- The state after `n` words; `tmp` holds the last one. -/
def cloned (s : Plain) (object : PlainObject) (dst tmp : Fin 30) (n : Nat) :
    Plain :=
  { s with
    objects := s.objects ++ [object.upTo n]
    regs := Function.update
      (Function.update s.regs dst (.ref s.objects.length 0)) tmp
      (if n ≤ 1 then s.regs tmp else object.fields (n - 1)) }

/-- What `clone` means; `granted` is the answer of the allocation. -/
def clone (s : Plain) (granted : Bool) (dst tmp src : Fin 30) :
    Option Plain :=
  match s.regs src with
  | .ref i 0 =>
      match s.objects[i]? with
      | none => none
      | some object =>
          if granted then some (s.cloned object dst tmp object.size)
          else some (s.setReg dst (.int 0))
  | _ => none

theorem clone_cases {s s' : Plain} {granted : Bool} {dst tmp src : Fin 30}
    (cloned : s.clone granted dst tmp src = some s') :
    ∃ i object, s.regs src = .ref i 0 ∧ s.objects[i]? = some object ∧
      s' = if granted then s.cloned object dst tmp object.size
        else s.setReg dst (.int 0) := by
  unfold clone at cloned
  split at cloned
  · rename_i i value
    split at cloned
    · cases cloned
    · rename_i object there
      refine ⟨i, object, value, there, ?_⟩
      cases granted <;> exact (Option.some.inj cloned).symm
  · cases cloned

theorem clone_eq {s : Plain} {dst tmp src : Fin 30} {i : Nat}
    {object : PlainObject} (value : s.regs src = .ref i 0)
    (there : s.objects[i]? = some object) (granted : Bool) :
    s.clone granted dst tmp src =
      some (if granted then s.cloned object dst tmp object.size
        else s.setReg dst (.int 0)) := by
  unfold clone
  simp only [value, there]
  cases granted <;> rfl

section Cloned

variable (s : Plain) (object : PlainObject) (dst tmp : Fin 30)

theorem cloned_zero (distinct : dst ≠ tmp) :
    s.cloned object dst tmp 0 =
      (s.alloc object.klass object.size).setReg dst
        (.ref s.objects.length 0) := by
  have empty : object.upTo 0 =
      { klass := object.klass
        size := object.size
        fields := fun _ => .int 0 } := by
    simp [PlainObject.upTo]
  have same : Function.update (Function.update s.regs dst
      (.ref s.objects.length 0)) tmp (s.regs tmp) =
      Function.update s.regs dst (.ref s.objects.length 0) := by
    rw [← Function.update_of_ne distinct.symm (Value.ref s.objects.length 0)
      s.regs, Function.update_eq_self]
  simp only [cloned, empty, Nat.zero_le, if_true, same]
  rfl

theorem cloned_one : s.cloned object dst tmp 1 = s.cloned object dst tmp 0 := by
  have same : object.upTo 1 = object.upTo 0 := by
    unfold PlainObject.upTo
    congr 1
    funext w
    rw [if_neg (by omega), if_neg (by omega)]
  simp [cloned, same]

theorem cloned_dst (distinct : dst ≠ tmp) (n : Nat) :
    (s.cloned object dst tmp n).regs dst = .ref s.objects.length 0 := by
  change Function.update _ tmp _ dst = _
  rw [Function.update_of_ne distinct, Function.update_self]

theorem cloned_copy (n : Nat) :
    (s.cloned object dst tmp n).objects[s.objects.length]? =
      some (object.upTo n) :=
  List.getElem?_concat_length

variable {s object dst tmp} {src : Fin 30} {i : Nat}

theorem cloned_src (value : s.regs src = .ref i 0) (first : src ≠ dst)
    (second : src ≠ tmp) (n : Nat) :
    (s.cloned object dst tmp n).regs src = .ref i 0 := by
  change Function.update _ tmp _ src = _
  rw [Function.update_of_ne second, Function.update_of_ne first, value]

theorem cloned_source (there : s.objects[i]? = some object) (n : Nat) :
    (s.cloned object dst tmp n).objects[i]? = some object := by
  obtain ⟨below, _⟩ := List.getElem?_eq_some_iff.mp there
  change (s.objects ++ [_])[i]? = _
  rw [List.getElem?_append_left below, there]

theorem cloned_succ (there : s.objects[i]? = some object)
    (value : s.regs src = .ref i 0) (first : src ≠ dst) (second : src ≠ tmp)
    (distinct : dst ≠ tmp) {w : Nat} (positive : 0 < w)
    (below : w < object.size)
    (bytes : object.size * heapWordSize < addressSpace) :
    ∃ s', (s.cloned object dst tmp w).step true
        (.load tmp src (w * heapWordSize)) = some s' ∧
      s'.step true (.store dst (w * heapWordSize) tmp) =
        some (s.cloned object dst tmp (w + 1)) := by
  have loaded : (s.cloned object dst tmp w).field (w * heapWordSize)
      (.ref i 0) = some (i, object, w) :=
    field_word (cloned_source there w) positive below bytes
  refine ⟨(s.cloned object dst tmp w).setReg tmp (object.fields w), ?_, ?_⟩
  · simp only [step, cloned_src value first second, loaded]
  · have target : ((s.cloned object dst tmp w).setReg tmp
        (object.fields w)).regs dst = .ref s.objects.length 0 := by
      change Function.update _ tmp _ dst = _
      rw [Function.update_of_ne distinct, cloned_dst s object dst tmp distinct]
    have stored : ((s.cloned object dst tmp w).setReg tmp
        (object.fields w)).field (w * heapWordSize)
          (.ref s.objects.length 0) =
        some (s.objects.length, object.upTo w, w) :=
      field_word (cloned_copy s object dst tmp w) positive below bytes
    have held : ((s.cloned object dst tmp w).setReg tmp
        (object.fields w)).regs tmp = object.fields w :=
      Function.update_self ..
    simp only [step, target, stored, held, object.upTo_succ positive]
    have objects : (s.objects ++ [object.upTo w]).set s.objects.length
        (object.upTo (w + 1)) = s.objects ++ [object.upTo (w + 1)] := by
      rw [List.set_append_right _ _ (Nat.le_refl _), Nat.sub_self]
      rfl
    have last : ¬ w + 1 ≤ 1 := by omega
    unfold cloned setReg
    simp only [objects, last, if_false, Nat.add_sub_cancel,
      Function.update_idem]

end Cloned

end Plain

/-! ## The machine -/

variable {arena}

theorem Machine.store_eq_self {m : Machine} {p : Nat} {w : Word}
    (there : m.mem p = w) : m.store p w = m := by
  rw [← there]
  simp [Machine.store]

/-- A state of a sound run and what it represents. -/
structure Mirrors (arena : Arena cheri) (objs : List Nat) (m : Machine)
    (s : Plain) : Prop where
  sound : ∃ ext, Sound arena objs ext m []
  short : Within (ftFind m.table) chaseMax
  represents : Represents arena objs m s

namespace Mirrors

variable {objs : List Nat} {m m' : Machine} {s s' : Plain} {pc fuel : Nat}
  {dst tmp src : Fin 30}

theorem exec (laws : cheri.Laws) (mirrors : Mirrors arena objs m s) {op : Op}
    {granted : Bool} (admissible : op.Admissible cheri m)
    (stepped : s.step granted op = some s')
    (ran : Mutator.exec arena none pc fuel m op = some (m', granted)) :
    Mirrors arena (objs ++ births arena m op) m' s' := by
  obtain ⟨ext, sound⟩ := mirrors.sound
  obtain ⟨ext', effect, born⟩ := exec_effect laws sound.heap admissible ran
  refine ⟨⟨ext', sound.effect laws effect born⟩, ?_,
    mirrors.represents.executed laws sound mirrors.short admissible stepped
      ran⟩
  rw [effect.table_eq]
  exact mirrors.short

theorem sized (mirrors : Mirrors arena objs m s) {base : Fin 30} {i off : Nat}
    {object : PlainObject} (value : s.regs base = .ref i off)
    (plain : s.objects[i]? = some object) :
    0 < object.size ∧ object.size * heapWordSize < addressSpace := by
  obtain ⟨ext, sound⟩ := mirrors.sound
  have rep := mirrors.represents.regs base
  rw [value] at rep
  obtain ⟨o, allocated, _⟩ := sound.refers (sound.heap.caps.regs base) rep
  obtain ⟨e, ends, contains⟩ := mirrors.represents.objects allocated plain
  obtain ⟨l, there⟩ := sound.extent allocated ends
  obtain ⟨klass, size, header, sized⟩ := sound.heap.headers there
  rw [contains.header] at header
  cases header
  exact ⟨sized.positive, sized.bytes⟩

/-- An access to a word of an object completes; afterwards the base register
refers to the last copy. -/
theorem access (laws : cheri.Laws) (mirrors : Mirrors arena objs m s)
    {base : Fin 30} {i w : Nat} {object : PlainObject} (pc : Nat)
    (value : s.regs base = .ref i 0) (plain : s.objects[i]? = some object)
    (below : w < object.size) (enough : 2 ≤ fuel) :
    ∃ o e regs, objs[i]? = some o ∧ Ends (ftFind m.table) o e ∧
      Contains m objs e object ∧
      Mutator.access arena none m.table pc base (w * heapWordSize) fuel m.regs =
        some regs ∧
      effective (regs base) (w * heapWordSize) = e + w * heapWordSize ∧
      Mirrors arena objs { m with regs := regs } s := by
  obtain ⟨ext, sound⟩ := mirrors.sound
  obtain ⟨fuel, rfl⟩ : ∃ n, fuel = n + 2 := ⟨fuel - 2, by omega⟩
  have bytes : w * heapWordSize < addressSpace := by
    have all := (mirrors.sized value plain).2
    rw [heapWordSize] at all ⊢
    omega
  obtain ⟨o, e, regs, allocated, ends, contains, accessed, rep⟩ :=
    sound.reached laws mirrors.short mirrors.represents pc value plain
      (by rw [Nat.zero_add, Nat.mod_eq_of_lt bytes]) below
  have passed := accessed.completes fuel
  have derived := access_derived (m := m) Derived.reg passed
  have after := sound.effect laws (.regs derived) .none
  rw [List.append_nil] at after
  exact ⟨o, e, regs, allocated, ends, contains, passed, accessed.goes,
    ⟨ext, after⟩, mirrors.short, mirrors.represents.withRegs rep⟩

theorem readHeader (laws : cheri.Laws) (mirrors : Mirrors arena objs m s)
    {i : Nat} {object : PlainObject} (pc : Nat) (value : s.regs src = .ref i 0)
    (plain : s.objects[i]? = some object) (enough : 2 ≤ fuel) :
    ∃ regs, Mutator.readHeader arena none pc fuel src m =
        some ({ m with regs := regs }, object.klass, object.size) ∧
      Mirrors arena objs { m with regs := regs } s ∧
      object.size * heapWordSize < addressSpace := by
  have sized := mirrors.sized value plain
  obtain ⟨o, e, regs, _, _, contains, passed, goes, after⟩ :=
    mirrors.access laws pc value plain sized.1 enough
  rw [Nat.zero_mul] at passed goes
  refine ⟨regs, ?_, after, sized.2⟩
  unfold Mutator.readHeader
  simp only [passed, goes, Nat.add_zero, Machine.load, contains.header]

/-- The header is copied over an equal one. -/
theorem copyHeader (laws : cheri.Laws) (mirrors : Mirrors arena objs m s)
    {i j : Nat} {object copy : PlainObject} (value : s.regs src = .ref i 0)
    (plain : s.objects[i]? = some object) (target : s.regs dst = .ref j 0)
    (there : s.objects[j]? = some copy) (klass : copy.klass = object.klass)
    (size : copy.size = object.size) (positive : 0 < object.size)
    (enough : 2 ≤ fuel) :
    ∃ m', copyWord arena none pc fuel dst tmp src 0 m = some m' ∧
      Mirrors arena objs m' s := by
  obtain ⟨_, e, regs, _, _, contains, passed, goes, after⟩ :=
    mirrors.access laws pc value plain positive enough
  obtain ⟨_, e', regs', _, _, contains', passed', goes', after'⟩ :=
    after.access laws pc target there (size ▸ positive : 0 < copy.size) enough
  rw [Nat.zero_mul, Nat.add_zero] at goes goes'
  refine ⟨{ m with regs := regs' }, ?_, after'⟩
  have same : m.mem e' = .header object.klass object.size := by
    rw [← klass, ← size]
    exact contains'.header
  unfold copyWord
  rw [Nat.zero_mul] at passed passed' ⊢
  simp only [passed, goes, Machine.load, contains.header, passed', goes']
  exact congrArg some
    (Machine.store_eq_self (m := { m with regs := regs' }) same)

theorem copyField (laws : cheri.Laws) (mirrors : Mirrors arena objs m s)
    {w : Nat} {s₁ : Plain}
    (loaded : s.step true (.load tmp src (w * heapWordSize)) = some s₁)
    (stored : s₁.step true (.store dst (w * heapWordSize) tmp) = some s')
    (enough : 2 ≤ fuel) :
    ∃ m', copyWord arena none pc fuel dst tmp src w m = some m' ∧
      Mirrors arena objs m' s' := by
  obtain ⟨ext, sound⟩ := mirrors.sound
  obtain ⟨m₁, answer, first⟩ := mirrors.represents.completes laws sound
    mirrors.short pc (by exact trivial) loaded enough
  -- only an allocation depends on the answer
  have loads : s.step answer (.load tmp src (w * heapWordSize)) = some s₁ :=
    loaded
  have between : Mirrors arena (objs ++ []) m₁ s₁ :=
    mirrors.exec laws (by exact trivial) loads first
  obtain ⟨ext₁, sound₁⟩ := between.sound
  obtain ⟨m₂, answer', second⟩ := between.represents.completes laws sound₁
    between.short pc (by exact trivial) stored enough
  have stores : s₁.step answer' (.store dst (w * heapWordSize) tmp) = some s' :=
    stored
  have after : Mirrors arena ((objs ++ []) ++ []) m₂ s' :=
    between.exec laws (by exact trivial) stores second
  rw [List.append_nil, List.append_nil] at after
  refine ⟨m₂, ?_, after⟩
  obtain ⟨regs, c, passed, word, rfl⟩ := exec_load arena first
  obtain ⟨regs', c', passed', _, rfl⟩ := exec_store arena second
  unfold copyWord
  simp only [passed, word]
  change Mutator.access arena none m.table pc dst (w * heapWordSize) fuel
    (Function.update regs tmp c) = _ at passed'
  simp only [passed']
  rfl

theorem copyWords (laws : cheri.Laws) {object : PlainObject} {i n : Nat}
    (mirrors : Mirrors arena objs m (s.cloned object dst tmp 0))
    (value : s.regs src = .ref i 0) (plain : s.objects[i]? = some object)
    (first : src ≠ dst) (second : src ≠ tmp) (distinct : dst ≠ tmp)
    (bytes : object.size * heapWordSize < addressSpace) (enough : 2 ≤ fuel)
    (within : n ≤ object.size) :
    ∃ m', Mutator.copyWords arena none pc fuel dst tmp src n m = some m' ∧
      Mirrors arena objs m' (s.cloned object dst tmp n) := by
  induction n with
  | zero => exact ⟨m, rfl, mirrors⟩
  | succ n ih =>
      obtain ⟨m', ran, before⟩ := ih (by omega)
      have next : ∃ m'', copyWord arena none pc fuel dst tmp src n m' =
          some m'' ∧
          Mirrors arena objs m'' (s.cloned object dst tmp (n + 1)) := by
        rcases Nat.eq_zero_or_pos n with rfl | positive
        · rw [Plain.cloned_one]
          exact before.copyHeader laws (Plain.cloned_src value first second 0)
            (Plain.cloned_source plain 0)
            (Plain.cloned_dst s object dst tmp distinct 0)
            (Plain.cloned_copy s object dst tmp 0) rfl rfl within enough
        · obtain ⟨s₁, loaded, stored⟩ := Plain.cloned_succ plain value first
            second distinct positive within bytes
          exact before.copyField laws loaded stored enough
      obtain ⟨m'', copied, after⟩ := next
      refine ⟨m'', ?_, after⟩
      simp only [Mutator.copyWords, ran, copied]

theorem jvmClone (laws : cheri.Laws) (mirrors : Mirrors arena objs m s)
    {i : Nat} {object : PlainObject} (pc : Nat) (value : s.regs src = .ref i 0)
    (plain : s.objects[i]? = some object) (first : src ≠ dst)
    (second : src ≠ tmp) (distinct : dst ≠ tmp)
    (room : NoWrap cheri m.bumpOffset
      (cheri.representableLength (object.size * heapWordSize)))
    (enough : 2 ≤ fuel) :
    ∃ m₁ m' granted, Mutator.readHeader arena none pc fuel src m =
        some (m₁, object.klass, object.size) ∧
      Mutator.jvmClone arena none pc fuel dst tmp src m = some (m', granted) ∧
      Mirrors arena (objs ++ births arena m₁ (.alloc dst object.klass
        object.size)) m' (if granted then s.cloned object dst tmp object.size
          else s.setReg dst (.int 0)) := by
  obtain ⟨regs, header, healed, bytes⟩ :=
    mirrors.readHeader laws pc value plain enough
  generalize found : ({ m with regs := regs } : Machine) = m₁ at header healed
  have admissible :
      (Op.alloc dst object.klass object.size).Admissible cheri m₁ := by
    rw [← found]
    exact ⟨bytes, room⟩
  obtain ⟨ext, sound⟩ := healed.sound
  obtain ⟨m₂, granted, ran⟩ := healed.represents.completes laws sound
    healed.short pc (by exact trivial)
    (rfl : s.step true (.alloc dst object.klass object.size) = some _) enough
  have stepped : s.step granted (.alloc dst object.klass object.size) =
      some (if granted then s.cloned object dst tmp 0
        else s.setReg dst (.int 0)) := by
    rw [Plain.cloned_zero _ _ _ _ distinct]
    cases granted <;> rfl
  have allocated := healed.exec laws admissible stepped ran
  cases granted with
  | false =>
      refine ⟨m₁, m₂, false, header, ?_, allocated⟩
      unfold Mutator.jvmClone
      simp only [header, ran]
  | true =>
      obtain ⟨m', copied, after⟩ : ∃ m', Mutator.copyWords arena none pc fuel
          dst tmp src object.size m₂ = some m' ∧ _ :=
        allocated.copyWords laws value plain first second distinct bytes enough
          (Nat.le_refl object.size)
      refine ⟨m₁, m', true, header, ?_, after⟩
      unfold Mutator.jvmClone
      simp only [header, ran, copied]

theorem transparent (laws : cheri.Laws) (mirrors : Mirrors arena objs m s) :
    Transparent arena objs m s := by
  obtain ⟨ext, sound⟩ := mirrors.sound
  refine ⟨mirrors.represents, ?_, ?_⟩
  · intro i j first second
    exact mirrors.represents.identity laws sound mirrors.short first second
  · intro op granted s' fuel pc onFrame admissible stepped enough
    obtain ⟨m', answer, ran⟩ := mirrors.represents.completes laws sound
      mirrors.short pc onFrame stepped enough
    obtain ⟨s'', next⟩ := Plain.step_answer stepped answer
    exact ⟨m', answer, s'', ran, next,
      (mirrors.exec laws admissible next ran).represents⟩

end Mirrors

/-! ## Runs -/

/-- What a mutator does between two safepoints. -/
inductive Action where
  | op (op : Op)
  | clone (dst tmp src : Fin 30)

def Plain.act (s : Plain) (granted : Bool) : Action → Option Plain
  | .op op => s.step granted op
  | .clone dst tmp src => s.clone granted dst tmp src

/-- A whole program, with the answers of its allocations. -/
def Plain.acts (s : Plain) (trace : List (Action × Bool)) : Option Plain :=
  trace.foldlM (fun s action => s.act action.2 action.1) s

theorem Plain.acts_concat (s : Plain) (trace : List (Action × Bool))
    (action : Action) (granted : Bool) :
    s.acts (trace ++ [(action, granted)]) =
      (s.acts trace).bind fun s => s.act granted action := by
  rw [Plain.acts, List.foldlM_append]
  congr 1
  funext s
  change (s.act granted action >>= pure) = _
  exact bind_pure _

/-- Instructions, calls of `clone` and completed synchronous cycles in any
order. -/
inductive CloningRun (arena : Arena cheri) :
    List (Action × Bool) → List Nat → Machine → Prop where
  | boot : CloningRun arena [] [] Machine.boot
  | op {trace : List (Action × Bool)} {objs : List Nat} {m m' : Machine}
      (op : Op) (pc fuel : Nat) {granted : Bool} :
      CloningRun arena trace objs m → op.Admissible cheri m →
      exec arena none pc fuel m op = some (m', granted) →
      CloningRun arena (trace ++ [(.op op, granted)])
        (objs ++ births arena m op) m'
  | clone {trace : List (Action × Bool)} {objs : List Nat} {m m₁ m' : Machine}
      {dst tmp src : Fin 30} (pc fuel : Nat) {klass : Option Klass}
      {size : Nat} {granted : Bool} :
      CloningRun arena trace objs m → src ≠ dst → src ≠ tmp → dst ≠ tmp →
      2 ≤ fuel → readHeader arena none pc fuel src m = some (m₁, klass, size) →
      NoWrap cheri m.bumpOffset
        (cheri.representableLength (size * heapWordSize)) →
      jvmClone arena none pc fuel dst tmp src m = some (m', granted) →
      CloningRun arena (trace ++ [(.clone dst tmp src, granted)])
        (objs ++ births arena m₁ (.alloc dst klass size)) m'
  | cycle {trace : List (Action × Bool)} {objs : List Nat} {m m' : Machine}
      {env : Env} {replies : Replies} {roots : List Nat} {moved : List Cap} :
      CloningRun arena trace objs m → env.Synchronous →
      (∀ p, p ∈ roots → RootSlot arena m p) →
      doit arena env replies roots m = .ok (m', moved) →
      CycleFits arena env replies roots m m' →
      KernelSucceeds replies moved → CloningRun arena trace objs m'

namespace CloningRun

variable {trace : List (Action × Bool)} {objs : List Nat} {m : Machine}
  {s : Plain}

theorem mirrors (laws : cheri.Laws) (run : CloningRun arena trace objs m)
    (plain : Plain.boot.acts trace = some s) : Mirrors arena objs m s := by
  induction run generalizing s with
  | boot =>
      cases plain
      obtain ⟨ext, sound, short⟩ :=
        SoundRun.sound laws (.boot : SoundRun arena [] _)
      exact ⟨⟨ext, sound⟩, short, represents_boot⟩
  | op op pc fuel _ admissible ran ih =>
      rw [Plain.acts_concat] at plain
      obtain ⟨s₁, before, stepped⟩ := Option.bind_eq_some_iff.mp plain
      exact (ih before).exec laws admissible stepped ran
  | @clone trace objs m m₁ m' dst tmp src pc fuel klass size granted _ first
      second distinct enough header room ran ih =>
      rw [Plain.acts_concat] at plain
      obtain ⟨s₁, before, stepped⟩ := Option.bind_eq_some_iff.mp plain
      obtain ⟨i, object, value, there, rfl⟩ := Plain.clone_cases stepped
      obtain ⟨regs, header', _, _⟩ :=
        (ih before).readHeader laws pc value there enough
      rw [header'] at header
      cases header
      obtain ⟨m₂, m₃, answer, header, ran', after⟩ := (ih before).jvmClone laws
        pc value there first second distinct room enough
      rw [header'] at header
      cases header
      rw [ran] at ran'
      cases ran'
      exact after
  | cycle _ mode slots returned fits succeeds ih =>
      have mirrored := ih plain
      obtain ⟨ext, sound⟩ := mirrored.sound
      exact ⟨sound.cycle laws mode slots returned fits succeeds, fits.short,
        mirrored.represents.cycle laws sound mode slots returned fits⟩

theorem ofCollected {trace : List (Op × Bool)}
    (run : CollectedRun arena trace objs m) :
    CloningRun arena (trace.map fun action => (.op action.1, action.2)) objs
      m := by
  induction run with
  | boot => exact .boot
  | op op pc fuel _ admissible ran ih =>
      rw [List.map_append]
      exact .op op pc fuel ih admissible ran
  | cycle _ mode slots returned fits succeeds ih =>
      exact .cycle ih mode slots returned fits succeeds

end CloningRun

theorem Plain.acts_ops (s : Plain) (trace : List (Op × Bool)) :
    s.acts (trace.map fun action => (.op action.1, action.2)) =
      s.run trace := by
  induction trace generalizing s with
  | nil => rfl
  | cons action rest ih =>
      obtain ⟨op, granted⟩ := action
      rw [List.map_cons, Plain.acts, List.foldlM_cons, Plain.run]
      change (s.step granted op >>= fun s => Plain.acts s _) = _
      cases s.step granted op with
      | none => rfl
      | some s => exact ih s

/-- `clone` goes through, whether or not the reference is stale, and means what
it does on the plain machine. -/
def ClonesAnything (arena : Arena cheri) (trace : List (Action × Bool))
    (m : Machine) (s : Plain) : Prop :=
  ∀ {dst tmp src : Fin 30} {i fuel : Nat} {object : PlainObject} (pc : Nat),
    src ≠ dst → src ≠ tmp → dst ≠ tmp → s.regs src = .ref i 0 →
    s.objects[i]? = some object →
    NoWrap cheri m.bumpOffset
      (cheri.representableLength (object.size * heapWordSize)) → 2 ≤ fuel →
    ∃ m' granted objs', jvmClone arena none pc fuel dst tmp src m =
        some (m', granted) ∧
      CloningRun arena (trace ++ [(.clone dst tmp src, granted)]) objs' m' ∧
      Plain.boot.acts (trace ++ [(.clone dst tmp src, granted)]) =
        some (if granted then s.cloned object dst tmp object.size
          else s.setReg dst (.int 0))

/-- Wherever cycles come between the instructions and the calls of `clone`, the
machine has simulated the plain one, and can clone every object. -/
theorem jvmClone_transparent (laws : cheri.Laws)
    {trace : List (Action × Bool)} {objs : List Nat} {m : Machine}
    (run : CloningRun arena trace objs m) {s : Plain}
    (plain : Plain.boot.acts trace = some s) :
    Transparent arena objs m s ∧ ClonesAnything arena trace m s := by
  have mirrors := run.mirrors laws plain
  refine ⟨mirrors.transparent laws, ?_⟩
  intro dst tmp src i fuel object pc first second distinct value there room
    enough
  obtain ⟨m₁, m', granted, header, ran, _⟩ := mirrors.jvmClone laws pc value
    there first second distinct room enough
  refine ⟨m', granted, _, ran, .clone pc fuel run first second distinct enough
    header room ran, ?_⟩
  rw [Plain.acts_concat, plain]
  exact Plain.clone_eq value there granted

/-- An object that is moved, but for the reference in a register. -/
def moveBehind : List Act :=
  [.op (.alloc 0 none 2), .op (.imm 2 42), .op (.store 0 16 2),
    .op (.spill 16 0), .cycle Env.unset Replies.granted [16]]

theorem jvmClone_transparent_moveBehind :
    ∃ m m' s trace objs, (m.regs 0).tag = false ∧
      jvmClone Arena.small none 0 2 5 6 0 m = some (m', true) ∧
      CloningRun Arena.small trace objs m' ∧
      Plain.boot.acts trace = some s ∧ Transparent Arena.small objs m' s ∧
      s.regs 5 = .ref 1 0 ∧ s.regs 6 = .int 42 := by
  obtain ⟨⟨trace, objs, m⟩, ran, checked⟩ := (Option.any_eq_true _ _).mp
    (by decide +kernel : (performTraced Arena.small [] [] Machine.boot
      moveBehind).any (fun r =>
        (Plain.boot.run r.1).any (fun s => decide (s.regs 0 = .ref 0 0) &&
          decide (s.objects.length = 1) &&
          (s.objects[0]?).any fun object =>
            decide (object.size = 2 ∧ object.fields 1 = .int 42)) &&
        decide ((r.2.2.regs 0).tag = false ∧ r.2.2.bumpOffset = 64) &&
        (jvmClone Arena.small none 0 2 5 6 0 r.2.2).any (fun r => r.2)) = true)
  simp only [Bool.and_eq_true, decide_eq_true_eq, Option.any_eq_true]
    at checked
  obtain ⟨⟨⟨s, plain, ⟨value, one⟩, object, there, size, field⟩, stale, bump⟩,
    ⟨m', answer⟩, copied, granted⟩ := checked
  cases granted
  have run := CloningRun.ofCollected
    (collectedRun_perform Intrinsics.exact_laws .boot ran)
  have acted := (Plain.boot.acts_ops trace).trans plain
  have room : NoWrap Intrinsics.exact m.bumpOffset
      (Intrinsics.exact.representableLength (object.size * heapWordSize)) := by
    rw [bump, size]
    change _ < _
    decide
  obtain ⟨_, _, objs', ran', next, acts⟩ :=
    (jvmClone_transparent Intrinsics.exact_laws run acted).2 0
      (by decide : (0 : Fin 30) ≠ 5) (by decide : (0 : Fin 30) ≠ 6)
      (by decide : (5 : Fin 30) ≠ 6) value there room (Nat.le_refl 2)
  rw [copied] at ran'
  cases ran'
  rw [if_pos rfl] at acts
  refine ⟨m, m', _, _, objs', stale, copied, next, acts,
    (jvmClone_transparent Intrinsics.exact_laws next acts).1, ?_, ?_⟩
  · rw [Plain.cloned_dst _ _ _ _ (by decide), one]
  · change (if object.size ≤ 1 then _ else object.fields (object.size - 1)) = _
    rw [size]
    exact field

end StoplessGC
