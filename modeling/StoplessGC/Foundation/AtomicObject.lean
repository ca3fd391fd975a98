import StoplessGC.Foundation.Interleaving

/-!
# Objects whose calls take effect at one instant

An implementation runs each call of an object in several atomic steps, and the
steps of calls by different processes interleave.  The specification lets a
call take effect in one step.  A simulation tells of every point at which a
call can stand whether it has taken effect there, and with which result.  It
follows that every program sees over the implementation what it can see over
the specification: the same shared state and the same local states.
-/

namespace AtomicObject

open Interleaving

variable {ι γ ρ σ α Call Pc Result : Type*}

/-- An object whose calls run in atomic steps over a memory. -/
structure Implementation (σ Call Pc Result : Type*) where
  enter : Call → Pc
  step : Call → σ → Pc → σ → Pc → Prop
  result : Call → Pc → Option Result

/-- The processes that use the object, over a state of their own.  A process
that waits at a call takes no other step. -/
structure Client (ι γ ρ Call Result : Type*) where
  step : ι → γ → ρ → γ → ρ → Prop
  call : ρ → Option Call
  resume : ρ → Result → ρ

section Runs

variable (client : Client ι γ ρ Call Result)

/-- A step of a process over the implementation. -/
inductive ConcreteStep (impl : Implementation σ Call Pc Result) (i : ι) :
    γ × σ → ρ × Option (Call × Pc) → γ × σ → ρ × Option (Call × Pc) →
    Prop where
  | own {g g' : γ} {s : σ} {l l' : ρ} :
      client.call l = none → client.step i g l g' l' →
      ConcreteStep impl i (g, s) (l, none) (g', s) (l', none)
  | enter {g : γ} {s : σ} {l : ρ} {call : Call} :
      client.call l = some call →
      ConcreteStep impl i (g, s) (l, none) (g, s)
        (l, some (call, impl.enter call))
  | access {g : γ} {s s' : σ} {l : ρ} {call : Call} {pc pc' : Pc} :
      impl.step call s pc s' pc' →
      ConcreteStep impl i (g, s) (l, some (call, pc)) (g, s')
        (l, some (call, pc'))
  | leave {g : γ} {s : σ} {l : ρ} {call : Call} {pc : Pc} {r : Result} :
      impl.result call pc = some r →
      ConcreteStep impl i (g, s) (l, some (call, pc)) (g, s)
        (client.resume l r, none)

/-- A step of a process over the specification. -/
inductive AtomicStep (effect : Call → α → α → Result → Prop) (i : ι) :
    γ × α → ρ × Option Result → γ × α → ρ × Option Result → Prop where
  | own {g g' : γ} {a : α} {l l' : ρ} :
      client.call l = none → client.step i g l g' l' →
      AtomicStep effect i (g, a) (l, none) (g', a) (l', none)
  | effect {g : γ} {a a' : α} {l : ρ} {call : Call} {r : Result} :
      client.call l = some call → effect call a a' r →
      AtomicStep effect i (g, a) (l, none) (g, a') (l, some r)
  | leave {g : γ} {a : α} {l : ρ} {r : Result} :
      AtomicStep effect i (g, a) (l, some r) (g, a) (client.resume l r, none)

variable [DecidableEq ι]

abbrev ConcreteReachable (impl : Implementation σ Call Pc Result) :=
  Reachable (ConcreteStep client impl)

abbrev AtomicReachable (effect : Call → α → α → Result → Prop) :=
  Reachable (AtomicStep client effect)

end Runs

/-- `holds` is kept by calls of all processes that satisfy `proper`; `taken`
is the result of a call that has taken effect; a call takes effect in one of
its steps, which changes what `view` shows as the specification says. -/
structure Simulation [DecidableEq ι] (impl : Implementation σ Call Pc Result)
    (effect : Call → α → α → Result → Prop) (proper : Call → Prop)
    (holds : σ → (ι → Option (Call × Pc)) → Prop) (view : σ → α)
    (taken : Call → Pc → Option Result) : Prop where
  enter : ∀ {s calls} {i : ι} {call}, holds s calls → calls i = none →
    proper call →
    holds s (Function.update calls i (some (call, impl.enter call))) ∧
      taken call (impl.enter call) = none
  access : ∀ {s calls} {i : ι} {call pc s' pc'}, holds s calls →
    calls i = some (call, pc) → impl.step call s pc s' pc' →
    holds s' (Function.update calls i (some (call, pc'))) ∧
      (taken call pc' = taken call pc ∧ view s' = view s ∨
        taken call pc = none ∧ ∃ r, taken call pc' = some r ∧
          effect call (view s) (view s') r)
  leave : ∀ {s calls} {i : ι} {call pc r}, holds s calls →
    calls i = some (call, pc) → impl.result call pc = some r →
    holds s (Function.update calls i none) ∧ taken call pc = some r

section Reliance

variable [DecidableEq ι]

/-- What holds of every call in progress, when one process changes its own. -/
theorem each_update {calls : ι → Option (Call × Pc)} {relies : Call → Pc → Prop}
    (others : ∀ i call pc, calls i = some (call, pc) → relies call pc) (i : ι)
    {running : Option (Call × Pc)}
    (own : ∀ call pc, running = some (call, pc) → relies call pc) :
    ∀ j call pc, Function.update calls i running j = some (call, pc) →
      relies call pc := by
  apply (Function.forall_update_iff calls fun _ running =>
    ∀ call pc, running = some (call, pc) → relies call pc).mpr
  exact ⟨own, fun j _ => others j⟩

/-- A simulation in which each call relies on the memory only, and no step
takes from another call what it relies on. -/
theorem Simulation.ofReliance {impl : Implementation σ Call Pc Result}
    {effect : Call → α → α → Result → Prop} {proper : Call → Prop}
    {view : σ → α} {taken : Call → Pc → Option Result}
    {relies : σ → Call → Pc → Prop}
    (enter : ∀ s call, proper call → relies s call (impl.enter call) ∧
      taken call (impl.enter call) = none)
    (access : ∀ {s call pc s' pc'}, relies s call pc →
      impl.step call s pc s' pc' →
      (∀ other place, relies s other place → relies s' other place) ∧
        relies s' call pc' ∧
        (taken call pc' = taken call pc ∧ view s' = view s ∨
          taken call pc = none ∧ ∃ r, taken call pc' = some r ∧
            effect call (view s) (view s') r))
    (leave : ∀ {call pc r}, impl.result call pc = some r →
      taken call pc = some r) :
    Simulation (ι := ι) impl effect proper
      (fun s calls => ∀ i call pc, calls i = some (call, pc) →
        relies s call pc) view taken where
  enter := by
    intro s calls i call held _ fine
    obtain ⟨fresh, untaken⟩ := enter s call fine
    refine ⟨each_update held i ?_, untaken⟩
    rintro _ _ ⟨⟩
    exact fresh
  access := by
    intro s calls i call pc s' pc' held running stepped
    obtain ⟨stable, next, effected⟩ := access (held i call pc running) stepped
    refine ⟨each_update (fun j other place theirs =>
      stable other place (held j other place theirs)) i ?_, effected⟩
    rintro _ _ ⟨⟩
    exact next
  leave := by
    intro s calls i call pc r held _ back
    refine ⟨each_update held i ?_, leave back⟩
    rintro _ _ ⟨⟩

end Reliance

section Refinement

variable {client : Client ι γ ρ Call Result} {view : σ → α}
  {taken : Call → Pc → Option Result}

/-- The same client state over the specification. -/
structure Matches (client : Client ι γ ρ Call Result) (view : σ → α)
    (taken : Call → Pc → Option Result)
    (c : Config ι (γ × σ) (ρ × Option (Call × Pc)))
    (a : Config ι (γ × α) (ρ × Option Result)) : Prop where
  shared : a.shared = (c.shared.1, view c.shared.2)
  own : ∀ i, (a.locals i).1 = (c.locals i).1
  outcome : ∀ i, (a.locals i).2 =
    (c.locals i).2.bind fun running => taken running.1 running.2
  waiting : ∀ i call pc, (c.locals i).2 = some (call, pc) →
    client.call (c.locals i).1 = some call

/-- Where a program starts over the specification. -/
def atomicStart (view : σ → α)
    (c : Config ι (γ × σ) (ρ × Option (Call × Pc))) :
    Config ι (γ × α) (ρ × Option Result) :=
  { shared := (c.shared.1, view c.shared.2)
    locals := fun i => ((c.locals i).1, none) }

variable [DecidableEq ι] {c : Config ι (γ × σ) (ρ × Option (Call × Pc))}
  {a : Config ι (γ × α) (ρ × Option Result)}

theorem Matches.advance (matched : Matches client view taken c a) {i : ι}
    {g : γ} {s : σ} {l : ρ} {running : Option (Call × Pc)}
    {outcome : Option Result}
    (same : outcome = running.bind fun r => taken r.1 r.2)
    (waits : ∀ call pc, running = some (call, pc) →
      client.call l = some call) :
    Matches client view taken (c.advance i (g, s) (l, running))
      (a.advance i (g, view s) (l, outcome)) where
  shared := rfl
  own := by
    intro j
    by_cases here : j = i
    · subst here
      simp
    · simp only [Config.advance_locals_of_ne _ _ _ here, matched.own]
  outcome := by
    intro j
    by_cases here : j = i
    · subst here
      simpa using same
    · simp only [Config.advance_locals_of_ne _ _ _ here, matched.outcome]
  waiting := by
    intro j call pc
    by_cases here : j = i
    · subst here
      simpa using waits call pc
    · simp only [Config.advance_locals_of_ne _ _ _ here]
      exact matched.waiting j call pc

variable {impl : Implementation σ Call Pc Result}
  {effect : Call → α → α → Result → Prop} {proper : Call → Prop}
  {holds : σ → (ι → Option (Call × Pc)) → Prop}

/-- The calls in progress. -/
def inProgress (c : Config ι (γ × σ) (ρ × Option (Call × Pc))) (i : ι) :
    Option (Call × Pc) :=
  (c.locals i).2

theorem inProgress_advance (c : Config ι (γ × σ) (ρ × Option (Call × Pc)))
    (i : ι) (shared : γ × σ) (l : ρ) (running : Option (Call × Pc)) :
    inProgress (c.advance i shared (l, running)) =
      Function.update (inProgress c) i running := by
  funext j
  by_cases here : j = i
  · subst here
    simp [inProgress]
  · simp only [inProgress, Config.advance_locals_of_ne _ _ _ here,
      Function.update_of_ne here]

theorem inProgress_advance_idle {i : ι} (shared : γ × σ) (l : ρ)
    (idle : inProgress c i = none) :
    inProgress (c.advance i shared (l, none)) = inProgress c := by
  rw [inProgress_advance, ← idle, Function.update_eq_self]

theorem Simulation.step
    (sim : Simulation (ι := ι) impl effect proper holds view taken)
    (matched : Matches client view taken c a)
    (held : holds c.shared.2 (inProgress c))
    (allowed : ∀ i call, client.call (a.locals i).1 = some call → proper call)
    {i : ι} {shared : γ × σ} {here : ρ × Option (Call × Pc)}
    (stepped : ConcreteStep client impl i c.shared (c.locals i) shared here) :
    ∃ a', AtomicReachable client effect a a' ∧
      Matches client view taken (c.advance i shared here) a' ∧
      holds shared.2 (inProgress (c.advance i shared here)) := by
  have own := matched.own i
  have outcome := matched.outcome i
  have waiting := matched.waiting i
  have running : inProgress c i = (c.locals i).2 := rfl
  -- the step over the specification, with what it leaves behind
  have run : ∀ {shared' here'},
      AtomicStep client effect i a.shared (a.locals i) shared' here' →
      AtomicReachable client effect a (a.advance i shared' here') :=
    fun taken => .single (.run i taken)
  have atomic : a.locals i = ((c.locals i).1,
      (c.locals i).2.bind fun running => taken running.1 running.2) :=
    Prod.ext own outcome
  have sharedEq := matched.shared
  generalize current : c.shared = before at stepped held sharedEq
  generalize mine : c.locals i = l at stepped own atomic waiting running
  cases stepped with
  | own quiet taken =>
      refine ⟨_, run (by rw [sharedEq, atomic]; exact .own quiet taken), ?_, ?_⟩
      · apply matched.advance rfl
        rintro _ _ ⟨⟩
      · rwa [inProgress_advance_idle _ _ running]
  | @enter g s l call asked =>
      have fine : proper call := allowed i call (by rw [own]; exact asked)
      obtain ⟨next, fresh⟩ := sim.enter held running fine
      refine ⟨a, .refl, ?_, ?_⟩
      · have kept : Matches client view taken
            (c.advance i (g, s) (l, some (call, impl.enter call)))
            (a.advance i (g, view s) (l, none)) :=
          matched.advance fresh.symm (by rintro _ _ ⟨⟩; exact asked)
        have same : a.advance i (g, view s) (l, none) = a := by
          rw [← sharedEq, show (l, (none : Option Result)) = a.locals i from
            atomic.symm, Config.advance_self]
        rwa [same] at kept
      · rw [inProgress_advance]
        exact next
  | @access g s s' l call pc pc' taken' =>
      have asked := waiting call pc rfl
      obtain ⟨next, same | ⟨pending, r, done, effected⟩⟩ :=
        sim.access held running taken'
      · refine ⟨a, .refl, ?_, ?_⟩
        · have kept : Matches client view taken
              (c.advance i (g, s') (l, some (call, pc')))
              (a.advance i (g, view s')
                (l, (some (call, pc')).bind fun r => taken r.1 r.2)) :=
            matched.advance rfl (by rintro _ _ ⟨⟩; exact asked)
          have unchanged : a.advance i (g, view s')
              (l, (some (call, pc')).bind fun r => taken r.1 r.2) = a := by
            rw [same.2, ← sharedEq]
            change a.advance i a.shared (l, taken call pc') = a
            rw [same.1, show (l, taken call pc) = a.locals i from atomic.symm,
              Config.advance_self]
          rwa [unchanged] at kept
        · rw [inProgress_advance]
          exact next
      · refine ⟨a.advance i (g, view s') (l, some r), run ?_, ?_, ?_⟩
        · rw [sharedEq, atomic]
          change AtomicStep client effect i (g, view s) (l, taken call pc) _ _
          rw [pending]
          exact .effect asked effected
        · exact matched.advance done.symm (by rintro _ _ ⟨⟩; exact asked)
        · rw [inProgress_advance]
          exact next
  | @leave g s l call pc r returned =>
      obtain ⟨next, done⟩ := sim.leave held running returned
      refine ⟨_, run ?_, matched.advance rfl ?_, ?_⟩
      · rw [sharedEq, atomic]
        change AtomicStep client effect i (g, view s) (l, taken call pc) _ _
        rw [done]
        exact .leave
      · rintro _ _ ⟨⟩
      · rw [inProgress_advance]
        exact next

/-- Every run over the implementation is matched by a run over the
specification, provided the program makes proper calls over the
specification. -/
theorem Simulation.refines
    (sim : Simulation (ι := ι) impl effect proper holds view taken)
    {start : Config ι (γ × σ) (ρ × Option (Call × Pc))}
    (idle : ∀ i, (start.locals i).2 = none)
    (initially : holds start.shared.2 fun _ => none)
    (allowed : ∀ a, AtomicReachable client effect (atomicStart view start) a →
      ∀ i call, client.call (a.locals i).1 = some call → proper call)
    (reachable : ConcreteReachable client impl start c) :
    ∃ a, AtomicReachable client effect (atomicStart view start) a ∧
      Matches client view taken c a ∧ holds c.shared.2 (inProgress c) := by
  induction reachable with
  | refl =>
      refine ⟨_, .refl, ⟨rfl, fun _ => rfl, ?_, ?_⟩, ?_⟩
      · intro i
        simp [atomicStart, idle]
      · intro i call pc running
        rw [idle] at running
        cases running
      · rwa [show inProgress start = fun _ => none from funext idle]
  | tail _ last ih =>
      obtain ⟨a, ran, matched, held⟩ := ih
      cases last with
      | run i stepped =>
          obtain ⟨a', more, matched', held'⟩ :=
            sim.step matched held (allowed a ran) stepped
          exact ⟨a', ran.trans more, matched', held'⟩

/-- An invariant that relies on the one of the simulation. -/
theorem Simulation.invariant
    (sim : Simulation (ι := ι) impl effect proper holds view taken)
    {start : Config ι (γ × σ) (ρ × Option (Call × Pc))}
    (idle : ∀ i, (start.locals i).2 = none)
    (initially : holds start.shared.2 fun _ => none)
    (allowed : ∀ a, AtomicReachable client effect (atomicStart view start) a →
      ∀ i call, client.call (a.locals i).1 = some call → proper call)
    (also : σ → (ι → Option (Call × Pc)) → Prop)
    (alsoInitially : also start.shared.2 fun _ => none)
    (enter : ∀ {s calls} {i : ι} {call}, also s calls → calls i = none →
      also s (Function.update calls i (some (call, impl.enter call))))
    (access : ∀ {s calls} {i : ι} {call pc s' pc'}, holds s calls →
      also s calls → calls i = some (call, pc) → impl.step call s pc s' pc' →
      also s' (Function.update calls i (some (call, pc'))))
    (leave : ∀ {s calls} {i : ι} {call pc r}, also s calls →
      calls i = some (call, pc) → impl.result call pc = some r →
      also s (Function.update calls i none))
    (reachable : ConcreteReachable client impl start c) :
    also c.shared.2 (inProgress c) := by
  induction reachable with
  | refl => rwa [show inProgress start = fun _ => none from funext idle]
  | @tail before _ ran last ih =>
      obtain ⟨_, _, _, held⟩ := sim.refines idle initially allowed ran
      cases last with
      | @run i shared here stepped =>
          have running : inProgress before i = (before.locals i).2 := rfl
          rw [inProgress_advance, Config.advance_shared]
          generalize before.locals i = l at stepped running
          generalize before.shared = s at stepped held ih
          cases stepped with
          | own _ _ => rwa [← running, Function.update_eq_self]
          | enter _ => exact enter ih running
          | access taken' => exact access held ih running taken'
          | leave back => exact leave ih running back

end Refinement

section Following

/-- What a process does next, when its own steps and the accesses of its calls
are functions. -/
def follow (client : Client ι γ ρ Call Result)
    (impl : Implementation σ Call Pc Result) (own : γ → ρ → γ × ρ)
    (next : Call → σ → Pc → σ × Pc) :
    (γ × σ) × (ρ × Option (Call × Pc)) → (γ × σ) × (ρ × Option (Call × Pc))
  | ((g, s), (l, some (call, pc))) =>
      match impl.result call pc with
      | some r => ((g, s), (client.resume l r, none))
      | none => ((g, (next call s pc).1), (l, some (call, (next call s pc).2)))
  | ((g, s), (l, none)) =>
      match client.call l with
      | some call => ((g, s), (l, some (call, impl.enter call)))
      | none => (((own g l).1, s), ((own g l).2, none))

theorem follow_steps {client : Client ι γ ρ Call Result}
    {impl : Implementation σ Call Pc Result} {own : γ → ρ → γ × ρ}
    {next : Call → σ → Pc → σ × Pc} (i : ι)
    (owns : ∀ g l, own g l = (g, l) ∨
      client.step i g l (own g l).1 (own g l).2)
    (accesses : ∀ call s pc, impl.result call pc = none →
      next call s pc = (s, pc) ∨
        impl.step call s pc (next call s pc).1 (next call s pc).2)
    (x : (γ × σ) × (ρ × Option (Call × Pc))) :
    Relation.ReflTransGen (fun before after =>
        ConcreteStep client impl i before.1 before.2 after.1 after.2) x
      (follow client impl own next x) := by
  obtain ⟨⟨g, s⟩, l, running⟩ := x
  cases running with
  | some call =>
      obtain ⟨call, pc⟩ := call
      simp only [follow]
      cases back : impl.result call pc with
      | some r => exact .single (.leave back)
      | none =>
          rcases accesses call s pc back with same | stepped
          · rw [same]
          · exact .single (.access stepped)
  | none =>
      simp only [follow]
      cases asked : client.call l with
      | some call => exact .single (.enter asked)
      | none =>
          rcases owns g l with same | stepped
          · rw [same]
          · exact .single (.own asked stepped)

end Following

section Scripts

/-- Processes that make a list of calls each, and keep the results. -/
def scripted (ι Call Result : Type*) :
    Client ι Unit (List Call × List Result) Call Result :=
  { step := fun _ _ _ _ _ => False
    call := fun l => l.1.head?
    resume := fun l r => (l.1.tail, l.2 ++ [r]) }

theorem scripted_calls [DecidableEq ι] {effect : Call → α → α → Result → Prop}
    {start a : Config ι (Unit × α) ((List Call × List Result) × Option Result)}
    (reachable : AtomicReachable (scripted ι Call Result) effect start a)
    (i : ι) : (a.locals i).1.1 ⊆ (start.locals i).1.1 := by
  refine reachable.invariant
    (fun c => ∀ i, (c.locals i).1.1 ⊆ (start.locals i).1.1)
    (fun _ => List.Subset.refl _) ?_ i
  intro c j shared here within stepped
  have before := within j
  refine c.forall_advance (P := fun k l => l.1.1 ⊆ (start.locals k).1.1) ?_
    fun k _ => within k
  generalize c.locals j = l at stepped before
  generalize c.shared = s at stepped
  cases stepped with
  | own _ impossible => exact impossible.elim
  | effect _ _ => exact before
  | leave => exact fun _ member => before (List.mem_of_mem_tail member)

theorem scripted_requests [DecidableEq ι]
    {impl : Implementation σ Call Pc Result}
    {start c : Config ι (Unit × σ)
      ((List Call × List Result) × Option (Call × Pc))}
    (reachable : ConcreteReachable (scripted ι Call Result) impl start c)
    (i : ι) : (c.locals i).1.1 ⊆ (start.locals i).1.1 := by
  refine reachable.invariant
    (fun c => ∀ i, (c.locals i).1.1 ⊆ (start.locals i).1.1)
    (fun _ => List.Subset.refl _) ?_ i
  intro c j shared here within stepped
  have before := within j
  refine c.forall_advance (P := fun k l => l.1.1 ⊆ (start.locals k).1.1) ?_
    fun k _ => within k
  generalize c.locals j = l at stepped before
  generalize c.shared = s at stepped
  cases stepped with
  | own _ impossible => exact impossible.elim
  | enter _ => exact before
  | access _ => exact before
  | leave => exact fun _ member => before (List.mem_of_mem_tail member)

end Scripts

end AtomicObject
