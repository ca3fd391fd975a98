import StoplessGC.SideTable
import StoplessGC.Foundation.AtomicObject

/-!
# The side table under concurrent calls

Mutators load and store colours while the collector flips a region.  A flip
exchanges one byte after the other, so the table as a whole does not flip at
one instant; but each granule does, and to every program it is a cell of its
own.  What a flip removes stays away as long as nobody writes it again.
-/

namespace StoplessGC

namespace SideTable

open AtomicObject

inductive Request where
  | load (cap : Cap)
  | store (cap : Cap) (color : Color)
  | flipRegion (region : Nat) (source target : Color)

/-- What a call returns; a byte that is no colour has no meaning. -/
inductive Answer where
  | color (color : Option Color)
  | void

/-- Where a call stands; a flip is about to exchange an entry. -/
inductive Point where
  | start
  | flipping (i : Nat)
  | loaded (color : Option Color)
  | done

def Request.enter : Request → Point
  | .flipRegion _ _ _ => .flipping 0
  | _ => .start

def Point.answer : Point → Option Answer
  | .loaded color => some (.color color)
  | .done => some .void
  | _ => none

/-- The exchange of one entry. -/
def exchange (t : SideTable) (source target : Color) (i : Fin t.entries) :
    SideTable :=
  { t with
    table := compareExchange source.toByte target.toByte t.table i }

/-- One access to a byte of the table. -/
inductive PointStep : Request → SideTable → Point → SideTable → Point →
    Prop where
  | load {cap : Cap} {t : SideTable} :
      PointStep (.load cap) t .start t (.loaded (t.load cap))
  | store {cap : Cap} {color : Color} {t : SideTable} :
      PointStep (.store cap color) t .start (t.store cap color) .done
  | exchange {region : Nat} {source target : Color} {t : SideTable}
      (i : Fin t.entries) :
      PointStep (.flipRegion region source target) t (.flipping i)
        (t.exchange source target i) (.flipping (i + 1))
  | flipped {region : Nat} {source target : Color} {t : SideTable} {i : Nat} :
      ¬ i < t.entries →
      PointStep (.flipRegion region source target) t (.flipping i) t .done

def sideTable : Implementation SideTable Request Point Answer :=
  { enter := Request.enter
    step := PointStep
    result := fun _ => Point.answer }

/-! ## One granule -/

/-- The capability points into the granule. -/
def Covers (heapBase g : Nat) (cap : Cap) : Prop :=
  heapBase ≤ cap.address ∧ (cap.address - heapBase) >>> tableShift = g

/-- The byte of a granule. -/
def cell (g : Nat) (t : SideTable) : UInt8 := t.table[g]?.getD 0

/-- What the calls do to one granule, at one instant.  A load elsewhere may
return anything. -/
inductive AtCell (heapBase g : Nat) : Request → UInt8 → UInt8 → Answer →
    Prop where
  | load {cap : Cap} {byte : UInt8} :
      Covers heapBase g cap →
      AtCell heapBase g (.load cap) byte byte (.color (Color.ofByte byte))
  | loadElsewhere {cap : Cap} {byte : UInt8} (color : Option Color) :
      ¬ Covers heapBase g cap →
      AtCell heapBase g (.load cap) byte byte (.color color)
  | store {cap : Cap} {color : Color} {byte : UInt8} :
      Covers heapBase g cap →
      AtCell heapBase g (.store cap color) byte color.toByte .void
  | storeElsewhere {cap : Cap} {color : Color} {byte : UInt8} :
      ¬ Covers heapBase g cap →
      AtCell heapBase g (.store cap color) byte byte .void
  | flipRegion (region : Nat) (source target : Color) (byte : UInt8) :
      AtCell heapBase g (.flipRegion region source target) byte
        (if byte = source.toByte then target.toByte else byte) .void

/-- A flip takes effect on a granule when it has exchanged its byte. -/
def Point.taken (g : Nat) : Point → Option Answer
  | .flipping i => if g < i then some .void else none
  | point => point.answer

/-- The points that a call passes. -/
def Point.Of : Request → Point → Prop
  | .load _, .start => True
  | .load _, .loaded _ => True
  | .store _ _, .start => True
  | .store _ _, .done => True
  | .flipRegion _ _ _, .flipping _ => True
  | .flipRegion _ _ _, .done => True
  | _, _ => False

variable {heapBase entries g : Nat} {t t' : SideTable}

theorem cell_eq (inside : g < t.entries) : cell g t = t.table[g] := by
  simp [cell, inside]

theorem load_covers {cap : Cap} (covers : Covers t.heapBase g cap)
    (inside : g < t.entries) : t.load cap = Color.ofByte (cell g t) := by
  obtain ⟨above, rfl⟩ := covers
  rw [cell_eq inside, load, if_neg (Nat.not_lt.mpr above)]
  exact dif_pos inside

theorem store_heapBase (cap : Cap) (color : Color) :
    (t.store cap color).heapBase = t.heapBase ∧
      (t.store cap color).entries = t.entries := by
  unfold store
  split
  · exact ⟨rfl, rfl⟩
  · dsimp only
    split <;> exact ⟨rfl, rfl⟩

theorem store_covers {cap : Cap} (covers : Covers t.heapBase g cap)
    (inside : g < t.entries) (color : Color) :
    cell g (t.store cap color) = color.toByte := by
  obtain ⟨above, rfl⟩ := covers
  have stored : t.store cap color = { t with
      table := t.table.set _ color.toByte inside } := by
    rw [store, if_neg (Nat.not_lt.mpr above)]
    exact dif_pos inside
  rw [stored]
  simp [cell]

theorem store_elsewhere {cap : Cap} (other : ¬ Covers t.heapBase g cap)
    (color : Color) : cell g (t.store cap color) = cell g t := by
  unfold store
  by_cases below : cap.address < t.heapBase
  · rw [if_pos below]
  · rw [if_neg below]
    dsimp only
    by_cases inside : (cap.address - t.heapBase) >>> tableShift < t.entries
    · rw [dif_pos inside]
      have differ : (cap.address - t.heapBase) >>> tableShift ≠ g :=
        fun same => other ⟨Nat.le_of_not_lt below, same⟩
      unfold cell
      rw [Vector.getElem?_set_ne inside differ]
    · rw [dif_neg inside]

theorem cell_exchange (source target : Color) (i : Fin t.entries) (g : Nat) :
    cell g (t.exchange source target i) =
      if g = i ∧ cell g t = source.toByte then target.toByte else cell g t := by
  by_cases inside : g < t.entries
  · rw [cell_eq inside, cell_eq (t := t.exchange source target i) inside]
    exact compareExchange_get _ _ _ i g inside
  · have other : g ≠ i := fun same => inside (same ▸ i.isLt)
    have outside : ∀ v : Vector UInt8 t.entries, v[g]? = none := fun _ =>
      Vector.getElem?_eq_none (Nat.le_of_not_lt inside)
    change (compareExchange _ _ t.table i)[g]?.getD 0 =
      if _ then _ else t.table[g]?.getD 0
    rw [outside, outside, if_neg fun both => other both.1]

/-- The table that the calls use. -/
structure Sized (heapBase entries : Nat) (t : SideTable) : Prop where
  heapBase : t.heapBase = heapBase
  entries : t.entries = entries

/-- One access: it keeps the sizes, and the call takes effect on the granule at
most once. -/
theorem PointStep.effect {request : Request} {point point' : Point}
    (sized : Sized heapBase entries t) (inside : g < entries)
    (stepped : PointStep request t point t' point') :
    Sized heapBase entries t' ∧ point'.Of request ∧
      (point'.taken g = point.taken g ∧ cell g t' = cell g t ∨
        point.taken g = none ∧ ∃ r, point'.taken g = some r ∧
          AtCell heapBase g request (cell g t) (cell g t') r) := by
  obtain ⟨rfl, rfl⟩ := sized
  cases stepped with
  | @load cap =>
      refine ⟨⟨rfl, rfl⟩, trivial, .inr ⟨rfl, _, rfl, ?_⟩⟩
      by_cases covers : Covers t.heapBase g cap
      · rw [load_covers covers inside]
        exact .load covers
      · exact .loadElsewhere _ covers
  | @store cap color =>
      obtain ⟨sameBase, sameEntries⟩ := store_heapBase (t := t) cap color
      refine ⟨⟨sameBase, sameEntries⟩, trivial, .inr ⟨rfl, _, rfl, ?_⟩⟩
      by_cases covers : Covers t.heapBase g cap
      · rw [store_covers covers inside]
        exact .store covers
      · rw [store_elsewhere covers]
        exact .storeElsewhere covers
  | @exchange region source target _ i =>
      refine ⟨⟨rfl, rfl⟩, trivial, ?_⟩
      have changed := cell_exchange (t := t) source target i g
      simp only [Point.taken]
      by_cases here : g = i
      · right
        refine ⟨if_neg (by omega), .void, if_pos (by omega), ?_⟩
        rw [changed]
        simp only [here, true_and]
        exact .flipRegion _ _ _ _
      · left
        refine ⟨?_, changed.trans (if_neg fun both => here both.1)⟩
        by_cases past : g < i
        · rw [if_pos past, if_pos (by omega)]
        · rw [if_neg past, if_neg (by omega)]
  | flipped ended =>
      refine ⟨⟨rfl, rfl⟩, trivial, .inl ⟨?_, rfl⟩⟩
      simp only [Point.taken, Point.answer]
      rw [if_pos (by omega)]

theorem Point.taken_of_answer {point : Point} {r : Answer}
    (back : point.answer = some r) : point.taken g = some r := by
  cases point with
  | flipping i => cases back
  | _ => exact back

theorem Point.taken_enter (request : Request) :
    request.enter.taken g = none := by
  cases request with
  | flipRegion _ _ _ => simp [Request.enter, Point.taken]
  | _ => rfl

theorem sideTable_simulates (ι : Type*) [DecidableEq ι]
    (inside : g < entries) :
    Simulation (ι := ι) sideTable (AtCell heapBase g) (fun _ => True)
      (fun t _ => Sized heapBase entries t) (cell g)
      (fun _ point => point.taken g) where
  enter := fun sized _ _ => ⟨sized, Point.taken_enter _⟩
  access := by
    intro t calls i request point t' point' sized _ stepped
    obtain ⟨sized', _, effected⟩ := stepped.effect sized inside
    exact ⟨sized', effected⟩
  leave := fun sized _ back => ⟨sized, Point.taken_of_answer back⟩

/-- Over `load`, `store` and `flip_region`, run one byte access at a time,
every program sees of each granule what it can see of one byte on which each
call acts at one instant. -/
theorem sideTable_atomic {ι γ ρ : Type*} [DecidableEq ι]
    {client : Client ι γ ρ Request Answer}
    {start c : Interleaving.Config ι (γ × SideTable)
      (ρ × Option (Request × Point))}
    (inside : g < start.shared.2.entries)
    (idle : ∀ i, (start.locals i).2 = none)
    (reachable : ConcreteReachable client sideTable start c) :
    ∃ a, AtomicReachable client (AtCell start.shared.2.heapBase g)
        (atomicStart (cell g) start) a ∧
      Matches client (cell g) (fun _ point => point.taken g) c a := by
  obtain ⟨a, ran, matched, _⟩ := (sideTable_simulates ι inside).refines idle
    ⟨rfl, rfl⟩ (fun _ _ _ _ _ => trivial) reachable
  exact ⟨a, ran, matched⟩

/-! ## What a flip removes -/

/-- The call writes no byte of this colour. -/
def Request.Avoids (color : Color) : Request → Prop
  | .load _ => True
  | .store _ color' => color' ≠ color
  | .flipRegion _ _ target => target ≠ color

/-- The granules that a flip of this colour has passed are free of it. -/
def Point.Cleared (t : SideTable) (color : Color) : Request → Point → Prop
  | .flipRegion _ source _, .flipping i =>
      source = color → ∀ g, g < i → cell g t ≠ color.toByte
  | .flipRegion _ source _, .done =>
      source = color → ∀ g, g < t.entries → cell g t ≠ color.toByte
  | _, _ => True

/-- A granule only gets the colour of a store or a flip. -/
theorem AtCell.avoids {request : Request} {byte byte' : UInt8} {r : Answer}
    {color : Color} (effected : AtCell heapBase g request byte byte' r)
    (avoids : request.Avoids color) (free : byte ≠ color.toByte) :
    byte' ≠ color.toByte := by
  have apart : ∀ {other : Color}, other ≠ color →
      other.toByte ≠ color.toByte := fun differ same =>
    differ (Color.toByte_injective same)
  cases effected with
  | load _ => exact free
  | loadElsewhere _ _ => exact free
  | store _ => exact apart avoids
  | storeElsewhere _ => exact free
  | flipRegion region source target =>
      split
      · exact apart avoids
      · exact free

theorem PointStep.avoids {request : Request} {point point' : Point}
    {color : Color} (stepped : PointStep request t point t' point')
    (avoids : request.Avoids color) (inside : g < t.entries)
    (free : cell g t ≠ color.toByte) : cell g t' ≠ color.toByte := by
  obtain ⟨_, _, ⟨_, same⟩ | ⟨_, r, _, effected⟩⟩ :=
    stepped.effect ⟨rfl, rfl⟩ inside
  · rwa [same]
  · exact effected.avoids avoids free

theorem cell_exchange_ne {source target : Color} (differ : target ≠ source)
    (i : Fin t.entries) :
    cell i (t.exchange source target i) ≠ source.toByte := by
  rw [cell_exchange]
  split
  · exact fun same => differ (Color.toByte_injective same)
  · rename_i kept
    exact fun same => kept ⟨rfl, same⟩

theorem Point.Cleared.mono {request : Request} {point : Point} {color : Color}
    (cleared : point.Cleared t color request) (entries : t'.entries = t.entries)
    (kept : ∀ g, g < t.entries → cell g t ≠ color.toByte →
      cell g t' ≠ color.toByte) : point.Cleared t' color request := by
  cases request with
  | flipRegion region source target =>
      cases point with
      | flipping i =>
          intro same g passed
          have free := cleared same g passed
          by_cases inside : g < t.entries
          · exact kept g inside free
          · have outside : cell g t' = cell g t := by
              have size := Nat.le_of_not_lt inside
              simp [cell, entries, size]
            rwa [outside]
      | done =>
          intro same g inside
          rw [entries] at inside
          exact kept g inside (cleared same g inside)
      | _ => trivial
  | _ => trivial

theorem PointStep.cleared {request : Request} {point point' : Point}
    {color : Color} (stepped : PointStep request t point t' point')
    (avoids : request.Avoids color) (cleared : point.Cleared t color request) :
    point'.Cleared t' color request := by
  cases stepped with
  | load => trivial
  | store => trivial
  | @exchange region source target _ i =>
      rintro rfl g passed
      by_cases here : g = i
      · rw [here]
        exact cell_exchange_ne avoids i
      · rw [cell_exchange, if_neg fun both => here both.1]
        exact cleared rfl g (by omega)
  | flipped ended =>
      intro same g inside
      exact cleared same g (by omega)

section Flip

open Interleaving

variable {ι γ ρ : Type*} [DecidableEq ι] {client : Client ι γ ρ Request Answer}
  {color : Color} {c c' : Config ι (γ × SideTable) (ρ × Option (Request × Point))}

/-- Every call in progress avoids the colour and has cleared what it passed. -/
def Clearing (color : Color)
    (c : Config ι (γ × SideTable) (ρ × Option (Request × Point))) : Prop :=
  ∀ i request point, (c.locals i).2 = some (request, point) →
    request.Avoids color ∧ point.Cleared c.shared.2 color request

/-- The bytes that are free of the colour stay free, and so on. -/
theorem Clearing.step (clearing : Clearing color c) {i : ι}
    (avoids : ∀ request, client.call (c.locals i).1 = some request →
      request.Avoids color) {shared : γ × SideTable}
    {here : ρ × Option (Request × Point)}
    (stepped : ConcreteStep client sideTable i c.shared (c.locals i) shared
      here) :
    Clearing color (c.advance i shared here) ∧
      shared.2.entries = c.shared.2.entries ∧
      ∀ g, g < c.shared.2.entries → cell g c.shared.2 ≠ color.toByte →
        cell g shared.2 ≠ color.toByte := by
  have own : ∀ request point, (c.locals i).2 = some (request, point) →
      request.Avoids color ∧ point.Cleared c.shared.2 color request :=
    clearing i
  -- what the step does to the table and to its own call
  have moved : shared.2.entries = c.shared.2.entries ∧
      (∀ g, g < c.shared.2.entries → cell g c.shared.2 ≠ color.toByte →
        cell g shared.2 ≠ color.toByte) ∧
      ∀ request point, here.2 = some (request, point) →
        request.Avoids color ∧ point.Cleared shared.2 color request := by
    generalize c.shared = s at stepped own
    generalize c.locals i = l at stepped own avoids
    cases stepped with
    | own _ _ =>
        refine ⟨rfl, fun _ _ free => free, ?_⟩
        rintro _ _ ⟨⟩
    | @enter g s l request asked =>
        refine ⟨rfl, fun _ _ free => free, ?_⟩
        rintro _ _ ⟨⟩
        refine ⟨avoids _ asked, ?_⟩
        cases request with
        | flipRegion _ _ _ =>
            exact fun _ g impossible => absurd impossible (Nat.not_lt_zero g)
        | _ => trivial
    | @access g s s' l request point point' taken =>
        obtain ⟨mine, cleared⟩ := own _ _ rfl
        refine ⟨?_, fun g inside => taken.avoids mine inside, ?_⟩
        · cases taken with
          | store => exact (store_heapBase _ _).2
          | _ => rfl
        · rintro _ _ ⟨⟩
          exact ⟨mine, taken.cleared mine cleared⟩
    | leave _ =>
        refine ⟨rfl, fun _ _ free => free, ?_⟩
        rintro _ _ ⟨⟩
  obtain ⟨entries, kept, mine⟩ := moved
  refine ⟨?_, entries, kept⟩
  refine c.forall_advance (P := fun _ l => ∀ request point,
    l.2 = some (request, point) →
      request.Avoids color ∧ point.Cleared shared.2 color request) mine ?_
  intro j _ request point running
  obtain ⟨theirs, cleared⟩ := clearing j request point running
  exact ⟨theirs, cleared.mono entries kept⟩

/-- Once a flip has come to its end, no granule has the colour that it removed,
as long as no store and no other flip writes it. -/
theorem flipRegion_clears
    {start : Config ι (γ × SideTable) (ρ × Option (Request × Point))}
    (idle : ∀ i, (start.locals i).2 = none)
    (avoids : ∀ c, ConcreteReachable client sideTable start c →
      ∀ i request, client.call (c.locals i).1 = some request →
        request.Avoids color)
    (reachable : ConcreteReachable client sideTable start c) {i : ι}
    {region : Nat} {target : Color}
    (flipped : (c.locals i).2 = some (.flipRegion region color target, .done))
    (later : ConcreteReachable client sideTable c c') (cap : Cap)
    (heap : c'.shared.2.heapBase ≤ cap.address)
    (inside : (cap.address - c'.shared.2.heapBase) >>> tableShift <
      c'.shared.2.entries) :
    c'.shared.2.load cap ≠ some color := by
  have clearing : ∀ c, ConcreteReachable client sideTable start c →
      Clearing color c := by
    intro c reached
    refine (reached.invariant (fun c => ConcreteReachable client sideTable
      start c ∧ Clearing color c) ⟨.refl, ?_⟩ ?_).2
    · intro j request point running
      rw [idle] at running
      cases running
    · rintro c j shared here ⟨reached, clearing⟩ stepped
      exact ⟨reached.tail (.run j stepped),
        (clearing.step (avoids c reached j) stepped).1⟩
  have always : ∀ g, g < c'.shared.2.entries →
      cell g c'.shared.2 ≠ color.toByte := by
    refine (later.invariant (fun c => ConcreteReachable client sideTable
      start c ∧ ∀ g, g < c.shared.2.entries →
        cell g c.shared.2 ≠ color.toByte) ⟨reachable, ?_⟩ ?_).2
    · exact (clearing c reachable i _ _ flipped).2 rfl
    · rintro c j shared here ⟨reached, free⟩ stepped
      obtain ⟨_, entries, kept⟩ :=
        (clearing c reached).step (avoids c reached j) stepped
      refine ⟨reached.tail (.run j stepped), fun g below => ?_⟩
      rw [Config.advance_shared, entries] at below
      exact kept g below (free g below)
  intro read
  rw [load_covers ⟨heap, rfl⟩ inside] at read
  have byte : ∀ b : UInt8, Color.ofByte b = some color → b = color.toByte := by
    intro b
    unfold Color.ofByte
    repeat' split
    all_goals
      rintro ⟨⟩
      try assumption
  exact always _ inside (byte _ read)

end Flip

section Example

/-- The next access of a call. -/
def pointNext : Request → SideTable → Point → SideTable × Point
  | .load cap, t, .start => (t, .loaded (t.load cap))
  | .store cap color, t, .start => (t.store cap color, .done)
  | .flipRegion _ source target, t, .flipping i =>
      if inside : i < t.entries then
        (t.exchange source target ⟨i, inside⟩, .flipping (i + 1))
      else (t, .done)
  | _, t, point => (t, point)

theorem pointNext_steps (request : Request) (t : SideTable) (point : Point) :
    pointNext request t point = (t, point) ∨
      PointStep request t point (pointNext request t point).1
        (pointNext request t point).2 := by
  unfold pointNext
  split
  · exact .inr .load
  · exact .inr .store
  · split
    · rename_i below
      exact .inr (.exchange ⟨_, below⟩)
    · rename_i ended
      exact .inr (.flipped ended)
  · exact .inl rfl

/-- The collector flips a table of four granules while a mutator stores a
colour and loads it. -/
def flippingTable : Interleaving.Config Bool (Unit × SideTable)
    ((List Request × List Answer) × Option (Request × Point)) :=
  { shared := ((), create 32)
    locals := fun mutator =>
      if mutator then
        (([.store (Cap.ofInt 24) .marked1, .load (Cap.ofInt 24)], []), none)
      else (([.flipRegion 0 .good .remapped], []), none) }

/-- The mutator runs when the flip has passed two granules. -/
theorem flippingTable_run : ∃ c,
    ConcreteReachable (scripted Bool Request Answer) sideTable flippingTable c ∧
    (c.locals false).2 = some (.flipRegion 0 .good .remapped, .done) ∧
    (c.locals true).1.2 = [.void, .color (some .marked1)] ∧
    c.shared.2.table.toList = [3, 3, 3, 2] ∧
    c.shared.2.heapBase = 0 ∧ c.shared.2.entries = 4 := by
  have steps : ∀ i x, Relation.ReflTransGen (fun before after =>
      ConcreteStep (scripted Bool Request Answer) sideTable i before.1
        before.2 after.1 after.2) x (follow (scripted Bool Request Answer)
          sideTable Prod.mk pointNext x) := fun i x =>
    follow_steps i (fun _ _ => .inl rfl)
      (fun request t point _ => pointNext_steps request t point) x
  have first : ConcreteReachable (scripted Bool Request Answer) sideTable
      flippingTable _ := Interleaving.Reachable.repeated false 3 (steps false)
  have second := first.trans
    (Interleaving.Reachable.repeated true 6 (steps true))
  have third := second.trans
    (Interleaving.Reachable.repeated false 3 (steps false))
  exact ⟨_, third, by rfl, by rfl, by decide +kernel, by rfl, by rfl⟩

theorem sideTable_atomic_flipping : ∃ c a,
    ConcreteReachable (scripted Bool Request Answer) sideTable flippingTable c ∧
    AtomicReachable (scripted Bool Request Answer) (AtCell 0 3)
      (atomicStart (cell 3) flippingTable) a ∧
    a.shared.2 = Color.marked1.toByte ∧
    (a.locals true).1.2 = [.void, .color (some .marked1)] := by
  obtain ⟨c, ran, _, answers, table, _⟩ := flippingTable_run
  obtain ⟨a, atomic, matched⟩ := sideTable_atomic (g := 3)
    (by decide : 3 < flippingTable.shared.2.entries) (by intro i; cases i <;> rfl)
    ran
  refine ⟨c, a, ran, atomic, ?_, ?_⟩
  · rw [matched.shared]
    change c.shared.2.table[3]?.getD 0 = 2
    rw [← Vector.getElem?_toList, table]
    rfl
  · rw [matched.own, answers]

/-- No granule is good any more. -/
theorem flipRegion_clears_flipping : ∃ c,
    ConcreteReachable (scripted Bool Request Answer) sideTable flippingTable c ∧
    c.shared.2.load (Cap.ofInt 8) ≠ some .good := by
  obtain ⟨c, ran, flipped, _, _, base, entries⟩ := flippingTable_run
  refine ⟨c, ran, flipRegion_clears (fun i => by cases i <;> rfl) ?_ ran flipped
    .refl _ (by rw [base]; exact Nat.zero_le _) (by rw [base, entries]; decide)⟩
  intro c ran i request asked
  have member := scripted_requests ran i (List.mem_of_head? asked)
  cases i <;> simp [flippingTable] at member
  · subst member
    exact fun same => Color.noConfusion same
  · rcases member with rfl | rfl
    · exact fun same => Color.noConfusion same
    · trivial

end Example

end SideTable

end StoplessGC
