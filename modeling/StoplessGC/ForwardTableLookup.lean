import StoplessGC.Allocator
import StoplessGC.ForwardTableChase

/-!
# Lookups in an arbitrary table

Nothing is assumed here of the entries: they may form cycles of any length and
map addresses to themselves.  A lookup follows them for at most `FT_CHASE_MAX`
hops, and what it returns is never the middle of a chain.
-/

namespace StoplessGC

namespace ForwardTable

open Forwarding

/-- An address where the chase stops: unmapped, or mapped to itself. -/
def Terminal (find : Nat → Option (Nat × Nat)) (a : Nat) : Prop :=
  find a = none ∨ ∃ l, find a = some (a, l)

/-- The `n`th hop from the key reaches `b` through an entry with length `l`, and
no earlier hop reaches a terminal address. -/
inductive Arrives (find : Nat → Option (Nat × Nat)) :
    Nat → Nat → Nat → Nat → Prop where
  | hop {key b l : Nat} : find key = some (b, l) → Arrives find 1 key b l
  | next {n key a b l l' : Nat} :
      find key = some (a, l') → ¬ Terminal find a → Arrives find n a b l →
      Arrives find (n + 1) key b l

section Chase

variable {find : Nat → Option (Nat × Nat)}

theorem chase_terminal {a l : Nat} (terminal : Terminal find a) (fuel : Nat) :
    chase find (fuel + 1) a l = some (a, l) := by
  unfold chase
  rcases terminal with missing | ⟨l', selfMapped⟩
  · simp only [missing]
  · simp only [selfMapped, if_pos]

theorem chase_next {a b l l' : Nat} (linked : find a = some (b, l'))
    (passes : ¬ Terminal find a) (fuel : Nat) :
    chase find (fuel + 1) a l = chase find fuel b l' := by
  have other : b ≠ a := by
    intro same
    subst same
    exact passes (.inr ⟨l', linked⟩)
  rw [chase]
  simp only [linked, if_neg other]

theorem exists_link {a : Nat} (passes : ¬ Terminal find a) :
    ∃ b l, find a = some (b, l) := by
  cases link : find a with
  | none => exact absurd (.inl link) passes
  | some pair => exact ⟨pair.1, pair.2, rfl⟩

theorem resolve_of_arrives {n key b l : Nat} (arrives : Arrives find n key b l)
    (terminal : Terminal find b) {fuel : Nat} (enough : n ≤ fuel) :
    ∃ a l', find key = some (a, l') ∧ chase find fuel a l' = some (b, l) := by
  induction arrives generalizing fuel with
  | @hop key b l linked =>
      obtain ⟨fuel, rfl⟩ := Nat.exists_eq_succ_of_ne_zero
        (Nat.ne_of_gt (Nat.lt_of_lt_of_le Nat.one_pos enough))
      exact ⟨b, l, linked, chase_terminal terminal fuel⟩
  | @next n key a b l l' linked passes _ ih =>
      obtain ⟨fuel, rfl⟩ := Nat.exists_eq_succ_of_ne_zero
        (Nat.ne_of_gt (Nat.lt_of_lt_of_le (Nat.succ_pos n) enough))
      obtain ⟨a', l'', linked', reached⟩ :=
        ih terminal (Nat.le_of_succ_le_succ enough)
      refine ⟨a, l', linked, ?_⟩
      rw [chase_next linked' passes]
      exact reached

theorem arrives_of_chase {fuel key a l' b l : Nat}
    (linked : find key = some (a, l'))
    (reached : chase find fuel a l' = some (b, l)) :
    ∃ n, n ≤ fuel ∧ Arrives find n key b l ∧ Terminal find b := by
  induction fuel generalizing key a l' with
  | zero => cases reached
  | succ fuel ih =>
      by_cases terminal : Terminal find a
      · rw [chase_terminal terminal] at reached
        cases reached
        exact ⟨1, Nat.succ_le_succ (Nat.zero_le fuel), .hop linked, terminal⟩
      · obtain ⟨c, k, onward⟩ := exists_link terminal
        rw [chase_next onward terminal] at reached
        obtain ⟨n, enough, arrives, stop⟩ := ih onward reached
        exact ⟨n + 1, Nat.succ_le_succ enough, .next linked terminal arrives,
          stop⟩

/-- Following the map from a mapped key to a terminal address passes the first
one on the way. -/
theorem arrives_of_hops {n key b : Nat} (hops : Hops find n key b)
    (terminal : Terminal find b) (mapped : find key ≠ none) :
    ∃ n' b' l, n' ≤ max 1 n ∧ Arrives find n' key b' l ∧ Terminal find b' := by
  induction hops with
  | here a =>
      rcases terminal with missing | ⟨l, selfMapped⟩
      · exact absurd missing mapped
      · exact ⟨1, a, l, Nat.le_max_left 1 0, .hop selfMapped, .inr ⟨l, selfMapped⟩⟩
  | @hop n a c b l linked rest ih =>
      by_cases stop : Terminal find c
      · exact ⟨1, c, l, Nat.le_max_left _ _, .hop linked, stop⟩
      · obtain ⟨d, k, onward⟩ := exists_link stop
        obtain ⟨n', b', l', bound, arrives, terminal'⟩ :=
          ih terminal (by rw [onward]; simp)
        refine ⟨n' + 1, b', l', ?_, .next linked stop arrives, terminal'⟩
        cases n with
        | zero =>
            cases rest
            exact absurd terminal stop
        | succ n => omega

theorem hops_of_arrives {n key b l : Nat} (arrives : Arrives find n key b l) :
    Hops find n key b := by
  induction arrives with
  | hop linked => exact .hop linked (.here _)
  | next linked _ _ ih => exact .hop linked ih

theorem Arrives.entry {n key b l : Nat} (arrives : Arrives find n key b l) :
    ∃ a, find a = some (b, l) := by
  induction arrives with
  | hop linked => exact ⟨_, linked⟩
  | next _ _ _ ih => exact ih

theorem resolve_eq_some_iff {key b l : Nat} :
    resolve find key = some (b, l) ↔
      ∃ n, n ≤ chaseMax ∧ Arrives find n key b l ∧ Terminal find b := by
  constructor
  · intro resolved
    unfold resolve at resolved
    cases link : find key with
    | none =>
        simp only [link] at resolved
        cases resolved
    | some pair =>
        obtain ⟨a, l'⟩ := pair
        simp only [link] at resolved
        exact arrives_of_chase link resolved
  · rintro ⟨n, enough, arrives, terminal⟩
    obtain ⟨a, l', linked, reached⟩ := resolve_of_arrives arrives terminal enough
    simp only [resolve, linked, reached]

theorem resolve_eq_none_iff {key : Nat} :
    resolve find key = none ↔ find key = none ∨
      ¬ ∃ n b, n ≤ chaseMax ∧ Hops find n key b ∧ Terminal find b := by
  constructor
  · intro missing
    by_cases mapped : find key = none
    · exact .inl mapped
    · right
      rintro ⟨n, b, enough, hops, terminal⟩
      obtain ⟨n', b', l, bound, arrives, stop⟩ :=
        arrives_of_hops hops terminal mapped
      have positive : 1 ≤ chaseMax := by decide
      have resolved := resolve_eq_some_iff.mpr ⟨n', by omega, arrives, stop⟩
      rw [missing] at resolved
      cases resolved
  · intro unreachable
    cases resolved : resolve find key with
    | none => rfl
    | some pair =>
        obtain ⟨b, l⟩ := pair
        obtain ⟨n, enough, arrives, terminal⟩ := resolve_eq_some_iff.mp resolved
        rcases unreachable with unmapped | nowhere
        · rw [resolve_eq_none unmapped] at resolved
          cases resolved
        · exact absurd ⟨n, b, enough, hops_of_arrives arrives, terminal⟩ nowhere

end Chase

theorem ftFind_nonzero {s : State} {a b l : Nat}
    (found : ftFind s a = some (b, l)) : b ≠ 0 := by
  unfold ftFind at found
  split at found
  · cases found
  · split at found
    · cases found
    · split at found
      · cases found
      · split at found
        · cases found
        · rename_i nonzero
          cases found
          exact nonzero

theorem ftDerive_isSome (cheri : Intrinsics) (base : Cap) {addr : Nat}
    (nonzero : addr ≠ 0) (len : Nat) :
    ∃ c, ftDerive cheri (some base) addr len = some c := by
  simp only [ftDerive, if_neg nonzero]
  exact ⟨_, rfl⟩

theorem ftDerive_address {cheri : Intrinsics} (laws : cheri.Laws) {base c : Cap}
    {addr len : Nat}
    (derived : ftDerive cheri (some base) addr len = some c) :
    c.address = addr := by
  unfold ftDerive at derived
  simp only at derived
  split at derived
  · cases derived
  · cases derived
    change (if 0 < len then cheri.boundsSet (cheri.addressSet base addr) len
      else cheri.addressSet base addr).address = addr
    split
    · rw [laws.boundsSet_address]
      rfl
    · rfl

theorem forwardTableLookup_eq_none_iff {cheri : Intrinsics} {base : Cap}
    {s : State} {key : Nat} :
    forwardTableLookup cheri (some base) s key = none ↔
      resolve (ftFind s) key = none := by
  unfold forwardTableLookup
  cases resolved : resolve (ftFind s) key with
  | none => simp
  | some pair =>
      obtain ⟨b, l⟩ := pair
      obtain ⟨_, _, arrives, _⟩ := resolve_eq_some_iff.mp resolved
      obtain ⟨a, link⟩ := arrives.entry
      obtain ⟨c, derived⟩ := ftDerive_isSome cheri base (ftFind_nonzero link) l
      simp [derived]

/-- The lookup of any key in any table.  It returns `NULL` exactly when the key
is unmapped or no terminal address is reached in time; otherwise it derives the
first terminal address, with the length of the entry that leads there.  The
result is never mapped to another address. -/
theorem forwardTableLookup_terminal {cheri : Intrinsics} (laws : cheri.Laws)
    (base : Cap) (s : State) (key : Nat) :
    (forwardTableLookup cheri (some base) s key = none ↔
      ftFind s key = none ∨ ¬ ∃ n b, n ≤ chaseMax ∧
        Hops (ftFind s) n key b ∧ Terminal (ftFind s) b) ∧
    (∀ n b l, n ≤ chaseMax → Arrives (ftFind s) n key b l →
      Terminal (ftFind s) b →
      forwardTableLookup cheri (some base) s key =
        ftDerive cheri (some base) b l) ∧
    ∀ c, forwardTableLookup cheri (some base) s key = some c →
      Terminal (ftFind s) c.address := by
  refine ⟨?_, ?_, ?_⟩
  · rw [forwardTableLookup_eq_none_iff, resolve_eq_none_iff]
  · intro n b l enough arrives terminal
    have resolved := resolve_eq_some_iff.mpr ⟨n, enough, arrives, terminal⟩
    simp only [forwardTableLookup, resolved]
  · intro c found
    unfold forwardTableLookup at found
    cases resolved : resolve (ftFind s) key with
    | none =>
        simp only [resolved] at found
        cases found
    | some pair =>
        obtain ⟨b, l⟩ := pair
        simp only [resolved] at found
        obtain ⟨_, _, _, terminal⟩ := resolve_eq_some_iff.mp resolved
        rw [ftDerive_address laws found]
        exact terminal

/-- Two entries that form a cycle: the lookup gives up. -/
theorem forwardTableLookup_terminal_cycle :
    ∃ s, execAll Intrinsics.exact none initial
        [.insert true 16 (Cap.ofInt 64), .insert true 64 (Cap.ofInt 16)] = .ok s ∧
      forwardTableLookup Intrinsics.exact (some Arena.small.base) s 16 =
        none := by
  have fits : Fits Intrinsics.exact none initial Spec.empty
      [.insert true 16 (Cap.ofInt 64), .insert true 64 (Cap.ofInt 16)] := by
    have nonzero : (16 : Nat) ≠ 0 := by decide
    have nonzero' : (64 : Nat) ≠ 0 := by decide
    refine ⟨nonzero, ?_⟩
    rintro _ ⟨⟩
    refine ⟨by decide, nonzero', ?_⟩
    rintro _ ⟨⟩
    exact ⟨by decide, trivial⟩
  have backed : Backed false
      [.insert true 16 (Cap.ofInt 64), .insert true 64 (Cap.ofInt 16)] := by
    simp [Backed, Call.granted]
  obtain ⟨s, ran, refines⟩ := refines_initial.execAll fits backed
  refine ⟨s, ran, ?_⟩
  have first : ftFind s 16 = some (64, addressSpace - 1) := by
    rw [refines.ftFind_eq]
    decide
  have second : ftFind s 64 = some (16, addressSpace - 1) := by
    rw [refines.ftFind_eq]
    decide
  have around : ∀ {n a b}, Hops (ftFind s) n a b → a = 16 ∨ a = 64 →
      ¬ Terminal (ftFind s) b := by
    intro n a b hops
    induction hops with
    | here a =>
        rintro (rfl | rfl) terminal
        · simp [Terminal, first] at terminal
        · simp [Terminal, second] at terminal
    | hop linked _ ih =>
        rintro (rfl | rfl)
        · rw [first] at linked
          cases linked
          exact ih (.inr rfl)
        · rw [second] at linked
          cases linked
          exact ih (.inl rfl)
  apply (forwardTableLookup_terminal Intrinsics.exact_laws
    Arena.small.base s 16).1.mpr
  right
  rintro ⟨n, b, _, hops, terminal⟩
  exact around hops (.inl rfl) terminal

end ForwardTable

end StoplessGC
