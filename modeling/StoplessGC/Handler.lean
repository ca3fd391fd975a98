import StoplessGC.Collector

/-!
# The fault handler and the identity barrier

`stopless_try_heal` and `stopless_acmp_eq` of `handler.c`, and the decision of
`TemplateTable::if_acmp` that calls the latter.
-/

namespace StoplessGC

namespace Handler

open ForwardTable

variable {cheri : Intrinsics} (arena : Arena cheri)

/-- What the signal brings: `si_code`, `si_addr`, and the base register field
of the instruction at the faulting PC. -/
structure Fault where
  siCode : Nat
  siAddr : Nat
  rn : Nat

/-- `cheri_revoke_is_revoked`: the tag or all permissions are gone. -/
def revoked (c : Cap) : Bool := !c.tag || c.perms.isZero

/-- The difference of two 64-bit addresses. -/
def offset (a b : Nat) : Nat := (a + addressSpace - b) % addressSpace

/-- The address of a rebuilt capability with the offset applied again. -/
def reapply (cheri : Intrinsics) (fwd : Cap) (off : Nat) : Cap :=
  if off ≠ 0 then
    cheri.addressSet fwd ((fwd.address + off) % addressSpace)
  else fwd

/-- `STOPLESS_TRY_REG` on a capability: what it is healed to.  The table is
asked for the base, then for the address, then the evacuation callback, if
there is one, for the base. -/
def tryCap (evacuate : Option (Nat → Option Cap)) (table : State) (c : Cap) :
    Option Cap :=
  if !revoked c then none
  else
    let lookup := forwardTableLookup cheri (some arena.base) table
    match lookup c.base with
    | some fwd => some (reapply cheri fwd (offset c.address c.base))
    | none =>
        match if c.address ≠ c.base then lookup c.address else none with
        | some fwd => some (reapply cheri fwd 0)
        | none =>
            match evacuate with
            | none => none
            | some callback =>
                match callback c.base with
                | none => none
                | some fwd =>
                    some (reapply cheri fwd (offset c.address c.base))

/-- `STOPLESS_TRY_REG(i)`, which only looks at `cap_x[0..29]`. -/
def tryReg (evacuate : Option (Nat → Option Cap)) (table : State)
    (regs : Fin 30 → Cap) (i : Nat) : Option (Cap × Fin 30) :=
  if here : i < 30 then
    match tryCap arena evacuate table (regs ⟨i, here⟩) with
    | none => none
    | some fwd => some (fwd, ⟨i, here⟩)
  else none

/-- The scan of the register file, from register `i` on. -/
def scanRegs (evacuate : Option (Nat → Option Cap)) (table : State)
    (regs : Fin 30 → Cap) : Nat → Nat → Option (Cap × Fin 30)
  | 0, _ => none
  | fuel + 1, i =>
      match tryReg arena evacuate table regs i with
      | some found => some found
      | none => scanRegs evacuate table regs fuel (i + 1)

/-- `stopless_try_heal`: the register file to retry with, or `none` for an
unforwarded fault.  A hit on `si_addr` patches no register. -/
def stoplessTryHeal (evacuate : Option (Nat → Option Cap)) (table : State)
    (fault : Fault) (regs : Fin 30 → Cap) : Option (Fin 30 → Cap) :=
  if fault.siCode ≠ 2 ∧ fault.siCode ≠ 5 then none
  else
    match tryReg arena evacuate table regs fault.rn with
    | some (fwd, i) => some (Function.update regs i fwd)
    | none =>
        match scanRegs arena evacuate table regs 30 0 with
        | some (fwd, i) => some (Function.update regs i fwd)
        | none =>
            match forwardTableLookup cheri (some arena.base) table
                fault.siAddr with
            | some _ => some regs
            | none => none

/-- `stopless_acmp_normalize` -/
def stoplessAcmpNormalize (table : State) (c : Cap) : Nat :=
  if c.address = 0 then 0
  else if c.tag && !c.perms.isZero then c.address
  else
    match forwardTableLookup cheri (some arena.base) table c.base with
    | none => c.address
    | some fwd => (fwd.address + offset c.address c.base) % addressSpace

/-- `stopless_acmp_eq` -/
def stoplessAcmpEq (table : State) (a b : Cap) : Bool :=
  stoplessAcmpNormalize arena table a == stoplessAcmpNormalize arena table b

/-- The decision of `TemplateTable::if_acmp`: equal addresses, else two tags,
else the runtime call. -/
def ifAcmp (table : State) (a b : Cap) : Bool :=
  if a.address = b.address then true
  else if a.tag && b.tag then false
  else stoplessAcmpEq arena table a b

end Handler

end StoplessGC
