import StoplessGC.Cheri

/-!
# Marking and sweeping

`revoke.c`.  The kernel answers every call with a return code, and
`cheri_revoke` also moves the two epoch counters.  The answers are inputs, so
that every pattern of failures can be considered.  What a completed sweep does
to a capability is `sweepCap`.
-/

namespace StoplessGC

namespace Revoke

/-- `cheri_revoke_info.epochs` -/
structure Epochs where
  enqueue : Nat
  dequeue : Nat

/-- What one `cheri_revoke` call returns and leaves behind. -/
structure Reply where
  rc : Int
  epochs : Epochs

/-- The answers of the kernel during one `stopless_revoke_now`: whether `g_cri`
is already there, the return code of `cheri_revoke_get_shadow`, the replies of
the successive `cheri_revoke` calls, and `cheri_revoke_epoch_clears`. -/
structure Kernel where
  criReady : Bool
  getShadowRc : Int
  replies : Nat → Reply
  epochClears : Nat → Nat → Bool

/-- A kernel that completes every request at once. -/
def Kernel.willing : Kernel :=
  { criReady := true
    getShadowRc := 0
    replies := fun _ => ⟨0, ⟨1, 1⟩⟩
    epochClears := fun now target => decide (target ≤ now) }

def ensureCri (k : Kernel) : Int :=
  if k.criReady then 0 else if k.getShadowRc ≠ 0 then -1 else 0

/-- The loop that waits for `target`, and the final check behind it.  `loops`
counts down from ten; `calls` numbers the `cheri_revoke` calls. -/
def waitForEpoch (k : Kernel) (target : Nat) : Nat → Nat → Epochs → Int
  | 0, _, now => if k.epochClears now.dequeue target then 0 else -1
  | loops + 1, calls, now =>
      if k.epochClears now.dequeue target then 0
      else if (k.replies calls).rc ≠ 0 then (k.replies calls).rc
      else waitForEpoch k target loops (calls + 1) (k.replies calls).epochs

def stoplessRevokeNow (k : Kernel) : Int :=
  if ensureCri k ≠ 0 then -1
  else if (k.replies 0).rc ≠ 0 then (k.replies 0).rc
  else waitForEpoch k (k.replies 0).epochs.enqueue 10 1 (k.replies 0).epochs

/-- A call of `stopless_revoke_open` or `stopless_revoke_close`: whether
`fault_budget` makes it fail, the epochs it finds, and the kernel. -/
structure Attempt where
  injected : Bool
  before : Epochs
  kernel : Kernel

/-- The epoch counter is the truth, whatever the opening pass returns. -/
def stoplessRevokeOpen (attempt : Attempt) : Int :=
  let k := attempt.kernel
  if attempt.injected then -1
  else if ensureCri k ≠ 0 then -1
  else if attempt.before.enqueue < (k.replies 0).epochs.enqueue ∨
      (k.replies 0).rc = 0 then 0
  else (k.replies 0).rc

/-- The loop of `stopless_revoke_close`, which ignores return codes. -/
def closeLoop (k : Kernel) (target : Nat) : Nat → Nat → Epochs → Epochs
  | 0, _, now => now
  | loops + 1, calls, now =>
      if k.epochClears now.dequeue target then now
      else closeLoop k target loops (calls + 1) (k.replies calls).epochs

def stoplessRevokeClose (attempt : Attempt) : Int :=
  let k := attempt.kernel
  let target := attempt.before.enqueue
  if attempt.injected then -1
  else if ensureCri k ≠ 0 then -1
  else if k.epochClears
      (closeLoop k target 10 1 (k.replies 0).epochs).dequeue target then 0
  else -1

/-- The shadow bitmap: the addresses marked for revocation. -/
abbrev Shadow := Nat → Bool

/-- `stopless_mark_revoke_cap`; `setRc` is what `caprev_shadow_nomap_set`
returns, which marks the bounds of the capability. -/
def stoplessMarkRevokeCap (setRc : Int) (shadow : Shadow) (objCap : Cap) :
    Int × Shadow :=
  if objCap.address = 0 then (-1, shadow)
  else if setRc ≠ 0 then (setRc, shadow)
  else (0, fun a => shadow a ||
    (decide (objCap.base ≤ a) && decide (a < objCap.base + objCap.length)))

/-- A completed sweep clears the tag of a capability without
`CHERI_PERM_SW_VMEM` whose base is marked. -/
def sweepCap (shadow : Shadow) (c : Cap) : Cap :=
  { c with tag := c.tag && (c.perms.swVmem || !shadow c.base) }

end Revoke

end StoplessGC
