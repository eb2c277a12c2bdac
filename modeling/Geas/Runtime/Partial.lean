import Geas.Runtime.Instance

/-!
# The partial surface

What an instance reports about its items at any moment: the named subcontracts
and loose pledges in descriptor order under their state, and the latched errors
by pledge.  Anonymous subcontracts have no name to report and are not items.
-/

namespace Geas.Runtime

open Geas.Abi

/-- The state of an item. -/
inductive GeasItemState where
  | fulfilled | pending | broken
  deriving DecidableEq, Repr

variable (d : GeasContractDesc) (latches : Latches d)

/-- `sub_item_state`: fulfilled or broken when every pledge inside is. -/
def subItemState (s : Fin d.nsubs) : GeasItemState :=
  if subAll d latches (s : Nat) .fulfilled then .fulfilled
  else if subAll d latches (s : Nat) .broken then .broken
  else .pending

/-- `loose_item_state`. -/
def looseItemState (i : Fin d.npledges) : GeasItemState :=
  match latches i with
  | .fulfilled => .fulfilled
  | .broken => .broken
  | .pending => .pending

/-- The names `partial_scan` walks under state `k`: named subcontracts, then loose
pledges. -/
def partialScan (k : GeasItemState) : List String :=
  (List.finRange d.nsubs).filterMap (fun s =>
      if subItemState d latches s = k then d.subs.get s else none) ++
    (List.finRange d.npledges).filterMap fun i =>
      if d.pledgeIsLoose i && looseItemState d latches i = k then some (d.pledge i).name else none

/-- `geas_partial_error` over every index: the broken pledges with what they
carried. -/
def partialErrors (errs : Fin d.npledges → GeasValue) : List (String × GeasValue) :=
  (List.finRange d.npledges).filterMap fun i =>
    if latches i = .broken then some ((d.pledge i).name, errs i) else none

/-- Everything a host can read of an instance's progress. -/
structure PartialSurface where
  state : GeasContractState
  fulfilled : List String
  pending : List String
  broken : List String
  errors : List (String × GeasValue)

variable {d}

/-- The surface of an instance. -/
def partialSurface (c : GeasContract d) : PartialSurface where
  state := c.state
  fulfilled := partialScan d c.pledgeState .fulfilled
  pending := partialScan d c.pledgeState .pending
  broken := partialScan d c.pledgeState .broken
  errors := partialErrors d c.pledgeState c.pledgeErr

end Geas.Runtime
