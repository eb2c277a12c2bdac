import Geas.Lib.Transition
import Geas.Runtime.Policy
import Mathlib.Logic.Function.Basic

/-!
# A contract instance and its fulfillments

One signed instance with everything that can happen to it: fulfillments queued
on the pool, fulfillments run inline by a pledge body, thunks returning with any
status and value, waits, and explicit breaks.  A thunk runs under the recursive
instance lock, so while one runs only calls it makes itself can touch the
instance; the thunks in flight form a stack, innermost first.

Answers of the store and of code outside the runtime (the status and value a
thunk returns, whether `BEGIN` and `COMMIT` succeed, whether an argument frame
could be built) are labels of the step, so a statement about every run covers
all of them.  The log records what happened, oldest first.
-/

namespace Geas.Runtime

open Geas.Abi

/-- A signed instance. -/
structure GeasContract (d : GeasContractDesc) where
  state : GeasContractState
  pledgeState : Latches d
  pledgeErr : Fin d.npledges → GeasValue
  subTxn : Fin d.nsubs → TxnFate
  /-- Whether the store connection is open. -/
  store : Bool
  vowVals : List GeasValue
  shapeHash : UInt64
  signedAt : Int64

/-- What a run records. -/
inductive Event (d : GeasContractDesc) where
  /-- The body of a pledge starts. -/
  | started (p : Fin d.npledges)
  /-- The body returned; `delivered` is the status the fulfillment ends with. -/
  | returned (p : Fin d.npledges) (status : GeasStatus) (out : GeasValue) (delivered : GeasStatus)
  /-- A call was turned away before any body ran. -/
  | refused (p : Fin d.npledges) (status : GeasStatus)
  | began (s : Fin d.nsubs) (answer : GeasStatus)
  | committed (s : Fin d.nsubs) (answer : GeasStatus)
  | rolledBack (s : Fin d.nsubs)
  /-- An explicit break. -/
  | broke

variable {d : GeasContractDesc}

/-- An outcome the latch reads as broken: a `Result` with the `Err` tag. -/
def isErr : GeasValue → Bool
  | .result tag _ => tag == 1
  | _ => false

/-- The payload behind a `Result`'s box. -/
def boxed : GeasValue → Option GeasValue
  | .result _ box => box
  | _ => none

/-- The per-pledge latch: the first outcome decides and nothing changes it. -/
def latchPledge (c : GeasContract d) (p : Fin d.npledges) (out : GeasValue) : GeasContract d :=
  if c.pledgeState p ≠ .pending then c
  else if isErr out then
    { c with
      pledgeState := Function.update c.pledgeState p .broken
      pledgeErr := match boxed out with
        | some payload => Function.update c.pledgeErr p payload
        | none => c.pledgeErr }
  else { c with pledgeState := Function.update c.pledgeState p .fulfilled }

/-- The transactional subcontract a pledge belongs to, if any. -/
def pledgeTxnSub (d : GeasContractDesc) (p : Fin d.npledges) : Option (Fin d.nsubs) :=
  (d.subOf p).bind fun s =>
    match d.subFlags with
    | none => none
    | some flags => if flags.getD s 0 &&& subTransactional = 0 then none else some s

/-- The status a call continues with, the instance it leaves and the store
operations it made. -/
structure Outcome (d : GeasContractDesc) where
  status : GeasStatus
  c : GeasContract d
  events : List (Event d)

/-- Open the episode before the thunk runs; `answer` is the backend's answer to
a `BEGIN`. -/
def txnBefore (c : GeasContract d) (p : Fin d.npledges) (answer : GeasStatus) : Outcome d :=
  match pledgeTxnSub d p with
  | none => ⟨.ok, c, []⟩
  | some s =>
      if c.store = false then ⟨.ok, c, []⟩
      else
        match c.subTxn s with
        | .txnDone => ⟨.errState, c, []⟩
        | .txnOpen => ⟨.ok, c, []⟩
        | .txnNone =>
            if answer ≠ .ok then ⟨answer, c, [.began s answer]⟩
            else ⟨.ok, { c with subTxn := Function.update c.subTxn s .txnOpen }, [.began s .ok]⟩

/-- Close the episode of a subcontract. -/
def closeEpisode (c : GeasContract d) (s : Fin d.nsubs) : GeasContract d :=
  { c with subTxn := Function.update c.subTxn s .txnDone }

/-- Resolve the episode after one pledge outcome; `answer` is the backend's
answer to a `COMMIT`. -/
def txnAfter (c : GeasContract d) (p : Fin d.npledges) (status : GeasStatus) (out : GeasValue)
    (answer : GeasStatus) : Outcome d :=
  match pledgeTxnSub d p with
  | none => ⟨status, c, []⟩
  | some s =>
      if c.store = false ∨ c.subTxn s ≠ .txnOpen then ⟨status, c, []⟩
      else if status ≠ .ok ∨ isErr out then ⟨status, closeEpisode c s, [.rolledBack s]⟩
      else if subAll d c.pledgeState s .fulfilled then
        if answer ≠ .ok then
          ⟨.errStore, closeEpisode c s, [.committed s answer, .rolledBack s]⟩
        else ⟨status, closeEpisode c s, [.committed s .ok]⟩
      else ⟨status, c, []⟩

/-- What follows a thunk's return on both paths: latch and policy on `GEAS_OK`,
then the episode. -/
def settle (c : GeasContract d) (p : Fin d.npledges) (status : GeasStatus) (out : GeasValue)
    (answer : GeasStatus) : Outcome d :=
  if status = .ok then
    let latched := latchPledge c p out
    txnAfter { latched with state := evalPolicy d latched.pledgeState latched.state } p status out
      answer
  else txnAfter c p status out answer

/-- The instance side of an explicit break: payloads zeroed, the store rolled
back and closed, the owned heap gone and the vow values with it, the state
Broken. -/
def breakInstance (c : GeasContract d) : GeasContract d :=
  { c with
    pledgeErr := fun _ => .zero
    store := false
    vowVals := []
    state := .broken }

/-- The receipt of one queued fulfillment.  `pidx` is set once the call was
validated. -/
structure GeasFuture (d : GeasContractDesc) where
  pidx : Option (Fin d.npledges)
  queued : Bool
  status : GeasStatus
  value : GeasValue
  done : Bool
  waited : Bool

/-- Publish an outcome, unless one was published. -/
def futureFinish (f : GeasFuture d) (status : GeasStatus) (value : Option GeasValue) :
    GeasFuture d :=
  if f.done then f
  else { f with status := status, value := value.getD f.value, done := true }

/-- Break's side: an unwaited future forfeits to `GEAS_ERR_STATE`. -/
def futureForfeit (f : GeasFuture d) : GeasFuture d :=
  if f.waited then f else { f with status := .errState, value := .zero, done := true }

/-- A call as it arrives: `frame` is what building the argument frame answers. -/
structure Request where
  pledgeName : String
  nargs : Nat
  nrefs : Nat
  argsNull : Bool
  refsNull : Bool
  frame : GeasStatus

/-- The state gate every fulfillment passes. -/
def gateOpen (state : GeasContractState) : Bool :=
  state == .signed || state == .partly || state == .fulfilled

/-- The validation both fulfillment paths share, in the order of the source. -/
def validate (c : GeasContract d) (request : Request) : Except GeasStatus (Fin d.npledges) :=
  if (request.nargs > 0 && request.argsNull) || (request.nrefs > 0 && request.refsNull) then
    .error .errType
  else if !gateOpen c.state then .error .errState
  else
    match d.findPledge request.pledgeName with
    | none => .error .errName
    | some p =>
        if request.nargs + request.nrefs ≠ (d.pledge p).nargs then .error .errType
        else if request.frame ≠ .ok then .error request.frame
        else .ok p

/-- A thunk in flight: its pledge, the future it will publish to when it came
from the queue, and the refs an inline call writes back. -/
structure Thunk (d : GeasContractDesc) where
  pidx : Fin d.npledges
  future : Option Nat
  nrefs : Nat

/-- The instance, its futures, the thunks in flight and the log. -/
structure Sys (d : GeasContractDesc) where
  c : GeasContract d
  futures : List (GeasFuture d)
  running : List (Thunk d)
  log : List (Event d)

/-- One critical section of the runtime. -/
inductive Action (d : GeasContractDesc) where
  /-- `geas_pledge_fulfill`: validate and queue. -/
  | fulfill (request : Request)
  /-- A worker takes queued future `k` and runs up to the thunk's start. -/
  | dequeue (k : Nat) (begun : GeasStatus)
  /-- `fulfill_inline` up to the thunk's start. -/
  | inline (request : Request) (begun : GeasStatus)
  /-- The innermost thunk returns and its fulfillment completes. -/
  | finish (status : GeasStatus) (out : GeasValue) (commit writeBack : GeasStatus)
  /-- `geas_future_wait` delivers future `k`. -/
  | wait (k : Nat)
  /-- `geas_contract_break`. -/
  | brk

/-- The backend's answer to a `BEGIN` that a call comes with. -/
def Action.begun : Action d → Option GeasStatus
  | .dequeue _ begun | .inline _ begun => some begun
  | .fulfill _ | .finish _ _ _ _ | .wait _ | .brk => none

/-- Publish to the future a thunk came from; an inline call has none. -/
def publish (futures : List (GeasFuture d)) (future : Option Nat) (status : GeasStatus)
    (value : Option GeasValue) : List (GeasFuture d) :=
  match future with
  | some k => futures.modify k fun f => futureFinish f status value
  | none => futures

/-- Open the episode and start the thunk, or turn the call away. -/
def enter (s : Sys d) (thunk : Thunk d) (begun : GeasStatus) : Sys d :=
  let gate := txnBefore s.c thunk.pidx begun
  if gate.status ≠ .ok then
    { s with
      c := gate.c
      futures := publish s.futures thunk.future gate.status none
      log := s.log ++ gate.events ++ [.refused thunk.pidx gate.status] }
  else
    { s with
      c := gate.c
      running := thunk :: s.running
      log := s.log ++ gate.events ++ [.started thunk.pidx] }

/-- The status a fulfillment ends with: an inline call also writes its refs
back. -/
def delivered (thunk : Thunk d) (settled writeBack : GeasStatus) : GeasStatus :=
  if settled = .ok ∧ thunk.future = none ∧ thunk.nrefs > 0 then writeBack else settled

/-- The innermost thunk returns. -/
def leave (s : Sys d) (thunk : Thunk d) (rest : List (Thunk d)) (status : GeasStatus)
    (out : GeasValue) (commit writeBack : GeasStatus) : Sys d :=
  let settled := settle s.c thunk.pidx status out commit
  { c := settled.c
    futures := publish s.futures thunk.future settled.status (some out)
    running := rest
    log := s.log ++
      (.returned thunk.pidx status out (delivered thunk settled.status writeBack) ::
        settled.events) }

/-- One step of the system. -/
def step (s : Sys d) : Action d → Option (Sys d)
  | .fulfill request =>
      match validate s.c request with
      | .error status =>
          some { s with futures := s.futures ++ [⟨none, false, status, .zero, true, false⟩] }
      | .ok p => some { s with futures := s.futures ++ [⟨some p, true, .ok, .zero, false, false⟩] }
  | .dequeue k begun =>
      match s.running, s.futures[k]? with
      | [], some ⟨some p, true, status, value, done, waited⟩ =>
          let s := { s with futures := s.futures.set k ⟨some p, false, status, value, done, waited⟩ }
          if gateOpen s.c.state then some (enter s ⟨p, some k, 0⟩ begun)
          else some { s with futures := publish s.futures (some k) .errState none }
      | _, _ => none
  | .inline request begun =>
      match validate s.c request with
      | .error _ => some s
      | .ok p => some (enter s ⟨p, none, request.nrefs⟩ begun)
  | .finish status out commit writeBack =>
      match s.running with
      | [] => none
      | thunk :: rest => some (leave s thunk rest status out commit writeBack)
  | .wait k =>
      match s.futures[k]? with
      | some f => if f.done then some { s with futures := s.futures.set k { f with waited := true } }
          else none
      | none => none
  | .brk =>
      if s.c.state = .unsigned then some s
      else some { s with
        c := breakInstance s.c
        futures := s.futures.map futureForfeit
        log := s.log ++ [.broke] }

/-- A fresh instance, as `geas_contract_sign` leaves it. -/
def freshContract (d : GeasContractDesc) (vowVals : List GeasValue) (signedAt : Int64) :
    GeasContract d where
  state := .signed
  pledgeState := fun _ => .pending
  pledgeErr := fun _ => .zero
  subTxn := fun _ => .txnNone
  store := d.nschemas > 0
  vowVals := vowVals
  shapeHash := d.shapeHash
  signedAt := signedAt

/-- The system right after sign. -/
def signedSys (d : GeasContractDesc) (vowVals : List GeasValue) (signedAt : Int64) : Sys d :=
  ⟨freshContract d vowVals signedAt, [], [], []⟩

/-! ## What the parts of a step leave alone -/

section Frame

variable (c : GeasContract d) (p : Fin d.npledges) (status answer : GeasStatus) (out : GeasValue)

/-- `txnBefore` touches the episodes only. -/
theorem txnBefore_c : ∃ subTxn, (txnBefore c p answer).c = { c with subTxn := subTxn } := by
  unfold txnBefore
  split
  · exact ⟨c.subTxn, rfl⟩
  · split
    · exact ⟨c.subTxn, rfl⟩
    · split
      · exact ⟨c.subTxn, rfl⟩
      · exact ⟨c.subTxn, rfl⟩
      · split
        · exact ⟨c.subTxn, rfl⟩
        · exact ⟨_, rfl⟩

/-- `txnAfter` touches the episodes only. -/
theorem txnAfter_c :
    ∃ subTxn, (txnAfter c p status out answer).c = { c with subTxn := subTxn } := by
  unfold txnAfter closeEpisode
  split
  · exact ⟨c.subTxn, rfl⟩
  · split
    · exact ⟨c.subTxn, rfl⟩
    · split
      · exact ⟨_, rfl⟩
      · split
        · split
          · exact ⟨_, rfl⟩
          · exact ⟨_, rfl⟩
        · exact ⟨c.subTxn, rfl⟩

@[simp] theorem txnBefore_pledgeState : (txnBefore c p answer).c.pledgeState = c.pledgeState := by
  obtain ⟨_, equal⟩ := txnBefore_c c p answer
  rw [equal]

@[simp] theorem txnBefore_pledgeErr : (txnBefore c p answer).c.pledgeErr = c.pledgeErr := by
  obtain ⟨_, equal⟩ := txnBefore_c c p answer
  rw [equal]

@[simp] theorem txnBefore_state : (txnBefore c p answer).c.state = c.state := by
  obtain ⟨_, equal⟩ := txnBefore_c c p answer
  rw [equal]

@[simp] theorem txnBefore_store : (txnBefore c p answer).c.store = c.store := by
  obtain ⟨_, equal⟩ := txnBefore_c c p answer
  rw [equal]

/-- The latches after an outcome. -/
@[simp] theorem settle_pledgeState :
    (settle c p status out answer).c.pledgeState =
      if status = .ok then (latchPledge c p out).pledgeState else c.pledgeState := by
  unfold settle
  split
  · obtain ⟨_, equal⟩ := txnAfter_c { latchPledge c p out with
      state := evalPolicy d (latchPledge c p out).pledgeState (latchPledge c p out).state }
      p status answer out
    rw [equal]
  · obtain ⟨_, equal⟩ := txnAfter_c c p status answer out
    rw [equal]

/-- The payloads after an outcome. -/
@[simp] theorem settle_pledgeErr :
    (settle c p status out answer).c.pledgeErr =
      if status = .ok then (latchPledge c p out).pledgeErr else c.pledgeErr := by
  unfold settle
  split
  · obtain ⟨_, equal⟩ := txnAfter_c { latchPledge c p out with
      state := evalPolicy d (latchPledge c p out).pledgeState (latchPledge c p out).state }
      p status answer out
    rw [equal]
  · obtain ⟨_, equal⟩ := txnAfter_c c p status answer out
    rw [equal]

@[simp] theorem latchPledge_state : (latchPledge c p out).state = c.state := by
  unfold latchPledge
  split
  · rfl
  · split <;> rfl

@[simp] theorem latchPledge_store : (latchPledge c p out).store = c.store := by
  unfold latchPledge
  split
  · rfl
  · split <;> rfl

@[simp] theorem latchPledge_subTxn : (latchPledge c p out).subTxn = c.subTxn := by
  unfold latchPledge
  split
  · rfl
  · split <;> rfl

/-- The state after an outcome. -/
@[simp] theorem settle_state :
    (settle c p status out answer).c.state =
      if status = .ok then evalPolicy d (latchPledge c p out).pledgeState c.state
      else c.state := by
  unfold settle
  split
  · obtain ⟨_, equal⟩ := txnAfter_c { latchPledge c p out with
      state := evalPolicy d (latchPledge c p out).pledgeState (latchPledge c p out).state }
      p status answer out
    rw [equal]
    simp only [latchPledge_state]
  · obtain ⟨_, equal⟩ := txnAfter_c c p status answer out
    rw [equal]

@[simp] theorem settle_store : (settle c p status out answer).c.store = c.store := by
  unfold settle
  split
  · obtain ⟨_, equal⟩ := txnAfter_c { latchPledge c p out with
      state := evalPolicy d (latchPledge c p out).pledgeState (latchPledge c p out).state }
      p status answer out
    rw [equal]
    simp only [latchPledge_store]
  · obtain ⟨_, equal⟩ := txnAfter_c c p status answer out
    rw [equal]

/-- An outcome touches the state, the latches with their payloads and the episodes
only. -/
theorem settle_c : ∃ state pledgeState pledgeErr subTxn, (settle c p status out answer).c =
    { c with
      state := state
      pledgeState := pledgeState
      pledgeErr := pledgeErr
      subTxn := subTxn } := by
  obtain ⟨latches, errs, latched⟩ : ∃ latches errs, latchPledge c p out =
      { c with pledgeState := latches, pledgeErr := errs } := by
    unfold latchPledge
    split
    · exact ⟨c.pledgeState, c.pledgeErr, rfl⟩
    · split
      · exact ⟨_, _, rfl⟩
      · exact ⟨_, c.pledgeErr, rfl⟩
  unfold settle
  split
  · obtain ⟨subTxn, equal⟩ := txnAfter_c { latchPledge c p out with
      state := evalPolicy d (latchPledge c p out).pledgeState (latchPledge c p out).state }
      p status answer out
    rw [latched] at equal ⊢
    exact ⟨_, latches, errs, subTxn, equal⟩
  · obtain ⟨subTxn, equal⟩ := txnAfter_c c p status answer out
    exact ⟨c.state, c.pledgeState, c.pledgeErr, subTxn, equal⟩

end Frame

/-- A call leaves the instance its gate left. -/
theorem enter_c (s : Sys d) (thunk : Thunk d) (begun : GeasStatus) :
    (enter s thunk begun).c = (txnBefore s.c thunk.pidx begun).c := by
  unfold enter
  dsimp only
  split <;> rfl

/-- The step is a call that reaches the gate of pledge `p`. -/
def Calls (s : Sys d) (action : Action d) (p : Fin d.npledges) : Prop :=
  (∃ k begun f, action = .dequeue k begun ∧ s.futures[k]? = some f ∧ f.pidx = some p) ∨
    ∃ request begun, action = .inline request begun ∧ validate s.c request = .ok p

/-- Everything a step can do to the instance, the thunks in flight and the log.
A call that is turned away by validation, queued or waited for touches none of
the three. -/
theorem step_cases {s t : Sys d} {action : Action d} (stepped : step s action = some t) :
    (t.c = s.c ∧ t.running = s.running ∧ t.log = s.log) ∨
    (∃ futures thunk begun, gateOpen s.c.state = true ∧ Calls s action thunk.pidx ∧
      action.begun = some begun ∧ t = enter { s with futures := futures } thunk begun) ∨
    (∃ thunk rest status out commit writeBack, action = .finish status out commit writeBack ∧
      s.running = thunk :: rest ∧ t = leave s thunk rest status out commit writeBack) ∨
    (action = .brk ∧ s.c.state ≠ .unsigned ∧
      t = { s with
        c := breakInstance s.c
        futures := s.futures.map futureForfeit
        log := s.log ++ [.broke] }) := by
  cases action with
  | fulfill request =>
      simp only [step] at stepped
      split at stepped <;> cases stepped <;> exact Or.inl ⟨rfl, rfl, rfl⟩
  | dequeue k begun =>
      simp only [step] at stepped
      split at stepped
      · next present =>
        split at stepped
        · next gate =>
          cases stepped
          exact Or.inr (Or.inl ⟨_, _, _, gate, Or.inl ⟨k, begun, _, rfl, present, rfl⟩, rfl, rfl⟩)
        · cases stepped
          exact Or.inl ⟨rfl, rfl, rfl⟩
      · cases stepped
  | inline request begun =>
      simp only [step] at stepped
      split at stepped
      · cases stepped
        exact Or.inl ⟨rfl, rfl, rfl⟩
      · next p accepted =>
        cases stepped
        have gate : gateOpen s.c.state = true := by
          unfold validate at accepted
          split at accepted
          · cases accepted
          · split at accepted
            · cases accepted
            · next gate => simpa using gate
        have calls : Calls s (.inline request begun) p := Or.inr ⟨request, begun, rfl, accepted⟩
        exact Or.inr (Or.inl ⟨s.futures, _, begun, gate, calls, rfl, rfl⟩)
  | finish status out commit writeBack =>
      simp only [step] at stepped
      split at stepped
      · cases stepped
      · next thunk rest running =>
        cases stepped
        exact Or.inr (Or.inr (Or.inl ⟨thunk, rest, status, out, commit, writeBack, rfl, running,
          rfl⟩))
  | wait k =>
      simp only [step] at stepped
      split at stepped
      · split at stepped
        · cases stepped
          exact Or.inl ⟨rfl, rfl, rfl⟩
        · cases stepped
      · cases stepped
  | brk =>
      simp only [step] at stepped
      split at stepped
      · cases stepped
        exact Or.inl ⟨rfl, rfl, rfl⟩
      · next signed =>
        cases stepped
        exact Or.inr (Or.inr (Or.inr ⟨rfl, signed, rfl⟩))

theorem step_finish {s t : Sys d} {status : GeasStatus} {out : GeasValue}
    {commit writeBack : GeasStatus}
    (stepped : step s (.finish status out commit writeBack) = some t) :
    ∃ thunk rest, s.running = thunk :: rest ∧
      t = leave s thunk rest status out commit writeBack := by
  simp only [step] at stepped
  split at stepped
  · cases stepped
  · next thunk rest running =>
    cases stepped
    exact ⟨thunk, rest, running, rfl⟩

end Geas.Runtime
