import Geas.Runtime.Transactions
import Geas.Runtime.Pool

/-!
# The two paths of a synchronous fulfillment

`geas_pledge_fulfill_sync` queues the call and waits, or, on a pool worker, runs
it inline.  Both paths are functions here, from the instance, host memory, the
call and the dispatch table to what the host sees afterwards.

A body is any function of the instance, the slots of its frame and host memory.
It may move the latches through calls of its own and may break its instance.  The
backend's answers to `BEGIN` and `COMMIT` are parameters.  Nobody else touches the
instance meanwhile, and the future gets its memory.
-/

namespace Geas.Runtime.Pool

open Geas.Abi
open Geas.Lib.Transition

variable {d : GeasContractDesc} {H : Type}

/-- What a body returns and leaves behind.  `broke` tells whether it broke its
instance; `c` is the instance before that. -/
structure BodyResult (d : GeasContractDesc) (H : Type) where
  status : GeasStatus
  out : GeasValue
  c : GeasContract d
  slots : Nat → GeasValue
  host : H
  broke : Bool

/-- The instance as a body leaves it. -/
def BodyResult.left (r : BodyResult d H) : GeasContract d :=
  if r.broke then breakInstance r.c else r.c

/-- A pledge's thunk, with its value arguments. -/
def GeasPledgeFn (d : GeasContractDesc) (H : Type) :=
  GeasContract d → (Nat → GeasValue) → H → BodyResult d H

/-- What the host sees of a synchronous call: the status, `*out`, the instance and
its own memory. -/
structure SyncReturn (d : GeasContractDesc) (H : Type) where
  status : GeasStatus
  out : GeasValue
  c : GeasContract d
  host : H

/-- `fulfill_inline`, with `*out` zeroed by its caller. -/
def fulfillInline (memory : HostMemory H) (fns : Fin d.npledges → GeasPledgeFn d H)
    (c : GeasContract d) (host : H) (call : Call H) (begun commit : GeasStatus) :
    SyncReturn d H :=
  match validate c (call.request .ok) with
  | .error status => ⟨status, .zero, c, host⟩
  | .ok p =>
      match prepareFrame memory host call with
      | .error status => ⟨status, .zero, c, host⟩
      | .ok copied =>
          let gate := txnBefore c p begun
          if gate.status ≠ .ok then ⟨gate.status, .zero, gate.c, host⟩
          else
            let r := fns p gate.c (slotsOf copied) host
            let settled := settle r.left p r.status r.out commit
            if settled.status ≠ .ok then ⟨settled.status, .zero, settled.c, r.host⟩
            else if call.refs.isEmpty then ⟨settled.status, r.out, settled.c, r.host⟩
            else
              let (wb, host') := writeBackRefs memory r.host call.refs r.slots
              if wb ≠ .ok then ⟨wb, .zero, settled.c, host'⟩
              else ⟨settled.status, r.out, settled.c, host'⟩

/-- `run_task`. -/
def runTask (fns : Fin d.npledges → GeasPledgeFn d H) (c : GeasContract d) (host : H)
    (f : GeasFuture d H) (begun commit : GeasStatus) : GeasFuture d H × GeasContract d × H :=
  match f.pidx with
  -- Only a validated call is queued.
  | none => (f, c, host)
  | some p =>
      if gateOpen c.state = false then (futureFinish f .errState none, c, host)
      else
        let gate := txnBefore c p begun
        if gate.status ≠ .ok then (futureFinish f gate.status none, gate.c, host)
        else
          let r := fns p gate.c (f.refSlots.getD (slotsOf [])) host
          let ran := { f with refSlots := f.refSlots.map fun _ => r.slots }
          -- A break from the body finds the future on the instance's list.
          let ran := if r.broke then futureForfeit ran else ran
          let settled := settle r.left p r.status r.out commit
          (futureFinish ran settled.status (some r.out), settled.c, r.host)

/-- The wait of `geas_pledge_fulfill_sync`; `*out` stays zeroed when it delivers no
value. -/
def deliver (memory : HostMemory H) (f : GeasFuture d H) (c : GeasContract d) (host : H) :
    SyncReturn d H :=
  let (result, _, host') := geasFutureWait memory host f
  ⟨result.status, result.out.getD .zero, c, host'⟩

/-- The queued path: `geas_pledge_fulfill`, `run_task` on a worker, and the wait. -/
def fulfillQueued (memory : HostMemory H) (fns : Fin d.npledges → GeasPledgeFn d H)
    (c : GeasContract d) (host : H) (call : Call H) (begun commit : GeasStatus) :
    SyncReturn d H :=
  let (f, caller) := check memory c host (futureNew true call).f call
  match caller with
  | .refused status => deliver memory (futureFinish f status none) c host
  | _ =>
      let (f, c, host) := runTask fns c host { f with refcnt := 2 } begun commit
      deliver memory f c host

/-! ## Where they agree -/

/-- The `COMMIT` of an episode that this outcome completes is refused: the outcome
is no `Err`, every other pledge of the subcontract has landed, and the backend
says no. -/
def CommitRefused (c : GeasContract d) (p : Fin d.npledges) (out : GeasValue)
    (commit : GeasStatus) : Prop :=
  commit ≠ .ok ∧ isErr out = false ∧ c.store = true ∧ c.pledgeState p ≠ .broken ∧
    ∃ sub, pledgeTxnSub d p = some sub ∧ c.subTxn sub = .txnOpen ∧
      ∀ q ∈ subMembers d (sub : Nat), q ≠ p → c.pledgeState q = .fulfilled

/-- The bodies on which the paths agree: one that broke its instance says so in its
status, and another that does not end with `GEAS_OK` and a commit leaves its
`*out` alone. -/
def Uniform (r : BodyResult d H) (p : Fin d.npledges) (commit : GeasStatus) : Prop :=
  if r.broke then r.status = .errState
  else (r.status = .ok ∧ ¬CommitRefused r.c p r.out commit) ∨ r.out = .zero

/-- An outcome that is no `Err` completes the subcontract. -/
theorem latchPledge_completes {c : GeasContract d} {p : Fin d.npledges} {out : GeasValue}
    {sub : Fin d.nsubs} (member : p ∈ subMembers d (sub : Nat)) (agreed : isErr out = false) :
    subAll d (latchPledge c p out).pledgeState (sub : Nat) .fulfilled = true ↔
      c.pledgeState p ≠ .broken ∧
        ∀ q ∈ subMembers d (sub : Nat), q ≠ p → c.pledgeState q = .fulfilled := by
  have own : (latchPledge c p out).pledgeState p = .fulfilled ↔ c.pledgeState p ≠ .broken := by
    rw [latchPledge_pledgeState]
    cases latch : c.pledgeState p with
    | pending => simp [latchOf, agreed]
    | fulfilled => simp
    | broken => simp
  rw [subAll_iff, ← own]
  constructor
  · rintro ⟨-, all⟩
    refine ⟨all p member, fun q inside other => ?_⟩
    have landed := all q inside
    rw [latchPledge_pledgeState, if_neg (fun same => other same.1)] at landed
    exact landed
  · rintro ⟨mine, others⟩
    refine ⟨List.ne_nil_of_mem member, fun q inside => ?_⟩
    by_cases other : q = p
    · rw [other]
      exact mine
    · rw [latchPledge_pledgeState, if_neg (fun same => other same.1)]
      exact others q inside other

/-- Without a store the body's status is the call's. -/
theorem settle_status_of_closed {c : GeasContract d} (closed : c.store = false)
    (p : Fin d.npledges) (status : GeasStatus) (out : GeasValue) (commit : GeasStatus) :
    (settle c p status out commit).status = status := by
  rcases settle_cases c p status commit out with ⟨-, same, -⟩ | ⟨_, _, connected, -⟩
  · exact same
  · exact absurd (closed.symm.trans connected) Bool.false_ne_true

theorem settle_status_ok_iff (c : GeasContract d) (p : Fin d.npledges) (status : GeasStatus)
    (out : GeasValue) (commit : GeasStatus) :
    (settle c p status out commit).status = .ok ↔ status = .ok ∧ ¬CommitRefused c p out commit := by
  have latches : status = .ok → (settle c p status out commit).c.pledgeState =
      (latchPledge c p out).pledgeState := fun ok => by rw [settle_pledgeState, if_pos ok]
  have member {sub} (inside : pledgeTxnSub d p = some sub) : p ∈ subMembers d (sub : Nat) :=
    mem_subMembers.mpr (pledgeTxnSub_eq_some.mp inside).1
  rcases settle_cases c p status commit out with ⟨-, same, -, rests⟩ |
    ⟨sub, inside, connected, opened, -, ⟨-, same, failed⟩ | ⟨ok, agreed, complete, ends⟩⟩
  · rw [same]
    refine ⟨fun ok => ⟨ok, ?_⟩, And.left⟩
    rintro ⟨-, agreed, connected, unbroken, sub, inside, opened, others⟩
    have incomplete := (rests sub inside connected opened).2.2
    rw [latches ok, (latchPledge_completes (member inside) agreed).mpr ⟨unbroken, others⟩]
      at incomplete
    cases incomplete
  · rw [same]
    refine ⟨fun ok => ⟨ok, ?_⟩, And.left⟩
    rintro ⟨-, agreed, -⟩
    rcases failed with fault | refused
    · exact fault ok
    · exact Bool.false_ne_true (agreed.symm.trans refused)
  · rcases ends with ⟨granted, -, done⟩ | ⟨denied, -, done⟩
    · rw [done]
      exact ⟨fun _ => ⟨ok, fun refused => refused.1 granted⟩, fun _ => rfl⟩
    · rw [done]
      refine ⟨nofun, fun ⟨_, unrefused⟩ => absurd ?_ unrefused⟩
      rw [latches ok, latchPledge_completes (member inside) agreed] at complete
      exact ⟨denied, agreed, connected, complete.1, sub, inside, opened, complete.2⟩

/-- What the host sees of an outcome with `GEAS_OK`, after the write back. -/
def writtenBack (memory : HostMemory H) (host : H) (refs : List (GeasRef H))
    (slots : Nat → GeasValue) (out : GeasValue) (c : GeasContract d) : SyncReturn d H :=
  if refs = [] then ⟨.ok, out, c, host⟩
  else if (writeBackRefs memory host refs slots).1 ≠ .ok then
    ⟨(writeBackRefs memory host refs slots).1, .zero, c, (writeBackRefs memory host refs slots).2⟩
  else ⟨.ok, out, c, (writeBackRefs memory host refs slots).2⟩

/-- The future of a call whose body left `slots` in the frame, delivered. -/
theorem deliver_finished (memory : HostMemory H) {f : GeasFuture d H} (undone : f.done = false)
    (unwaited : f.waited = false) {slots : Nat → GeasValue}
    (pointer : f.refSlots = if f.refs = [] then none else some slots) (status : GeasStatus)
    (out : GeasValue) (c : GeasContract d) (host : H) :
    deliver memory (futureFinish f status (some out)) c host =
      if status ≠ .ok then ⟨status, out, c, host⟩
      else writtenBack memory host f.refs slots out c := by
  rw [futureFinish, if_neg (by simp [undone]), deliver, geasFutureWait, if_neg (by simp [unwaited])]
  by_cases none : f.refs = []
  · by_cases failed : status = .ok
    · simp [pointer, none, failed, writtenBack]
    · simp [pointer, none, failed]
  · simp only [pointer, none, if_false, or_false]
    by_cases failed : status = .ok
    · simp only [failed, ne_eq, not_true, if_false, writtenBack, none]
      split <;> rfl
    · simp [failed]

theorem deliver_forfeited (memory : HostMemory H) {f : GeasFuture d H} (unwaited : f.waited = false)
    (status : GeasStatus) (value : Option GeasValue) (c : GeasContract d) (host : H) :
    deliver memory (futureFinish (futureForfeit f) status value) c host =
      ⟨.errState, .zero, c, host⟩ := by
  have forfeited := futureForfeit_forfeited unwaited
  rw [futureFinish_of_done _ status value forfeited.done, deliver, geasFutureWait,
    if_neg (by simp [unwaited]), forfeited.refSlots, forfeited.status, forfeited.value]
  rfl

/-- A call that is turned away delivers that. -/
theorem deliver_refused (memory : HostMemory H) {f : GeasFuture d H} (undone : f.done = false)
    (unwaited : f.waited = false) (blank : f.value = .zero) {status : GeasStatus}
    (quiet : f.refSlots = none ∨ status ≠ .ok) (c : GeasContract d) (host : H) :
    deliver memory (futureFinish f status none) c host = ⟨status, .zero, c, host⟩ := by
  rw [futureFinish, if_neg (by simp [undone]), deliver, geasFutureWait, if_neg (by simp [unwaited])]
  cases pointer : f.refSlots with
  | none => simp [blank]
  | some slots =>
      have failed : status ≠ .ok := quiet.resolve_left (by simp [pointer])
      simp [blank, failed]

section Paths

variable {memory : HostMemory H} {fns : Fin d.npledges → GeasPledgeFn d H} {c : GeasContract d}
variable {host : H} {call : Call H} {begun : GeasStatus} {p : Fin d.npledges}
variable {copied : List GeasValue}

theorem prepareFrame_without_refs (prepared : prepareFrame memory host call = .ok copied)
    (none : call.refs = []) : copied = [] := by
  unfold prepareFrame at prepared
  split at prepared
  · cases prepared
    rfl
  · split at prepared
    · cases prepared
    · rw [none] at prepared
      cases prepared
      rfl

/-- The queued path makes a future that is ready. -/
theorem check_ready (valid : validate c (call.request .ok) = .ok p)
    (granted : call.refs ≠ [] → call.refsHeap = true)
    (prepared : prepareFrame memory host call = .ok copied)
    (f : GeasFuture d H) : ∃ frame, check memory c host f call =
      ({ f with
          pidx := some p
          frame := frame
          refs := call.refs
          refSlots := if call.refs = [] then none else some (slotsOf copied) }, .ready) := by
  refine ⟨call.nargs + call.refs.length ≠ 0, ?_⟩
  rw [check, valid]
  dsimp only
  rw [if_neg fun starved => by simp [granted starved.1] at starved, prepared]

/-- Both paths end alike when the call does not get as far as a body. -/
theorem paths_agree_of_unreached (granted : call.refs ≠ [] → call.refsHeap = true)
    (commit : GeasStatus)
    (unreached : ∀ p copied, validate c (call.request .ok) = .ok p →
      prepareFrame memory host call = .ok copied → (txnBefore c p begun).status ≠ .ok) :
    fulfillInline memory fns c host call begun commit =
      fulfillQueued memory fns c host call begun commit := by
  rw [fulfillInline, fulfillQueued]
  cases valid : validate c (call.request .ok) with
  | error status =>
      rw [check, valid]
      exact (deliver_refused memory rfl rfl rfl (Or.inl rfl) c host).symm
  | ok p =>
      cases prepared : prepareFrame memory host call with
      | error status =>
          rw [check, valid]
          dsimp only
          rw [if_neg fun starved => by simp [granted starved.1] at starved, prepared]
          exact (deliver_refused memory rfl rfl rfl (Or.inl rfl) c host).symm
      | ok copied =>
          have refused := unreached p copied valid prepared
          obtain ⟨frame, ready⟩ := check_ready valid granted prepared (futureNew true call).f
          rw [ready]
          simp only [if_pos refused, runTask, (validate_ok valid).1, Bool.true_eq_false, if_false]
          exact (deliver_refused memory rfl rfl rfl (Or.inr refused) _ host).symm

/-- What follows the body on the inline path. -/
theorem fulfillInline_ran (valid : validate c (call.request .ok) = .ok p)
    (prepared : prepareFrame memory host call = .ok copied)
    (gate : (txnBefore c p begun).status = .ok) {r : BodyResult d H}
    (body : fns p (txnBefore c p begun).c (slotsOf copied) host = r) (commit : GeasStatus) :
    fulfillInline memory fns c host call begun commit =
      let settled := settle r.left p r.status r.out commit
      if settled.status ≠ .ok then ⟨settled.status, .zero, settled.c, r.host⟩
      else writtenBack memory r.host call.refs r.slots r.out settled.c := by
  rw [fulfillInline, valid]
  dsimp only
  rw [prepared]
  simp only [gate, ne_eq, not_true, if_false, body, List.isEmpty_iff]
  split
  · rfl
  · next ok =>
    rw [not_not.mp ok]
    rfl

/-- What follows it on the queued path. -/
theorem fulfillQueued_ran (valid : validate c (call.request .ok) = .ok p)
    (granted : call.refs ≠ [] → call.refsHeap = true)
    (prepared : prepareFrame memory host call = .ok copied)
    (gate : (txnBefore c p begun).status = .ok) {r : BodyResult d H}
    (body : fns p (txnBefore c p begun).c (slotsOf copied) host = r) (commit : GeasStatus) :
    fulfillQueued memory fns c host call begun commit =
      let settled := settle r.left p r.status r.out commit
      if r.broke then ⟨.errState, .zero, settled.c, r.host⟩
      else if settled.status ≠ .ok then ⟨settled.status, r.out, settled.c, r.host⟩
      else writtenBack memory r.host call.refs r.slots r.out settled.c := by
  obtain ⟨frame, ready⟩ := check_ready valid granted prepared (futureNew true call).f
  have slots : (if call.refs = [] then none else some (slotsOf copied)).getD (slotsOf []) =
      slotsOf copied := by
    split
    · next none => rw [prepareFrame_without_refs prepared none]; rfl
    · rfl
  rw [fulfillQueued, ready]
  simp only [runTask, (validate_ok valid).1, Bool.true_eq_false, if_false, gate, ne_eq, not_true,
    slots, body]
  cases broke : r.broke with
  | true =>
      simp only [if_true]
      exact deliver_forfeited memory rfl _ _ _ _
  | false =>
      simp only [Bool.false_eq_true, if_false]
      refine deliver_finished memory rfl rfl ?_ _ _ _ _
      split <;> rfl

/-- With references the copy in accepted, the write back ends with `GEAS_OK` or a
type error. -/
theorem writtenBack_status (prepared : prepareFrame memory host call = .ok copied) (host' : H)
    (slots : Nat → GeasValue) (out : GeasValue) (c : GeasContract d) :
    (writtenBack memory host' call.refs slots out c).status = .ok ∨
      (writtenBack memory host' call.refs slots out c).status = .errType := by
  unfold writtenBack
  rcases writeBackRefs_all_or_none memory host' slots (writable_of_prepareFrame prepared) with
    none | all
  · rw [none]
    split
    · exact Or.inl rfl
    · exact Or.inr rfl
  · rw [all]
    split
    · exact Or.inl rfl
    · exact Or.inl rfl

/-- Once the body ran, the two paths end alike on a uniform one only. -/
theorem paths_agree_of_ran_iff (granted : call.refs ≠ [] → call.refsHeap = true)
    (valid : validate c (call.request .ok) = .ok p)
    (prepared : prepareFrame memory host call = .ok copied)
    (gate : (txnBefore c p begun).status = .ok) {r : BodyResult d H}
    (body : fns p (txnBefore c p begun).c (slotsOf copied) host = r) (commit : GeasStatus) :
    fulfillInline memory fns c host call begun commit =
        fulfillQueued memory fns c host call begun commit ↔ Uniform r p commit := by
  rw [fulfillInline_ran valid prepared gate body,
    fulfillQueued_ran valid granted prepared gate body, Uniform]
  cases broke : r.broke with
  | true =>
      have closed : r.left.store = false := by rw [BodyResult.left, broke]; rfl
      simp only [settle_status_of_closed closed, if_true]
      by_cases ok : r.status = .ok
      · rw [if_neg (not_not.mpr ok), ok]
        refine ⟨fun same => ?_, nofun⟩
        rcases writtenBack_status prepared r.host r.slots r.out
          (settle r.left p .ok r.out commit).c with fine | mismatch
        · exact absurd (fine.symm.trans (congrArg SyncReturn.status same)) nofun
        · exact absurd (mismatch.symm.trans (congrArg SyncReturn.status same)) nofun
      · rw [if_pos ok]
        exact ⟨congrArg SyncReturn.status, fun same => by rw [same]⟩
  | false =>
      have left : r.left = r.c := by rw [BodyResult.left, broke]; rfl
      rw [left]
      simp only [Bool.false_eq_true, if_false]
      rw [← settle_status_ok_iff]
      by_cases ok : (settle r.c p r.status r.out commit).status = .ok
      · simp [ok]
      · simp only [if_pos ok, ok, false_or]
        exact ⟨fun same => (congrArg SyncReturn.out same).symm, fun same => by rw [same]⟩

/-! ## The machine takes both paths

The body here touches neither host memory nor, but for a break, the instance, so that
everything it does is a step of the machine.
-/

/-- The machine with one future, at address 0. -/
def alone (ground : Ground d H) (e : Entry d H) : PoolSys d H :=
  ⟨ground, Function.update (fun _ => none) 0 (some e)⟩

theorem alone_turnAt (memory : HostMemory H) (ground : Ground d H) (e : Entry d H)
    (label : Turn d H) :
    (alone ground e).turnAt memory 0 label = (turn memory e label).map (alone ground) := by
  simp only [PoolSys.turnAt, alone, Function.update_self, Option.bind_some, Function.update_idem]
  rfl

/-- The steps of the machine that a queued call takes when its body runs, leaves the
instance alone but for a break, and returns. -/
def queuedSteps (call : Call H) (begun : GeasStatus) (r : BodyResult d H) (commit : GeasStatus) :
    List (PoolAction d H) :=
  [.futureNew 0 true call, .check 0, .enqueue 0, .dequeue 0, .runTask 0 begun] ++
    (if r.broke then [.brk] else []) ++ [.finish r.status r.out commit r.slots, .wait 0]

/-- The future of a call whose body runs. -/
def runningEntry (call : Call H) (p : Fin d.npledges) (frame : Bool) (copied : List GeasValue) :
    Entry d H where
  f := ⟨some p, frame, call.refs, if call.refs = [] then none else some (slotsOf copied), .ok,
    .zero, false, false, 2⟩
  linked := true
  sync := true
  caller := .waiting
  task := .running
  returns := []
  zeros := 0

theorem run_to_body (valid : validate c (call.request .ok) = .ok p)
    (granted : call.refs ≠ [] → call.refsHeap = true)
    (prepared : prepareFrame memory host call = .ok copied)
    (gate : (txnBefore c p begun).status = .ok) :
    ∃ frame, run (poolStep memory) (idlePool c host)
        [.futureNew 0 true call, .check 0, .enqueue 0, .dequeue 0, .runTask 0 begun] =
      some (alone ⟨(txnBefore c p begun).c, host, some (0, p), [], [p]⟩
        (runningEntry call p frame copied)) := by
  obtain ⟨frame, ready⟩ := check_ready valid granted prepared (futureNew true call).f
  have opened := (validate_ok valid).1
  have made : poolStep memory (idlePool c host) (.futureNew 0 true call) =
      some (alone ⟨c, host, none, [], []⟩ (futureNew true call)) := rfl
  refine ⟨frame, run_cons.mpr ⟨_, made, ?_⟩⟩
  refine run_cons.mpr ⟨alone ⟨c, host, none, [], []⟩
    { runningEntry call p frame copied with
      f := { (runningEntry call p frame copied).f with refcnt := 1 }
      caller := .ready
      task := .outside }, ?_, ?_⟩
  · rw [poolStep, alone_turnAt]
    exact congrArg (fun checked => some (alone ⟨c, host, none, [], []⟩
      ⟨checked.1, true, true, checked.2, .outside, [], 0⟩)) ready
  refine run_cons.mpr ⟨alone ⟨c, host, none, [], []⟩
    { runningEntry call p frame copied with task := .queued }, alone_turnAt .., ?_⟩
  refine run_cons.mpr ⟨alone ⟨c, host, none, [], []⟩
    { runningEntry call p frame copied with task := .taken }, alone_turnAt .., ?_⟩
  refine run_cons.mpr ⟨_, ?_, rfl⟩
  simp [poolStep, alone, runningEntry, opened, gate, PoolSys.turnAt, turn]

/-- The body returns. -/
theorem alone_finish {e : Entry d H} (running : e.task = .running) (starts : List (Fin d.npledges))
    (status : GeasStatus) (out : GeasValue) (commit : GeasStatus) (slots : Nat → GeasValue) :
    poolStep memory (alone ⟨c, host, some (0, p), [], starts⟩ e)
        (.finish status out commit slots) =
      some (alone ⟨(settle c p status out commit).c, host, none, [], starts⟩
        { e with
          f := futureFinish { e.f with refSlots := e.f.refSlots.map fun _ => slots }
            (settle c p status out commit).status (some out)
          task := .spent }) := by
  refine (alone_turnAt memory _ e _).trans ?_
  rw [turn, if_pos running]
  rfl

/-- The call takes the outcome. -/
theorem alone_wait (ground : Ground d H) {e : Entry d H} (done : e.f.done = true)
    (waiting : e.caller = .waiting) :
    poolStep memory (alone ground e) (.wait 0) =
      some (alone { ground with host := (geasFutureWait memory ground.host e.f).2.2 }
        { e with
          f := (geasFutureWait memory ground.host e.f).2.1
          caller := .delivered
          returns := e.returns ++ [(geasFutureWait memory ground.host e.f).1] }) := by
  refine (alone_turnAt memory _ e _).trans ?_
  rw [turn, if_neg (by simp [done]), waiting]
  rfl

/-- The body returns and the call takes the outcome. -/
theorem alone_ends (memory : HostMemory H) (c : GeasContract d) (host : H) (p : Fin d.npledges)
    {e : Entry d H} (running : e.task = .running) (waiting : e.caller = .waiting)
    (starts : List (Fin d.npledges)) (status : GeasStatus) (out : GeasValue)
    (commit : GeasStatus) (slots : Nat → GeasValue) :
    ∃ t result, run (poolStep memory) (alone ⟨c, host, some (0, p), [], starts⟩ e)
        [.finish status out commit slots, .wait 0] = some t ∧
      (t.futures 0).map Entry.returns = some (e.returns ++ [result]) ∧
      deliver memory (futureFinish { e.f with refSlots := e.f.refSlots.map fun _ => slots }
          (settle c p status out commit).status (some out)) (settle c p status out commit).c host =
        ⟨result.status, result.out.getD .zero, t.c, t.host⟩ :=
  ⟨_, _, run_cons.mpr ⟨_, alone_finish running starts status out commit slots,
    run_cons.mpr ⟨_, alone_wait _ (futureFinish_done ..) waiting, rfl⟩⟩, rfl, rfl⟩

/-- The body breaks the instance. -/
theorem alone_brk {ground : Ground d H} (signed : ground.c.state ≠ .unsigned) {e : Entry d H}
    (linked : e.linked = true) :
    poolStep memory (alone ground e) .brk =
      some (alone { ground with c := breakInstance ground.c }
        { e with f := futureForfeit e.f }) := by
  have forfeited : (fun k => ((alone ground e).futures k).bind fun e => turn memory e .forfeit) =
      Function.update (fun _ => none) 0 (some { e with f := futureForfeit e.f }) := by
    funext k
    by_cases here : k = 0
    · subst here
      simp [alone, turn, linked]
    · simp [alone, here]
  rw [poolStep, if_neg (show (alone ground e).c.state ≠ .unsigned from signed), forfeited]
  rfl

theorem signed_of_valid (valid : validate c (call.request .ok) = .ok p) (begun : GeasStatus) :
    (txnBefore c p begun).c.state ≠ .unsigned := by
  rw [txnBefore_state]
  intro unsigned
  have opened := (validate_ok valid).1
  rw [unsigned] at opened
  cases opened

/-- The queued path is a run of the machine: its one wait returns what the call
returns, and the instance and host memory are the same. -/
theorem fulfillQueued_steps (valid : validate c (call.request .ok) = .ok p)
    (granted : call.refs ≠ [] → call.refsHeap = true)
    (prepared : prepareFrame memory host call = .ok copied)
    (gate : (txnBefore c p begun).status = .ok) {r : BodyResult d H}
    (body : fns p (txnBefore c p begun).c (slotsOf copied) host = r)
    (quiet : r.c = (txnBefore c p begun).c) (apart : r.host = host) (commit : GeasStatus) :
    ∃ t result, run (poolStep memory) (idlePool c host) (queuedSteps call begun r commit) = some t ∧
      (t.futures 0).map Entry.returns = some [result] ∧
      fulfillQueued memory fns c host call begun commit =
        ⟨result.status, result.out.getD .zero, t.c, t.host⟩ := by
  obtain ⟨frame, front⟩ := run_to_body valid granted prepared gate
  rw [fulfillQueued_ran valid granted prepared gate body]
  cases broke : r.broke with
  | true =>
      have left : r.left = breakInstance (txnBefore c p begun).c := by
        rw [BodyResult.left, broke, quiet]
        rfl
      obtain ⟨t, result, back, returned, same⟩ :=
        alone_ends memory (breakInstance (txnBefore c p begun).c) host p
          (e := { runningEntry call p frame copied with
            f := futureForfeit (runningEntry call p frame copied).f })
          rfl rfl [p] r.status r.out commit r.slots
      refine ⟨t, result, ?_, returned, ?_⟩
      · simp only [queuedSteps, broke, if_true]
        exact run_append.mpr ⟨_, run_append.mpr ⟨_, front, run_cons.mpr ⟨_,
          alone_brk (signed_of_valid valid begun) rfl, rfl⟩⟩, back⟩
      · rw [left, apart, ← same]
        rfl
  | false =>
      have left : r.left = (txnBefore c p begun).c := by
        rw [BodyResult.left, broke, quiet]
        rfl
      obtain ⟨t, result, back, returned, same⟩ :=
        alone_ends memory (txnBefore c p begun).c host p (e := runningEntry call p frame copied)
          rfl rfl [p] r.status r.out commit r.slots
      refine ⟨t, result, ?_, returned, ?_⟩
      · simp only [queuedSteps, broke, Bool.false_eq_true, if_false]
        exact run_append.mpr ⟨_, run_append.mpr ⟨_, front, rfl⟩, back⟩
      · have pointer :
            (if call.refs = [] then none else some (slotsOf copied)).map (fun _ => r.slots) =
              if call.refs = [] then none else some r.slots := by
          split <;> rfl
        rw [left, apart, ← same]
        exact (deliver_finished memory (f := { (runningEntry call p frame copied).f with
          refSlots := (runningEntry call p frame copied).f.refSlots.map fun _ => r.slots })
          rfl rfl pointer ..).symm

/-- The steps an inline call takes. -/
def inlineSteps (call : Call H) (begun : GeasStatus) (r : BodyResult d H) (commit : GeasStatus) :
    List (PoolAction d H) :=
  [.inline call begun] ++ (if r.broke then [.brk] else []) ++
    [.finish r.status r.out commit r.slots]

@[simp] theorem writtenBack_c (memory : HostMemory H) (host : H) (refs : List (GeasRef H))
    (slots : Nat → GeasValue) (out : GeasValue) (c : GeasContract d) :
    (writtenBack memory host refs slots out c).c = c := by
  unfold writtenBack
  split
  · rfl
  · split <;> rfl

@[simp] theorem writtenBack_host (memory : HostMemory H) (host : H) (refs : List (GeasRef H))
    (slots : Nat → GeasValue) (out : GeasValue) (c : GeasContract d) :
    (writtenBack memory host refs slots out c).host =
      if refs = [] then host else (writeBackRefs memory host refs slots).2 := by
  unfold writtenBack
  split
  · rfl
  · split <;> rfl

/-- The inline path is one as well. -/
theorem fulfillInline_steps (valid : validate c (call.request .ok) = .ok p)
    (prepared : prepareFrame memory host call = .ok copied)
    (gate : (txnBefore c p begun).status = .ok) {r : BodyResult d H}
    (body : fns p (txnBefore c p begun).c (slotsOf copied) host = r)
    (quiet : r.c = (txnBefore c p begun).c) (apart : r.host = host) (commit : GeasStatus) :
    ∃ t, run (poolStep memory) (idlePool c host) (inlineSteps call begun r commit) = some t ∧
      (fulfillInline memory fns c host call begun commit).c = t.c ∧
      (fulfillInline memory fns c host call begun commit).host = t.host := by
  have entered : poolStep memory (idlePool c host) (.inline call begun) =
      some ⟨⟨(txnBefore c p begun).c, host, none, [⟨p, call.refs⟩], [p]⟩, fun _ => none⟩ := by
    have status : frameStatus memory host call = .ok := by rw [frameStatus, prepared]
    simp [poolStep, idlePool, status, valid, gate]
  have broken : poolStep memory
      ⟨⟨(txnBefore c p begun).c, host, none, [⟨p, call.refs⟩], [p]⟩, fun _ => none⟩ .brk =
      some ⟨⟨breakInstance (txnBefore c p begun).c, host, none, [⟨p, call.refs⟩], [p]⟩,
        fun _ => none⟩ := by
    rw [poolStep, if_neg (signed_of_valid valid begun)]
    rfl
  have front : run (poolStep memory) (idlePool c host)
      ([.inline call begun] ++ if r.broke then [.brk] else []) =
        some ⟨⟨r.left, host, none, [⟨p, call.refs⟩], [p]⟩, fun _ => none⟩ := by
    unfold BodyResult.left
    cases r.broke with
    | true =>
        rw [quiet]
        exact run_cons.mpr ⟨_, entered, run_cons.mpr ⟨_, broken, rfl⟩⟩
    | false =>
        rw [quiet]
        exact run_cons.mpr ⟨_, entered, rfl⟩
  refine ⟨_, run_append.mpr ⟨_, front, rfl⟩, ?_, ?_⟩
  · rw [fulfillInline_ran valid prepared gate body]
    dsimp only
    split
    · rfl
    · exact writtenBack_c ..
  · rw [fulfillInline_ran valid prepared gate body, apart]
    dsimp only
    split
    · next failed => rw [if_neg fun settled => failed settled.1]
    · next ok =>
      rw [writtenBack_host]
      by_cases none : call.refs = []
      · rw [if_pos none, if_neg fun settled => settled.2 none]
      · rw [if_neg none, if_pos ⟨not_not.mp ok, none⟩]

end Paths

/-- A synchronous call returns the same status and `*out` inline and through the
queue, and leaves the same instance and host memory, if and only if it is turned
away before its body runs or the body is uniform. -/
theorem inline_eq_queued_iff {memory : HostMemory H} {fns : Fin d.npledges → GeasPledgeFn d H}
    {c : GeasContract d} {host : H} {call : Call H} {begun commit : GeasStatus}
    (granted : call.refs ≠ [] → call.refsHeap = true) :
    fulfillInline memory fns c host call begun commit =
        fulfillQueued memory fns c host call begun commit ↔
      ∀ p copied, validate c (call.request .ok) = .ok p →
        prepareFrame memory host call = .ok copied → (txnBefore c p begun).status = .ok →
        Uniform (fns p (txnBefore c p begun).c (slotsOf copied) host) p commit := by
  constructor
  · intro agree p copied valid prepared gate
    exact (paths_agree_of_ran_iff granted valid prepared gate rfl commit).mp agree
  · intro uniform
    by_cases reached : ∃ p copied, validate c (call.request .ok) = .ok p ∧
        prepareFrame memory host call = .ok copied ∧ (txnBefore c p begun).status = .ok
    · obtain ⟨p, copied, valid, prepared, gate⟩ := reached
      exact (paths_agree_of_ran_iff granted valid prepared gate rfl commit).mpr
        (uniform p copied valid prepared gate)
    · refine paths_agree_of_unreached granted commit fun p copied valid prepared gate => ?_
      exact reached ⟨p, copied, valid, prepared, gate⟩

/-- Bodies that leave 9 in their slots and return `Ok(())`. -/
def landing (d : GeasContractDesc) (H : Type) : Fin d.npledges → GeasPledgeFn d H :=
  fun _ c _ host => ⟨.ok, .result 0 (some (.unit 0)), c, fun _ => .int 0 9, host, false⟩

theorem inline_eq_queued_iff_count :
    let fresh := freshContract tallyDesc [] 0
    let landed := landing tallyDesc Int64
    fulfillInline wordMemory landed fresh 5 countCall .ok .ok =
        fulfillQueued wordMemory landed fresh 5 countCall .ok .ok ∧
      (fulfillQueued wordMemory landed fresh 5 countCall .ok .ok).host = 9 := by
  constructor
  · apply (inline_eq_queued_iff fun _ => rfl).mpr
    intro p copied valid prepared gate
    exact Or.inl ⟨rfl, fun refused => refused.1 rfl⟩
  · decide +kernel

/-- A call of a pledge of `ledgerDesc`. -/
def ledgerCall (name : String) : Call Int64 :=
  ⟨name, 0, false, [], false, .ok, true, fun _ => true⟩

/-- The transfer is complete and the backend refuses its commit: the inline path
leaves `*out` zeroed, the wait of the queued one copies the `Ok(())` there. -/
theorem refused_commit_splits_paths :
    let landed := landing ledgerDesc Int64
    let debited := (fulfillInline wordMemory landed (freshContract ledgerDesc [] 0) 0
      (ledgerCall "debit") .ok .ok).c
    (fulfillInline wordMemory landed debited 0 (ledgerCall "credit") .ok .errStore).out = .zero ∧
      (fulfillQueued wordMemory landed debited 0 (ledgerCall "credit") .ok .errStore).out =
        .result 0 (some (.unit 0)) ∧
      fulfillInline wordMemory landed debited 0 (ledgerCall "credit") .ok .errStore ≠
        fulfillQueued wordMemory landed debited 0 (ledgerCall "credit") .ok .errStore := by
  refine ⟨rfl, rfl, fun same => ?_⟩
  have out : GeasValue.zero = .result 0 (some (.unit 0)) := congrArg SyncReturn.out same
  cases out

end Geas.Runtime.Pool
