import Geas.Runtime.Refs

/-!
# One future

A future passes through four hands: the call that makes it, the pool that runs
it, the break that forfeits it and the waits that deliver it.  `turn` takes every
critical section of the four as one step, with what it reads of the instance and
of host memory in its labels.

A future that nothing holds any more is not removed, so that a turn taken at it
would be seen.  `returns` and `zeros` record what the waits on a future returned
and how often its count reached zero.
-/

namespace Geas.Runtime.Pool

open Geas.Abi

/-- The shared part of a future.  `frame` tells whether the pointer to the argument
frame is set, `refSlots` is the pointer to its trailing slots with what they hold. -/
structure GeasFuture (d : GeasContractDesc) (H : Type) where
  pidx : Option (Fin d.npledges)
  frame : Bool
  refs : List (GeasRef H)
  refSlots : Option (Nat → GeasValue)
  status : GeasStatus
  value : GeasValue
  done : Bool
  waited : Bool
  refcnt : Nat

/-- Where `geas_pledge_fulfill`, and behind it the receipt, stands. -/
inductive Caller (H : Type) where
  | building (call : Call H)
  | ready
  | refused (status : GeasStatus)
  /-- The host has the receipt. -/
  | handed
  /-- `geas_pledge_fulfill_sync` waits for the outcome, took it, unlinked the future,
  and dropped its hold. -/
  | waiting | delivered | unlinked | gone

/-- Where the pool stands. -/
inductive Task where
  | outside | queued | taken | running | spent | gone
  deriving DecidableEq

/-- What a wait returns, and what it puts in `*out`, if anything. -/
structure WaitReturn where
  status : GeasStatus
  out : Option GeasValue

/-- A future with its place in the instance's list and in the hands of the parties. -/
structure Entry (d : GeasContractDesc) (H : Type) where
  f : GeasFuture d H
  linked : Bool
  sync : Bool
  caller : Caller H
  task : Task
  returns : List WaitReturn
  zeros : Nat

variable {d : GeasContractDesc} {H : Type}

/-- `future_new`. -/
def futureNew (sync : Bool) (call : Call H) : Entry d H where
  f := ⟨none, false, [], none, .ok, .zero, false, false, 1⟩
  linked := true
  sync := sync
  caller := .building call
  task := .outside
  returns := []
  zeros := 0

/-- `future_unref`. -/
def futureUnref (e : Entry d H) : Entry d H :=
  { e with
    f := { e.f with refcnt := e.f.refcnt - 1 }
    zeros := if e.f.refcnt - 1 = 0 then e.zeros + 1 else e.zeros }

/-- `future_finish`. -/
def futureFinish (f : GeasFuture d H) (status : GeasStatus) (value : Option GeasValue) :
    GeasFuture d H :=
  if f.done then f else { f with status := status, value := value.getD f.value, done := true }

/-- `future_forfeit`. -/
def futureForfeit (f : GeasFuture d H) : GeasFuture d H :=
  if f.waited then f
  else { f with
    status := .errState
    value := .zero
    frame := false
    refs := []
    refSlots := none
    done := true }

/-- The validation of `geas_pledge_fulfill`: what it puts into the future, and what
the call goes on with. -/
def check (memory : HostMemory H) (c : GeasContract d) (host : H) (f : GeasFuture d H)
    (call : Call H) : GeasFuture d H × Caller H :=
  match validate c (call.request .ok) with
  | .error status => (f, .refused status)
  | .ok p =>
      if call.refs ≠ [] ∧ call.refsHeap = false then (f, .refused .errOom)
      else
        match prepareFrame memory host call with
        | .error status => ({ f with refs := call.refs }, .refused status)
        | .ok copied =>
            ({ f with
                pidx := some p
                frame := call.nargs + call.refs.length ≠ 0
                refs := call.refs
                refSlots := if call.refs = [] then none else some (slotsOf copied) }, .ready)

/-- `geas_future_wait` on a future that is done. -/
def geasFutureWait (memory : HostMemory H) (host : H) (f : GeasFuture d H) :
    WaitReturn × GeasFuture d H × H :=
  if f.waited then (⟨.errState, none⟩, f, host)
  else
    let after := { f with waited := true }
    match f.refSlots with
    | none => (⟨f.status, some f.value⟩, after, host)
    | some slots =>
        if f.status ≠ .ok ∨ f.refs = [] then (⟨f.status, some f.value⟩, after, host)
        else
          let (wb, host') := writeBackRefs memory host f.refs slots
          if wb ≠ .ok then (⟨wb, none⟩, after, host')
          else (⟨f.status, some f.value⟩, after, host')

/-- The receipt goes to the host, or `geas_pledge_fulfill_sync` waits for it. -/
def Entry.hand (e : Entry d H) : Caller H := if e.sync then .waiting else .handed

/-- One party's turn at a future. -/
inductive Turn (d : GeasContractDesc) (H : Type) where
  /-- The call validates and copies in. -/
  | check (c : GeasContract d) (host : H)
  /-- A refused call publishes its refusal and returns. -/
  | reject
  /-- A ready one takes the pool's hold and goes into the queue. -/
  | enqueue
  /-- A worker takes the future out of the queue. -/
  | dequeue
  /-- `run_task` turns the call away. -/
  | refuse (status : GeasStatus)
  /-- `run_task` starts the thunk. -/
  | start
  /-- The thunk returned and the outcome is settled. -/
  | finish (status : GeasStatus) (out : GeasValue) (slots : Nat → GeasValue)
  /-- The pool's hold ends. -/
  | unref
  | forfeit
  | wait (host : H)
  /-- The two sections of `future_release`. -/
  | unlink
  | drop

/-- The machine of one future. -/
def turn (memory : HostMemory H) (e : Entry d H) : Turn d H → Option (Entry d H)
  | .check c host =>
      match e.caller with
      | .building call =>
          let checked := Pool.check memory c host e.f call
          some { e with f := checked.1, caller := checked.2 }
      | _ => none
  | .reject =>
      match e.caller with
      | .refused status => some { e with f := futureFinish e.f status none, caller := e.hand }
      | _ => none
  | .enqueue =>
      match e.caller with
      | .ready => some { e with f := { e.f with refcnt := 2 }, caller := e.hand, task := .queued }
      | _ => none
  | .dequeue => if e.task = .queued then some { e with task := .taken } else none
  | .refuse status =>
      if e.task = .taken then some { e with f := futureFinish e.f status none, task := .spent }
      else none
  | .start => if e.task = .taken then some { e with task := .running } else none
  | .finish status out slots =>
      if e.task = .running then
        let f := { e.f with refSlots := e.f.refSlots.map fun _ => slots }
        some { e with f := futureFinish f status (some out), task := .spent }
      else none
  | .unref => if e.task = .spent then some { futureUnref e with task := .gone } else none
  | .forfeit => some (if e.linked then { e with f := futureForfeit e.f } else e)
  | .wait host =>
      if e.f.done = false then none
      else
        let (result, f, _) := geasFutureWait memory host e.f
        match e.caller with
        | .handed => some { e with f := f, returns := e.returns ++ [result] }
        | .waiting => some { e with f := f, caller := .delivered, returns := e.returns ++ [result] }
        | _ => none
  | .unlink =>
      match e.caller with
      | .delivered => some { e with linked := false, caller := .unlinked }
      | _ => none
  | .drop =>
      match e.caller with
      | .unlinked => some { futureUnref e with caller := .gone }
      | _ => none

/-! ## What the operations leave alone -/

section Frame

variable (f : GeasFuture d H) (status : GeasStatus) (value : Option GeasValue)

theorem futureFinish_of_done (done : f.done = true) : futureFinish f status value = f := by
  rw [futureFinish, if_pos done]

@[simp] theorem futureFinish_done : (futureFinish f status value).done = true := by
  unfold futureFinish
  split
  · assumption
  · rfl

@[simp] theorem futureFinish_waited : (futureFinish f status value).waited = f.waited := by
  unfold futureFinish
  split <;> rfl

@[simp] theorem futureFinish_refcnt : (futureFinish f status value).refcnt = f.refcnt := by
  unfold futureFinish
  split <;> rfl

@[simp] theorem futureFinish_pidx : (futureFinish f status value).pidx = f.pidx := by
  unfold futureFinish
  split <;> rfl

@[simp] theorem futureFinish_refs : (futureFinish f status value).refs = f.refs := by
  unfold futureFinish
  split <;> rfl

@[simp] theorem futureFinish_refSlots : (futureFinish f status value).refSlots = f.refSlots := by
  unfold futureFinish
  split <;> rfl

theorem futureForfeit_of_waited (waited : f.waited = true) : futureForfeit f = f := by
  rw [futureForfeit, if_pos waited]

@[simp] theorem futureForfeit_waited : (futureForfeit f).waited = f.waited := by
  unfold futureForfeit
  split <;> rfl

@[simp] theorem futureForfeit_refcnt : (futureForfeit f).refcnt = f.refcnt := by
  unfold futureForfeit
  split <;> rfl

@[simp] theorem futureForfeit_pidx : (futureForfeit f).pidx = f.pidx := by
  unfold futureForfeit
  split <;> rfl

end Frame

/-- A wait marks the future and touches nothing else of it. -/
theorem geasFutureWait_future (memory : HostMemory H) (host : H) (f : GeasFuture d H) :
    (geasFutureWait memory host f).2.1 = { f with waited := true } := by
  unfold geasFutureWait
  split
  · next waited =>
    cases f
    cases waited
    rfl
  · dsimp only
    split
    · rfl
    · split
      · rfl
      · split <;> rfl

/-! ## One future -/

/-- The receipt's hold, which the instance's list shares. -/
def Caller.hold : Caller H → Nat
  | .gone => 0
  | _ => 1

/-- The pool's hold. -/
def Task.hold : Task → Nat
  | .outside | .gone => 0
  | .queued | .taken | .running | .spent => 1

/-- `geas_pledge_fulfill` has not returned yet. -/
def Caller.early : Caller H → Bool
  | .building _ | .ready | .refused _ => true
  | _ => false

/-- The instance's list still has the future. -/
def Caller.listed : Caller H → Bool
  | .unlinked | .gone => false
  | _ => true

/-- `geas_pledge_fulfill_sync` has not taken the outcome yet. -/
def Caller.undelivered : Caller H → Bool
  | .delivered | .unlinked | .gone => false
  | _ => true

/-- The pool still owes an outcome. -/
def Task.working : Task → Bool
  | .queued | .taken | .running => true
  | .outside | .spent | .gone => false

/-- What the waits on a future returned: nothing before the first; then its outcome,
or a type error when the slots could not be written back, and `GEAS_ERR_STATE`
from there on. -/
def Delivered (e : Entry d H) : Prop :=
  (e.f.waited = false ∧ e.returns = []) ∨
    e.f.waited = true ∧ e.f.done = true ∧ ∃ first rest, e.returns = first :: rest ∧
      (first = ⟨e.f.status, some e.f.value⟩ ∨ e.f.status = .ok ∧ first = ⟨.errType, none⟩) ∧
      ∀ result ∈ rest, result = ⟨.errState, none⟩

/-- The invariant of a future. -/
structure EntryInvariant (e : Entry d H) : Prop where
  refcnt : e.f.refcnt = e.caller.hold + e.task.hold
  zeros : e.zeros = if e.f.refcnt = 0 then 1 else 0
  linked : e.linked = e.caller.listed
  early : e.caller.early = true → e.task = .outside ∧ e.f.waited = false
  pending : e.f.done = false → e.caller.early = true ∨ e.task.working = true
  taken : e.f.waited = false → e.caller.undelivered = true
  fresh : ∀ call, e.caller = .building call → e.f.refSlots = none
  delivered : Delivered e
  writable : ∀ slots, e.f.refSlots = some slots → ∀ r ∈ e.f.refs, Writable r
  named : e.caller = .ready ∨ e.task.working = true → e.f.pidx.isSome = true

theorem futureNew_invariant (sync : Bool) (call : Call H) :
    EntryInvariant (futureNew (d := d) sync call) where
  refcnt := rfl
  zeros := rfl
  linked := rfl
  early _ := ⟨rfl, rfl⟩
  pending _ := Or.inl rfl
  taken _ := rfl
  fresh _ _ := rfl
  delivered := Or.inl ⟨rfl, rfl⟩
  writable := nofun
  named := by
    rintro (ready | working)
    · cases ready
    · cases working

/-- What the validation leaves: a refusal, with the references copied or not, or a
call that is ready. -/
theorem check_cases (memory : HostMemory H) (c : GeasContract d) (host : H) (f : GeasFuture d H)
    (call : Call H) :
    (∃ status refs, check memory c host f call = ({ f with refs := refs }, .refused status)) ∨
      ∃ p frame slots, validate c (call.request .ok) = .ok p ∧
        (∀ r ∈ call.refs, Writable r) ∧ check memory c host f call =
          ({ f with pidx := some p, frame := frame, refs := call.refs, refSlots := slots },
            .ready) := by
  unfold check
  split
  · next status _ => exact Or.inl ⟨status, f.refs, rfl⟩
  · next p valid =>
    split
    · exact Or.inl ⟨_, f.refs, rfl⟩
    · split
      · next status _ => exact Or.inl ⟨status, call.refs, rfl⟩
      · next copied prepared =>
        exact Or.inr ⟨p, _, _, valid, writable_of_prepareFrame prepared, rfl⟩

/-- What a first wait returns. -/
theorem geasFutureWait_first (memory : HostMemory H) (host : H) {f : GeasFuture d H}
    (unwaited : f.waited = false)
    (writable : ∀ slots, f.refSlots = some slots → ∀ r ∈ f.refs, Writable r) :
    (geasFutureWait memory host f).1 = ⟨f.status, some f.value⟩ ∨
      f.status = .ok ∧ (geasFutureWait memory host f).1 = ⟨.errType, none⟩ := by
  unfold geasFutureWait
  rw [if_neg (by simp [unwaited])]
  dsimp only
  split
  · exact Or.inl rfl
  · next slots present =>
    split
    · exact Or.inl rfl
    · next able =>
      have ok : f.status = .ok := not_not.mp (not_or.mp able).1
      rcases writeBackRefs_all_or_none memory host slots (writable slots present) with none | all
      · rw [none]
        exact Or.inr ⟨ok, rfl⟩
      · rw [all]
        exact Or.inl rfl

theorem geasFutureWait_again (memory : HostMemory H) (host : H) {f : GeasFuture d H}
    (waited : f.waited = true) :
    (geasFutureWait memory host f).1 = ⟨.errState, none⟩ := by
  rw [geasFutureWait, if_pos waited]

/-- What a wait writes: nothing, or, with `GEAS_OK` on the first one, every slot. -/
theorem geasFutureWait_host (memory : HostMemory H) (host : H) {f : GeasFuture d H}
    (writable : ∀ slots, f.refSlots = some slots → ∀ r ∈ f.refs, Writable r) :
    (geasFutureWait memory host f).2.2 = host ∨
      f.waited = false ∧ f.status = .ok ∧ (geasFutureWait memory host f).1 = ⟨.ok, some f.value⟩ ∧
        ∃ slots, f.refSlots = some slots ∧
          (geasFutureWait memory host f).2.2 = written memory host (slotted f.refs slots) := by
  unfold geasFutureWait
  split
  · exact Or.inl rfl
  · next unwaited =>
    dsimp only
    split
    · exact Or.inl rfl
    · next slots present =>
      split
      · exact Or.inl rfl
      · next able =>
        have ok : f.status = .ok := not_not.mp (not_or.mp able).1
        rcases writeBackRefs_all_or_none memory host slots (writable slots present) with none | all
        · rw [none]
          exact Or.inl rfl
        · rw [all]
          refine Or.inr ⟨by simpa using unwaited, ok, ?_, slots, present, rfl⟩
          rw [if_neg (by simp), ok]

theorem delivered_of_unwaited {e : Entry d H} (holds : Delivered e)
    (unwaited : e.f.waited = false) : e.returns = [] := by
  rcases holds with ⟨-, none⟩ | ⟨waited, -⟩
  · exact none
  · exact absurd (unwaited.symm.trans waited) Bool.false_ne_true

/-- Delivery looks at the outcome, the mark and the returns only. -/
theorem Delivered.congr {e e' : Entry d H} (holds : Delivered e)
    (waited : e'.f.waited = e.f.waited) (returns : e'.returns = e.returns)
    (outcome : e.f.waited = true → e'.f.done = e.f.done ∧ e'.f.status = e.f.status ∧
      e'.f.value = e.f.value) : Delivered e' := by
  rcases holds with ⟨unwaited, none⟩ | ⟨marked, done, first, rest, all, head, tail⟩
  · exact Or.inl ⟨waited.trans unwaited, returns.trans none⟩
  · obtain ⟨done', status, value⟩ := outcome marked
    refine Or.inr ⟨waited.trans marked, done'.trans done, first, rest, returns.trans all, ?_, tail⟩
    rw [status, value]
    exact head

/-- The wait puts its return behind the others. -/
theorem Delivered.wait (memory : HostMemory H) (host : H) {e e' : Entry d H} (holds : Delivered e)
    (writable : ∀ slots, e.f.refSlots = some slots → ∀ r ∈ e.f.refs, Writable r)
    (done : e.f.done = true) (f : e'.f = { e.f with waited := true })
    (returns : e'.returns = e.returns ++ [(geasFutureWait memory host e.f).1]) : Delivered e' := by
  rcases holds with ⟨unwaited, none⟩ | ⟨marked, _, first, rest, all, head, tail⟩
  · refine Or.inr ⟨by rw [f], by rw [f]; exact done, (geasFutureWait memory host e.f).1, [], ?_,
      ?_, nofun⟩
    · rw [returns, none, List.nil_append]
    · rw [f]
      exact geasFutureWait_first memory host unwaited writable
  · refine Or.inr ⟨by rw [f], by rw [f]; exact done, first,
      rest ++ [(geasFutureWait memory host e.f).1], ?_, ?_, ?_⟩
    · rw [returns, all, List.cons_append]
    · rw [f]
      exact head
    · intro result membership
      rcases List.mem_append.mp membership with earlier | here
      · exact tail result earlier
      · rw [List.mem_singleton.mp here]
        exact geasFutureWait_again memory host marked

section Hand

variable (e : Entry d H)

@[simp] theorem hand_hold : e.hand.hold = 1 := by
  unfold Entry.hand
  split <;> rfl

@[simp] theorem hand_early : e.hand.early = false := by
  unfold Entry.hand
  split <;> rfl

@[simp] theorem hand_listed : e.hand.listed = true := by
  unfold Entry.hand
  split <;> rfl

@[simp] theorem hand_undelivered : e.hand.undelivered = true := by
  unfold Entry.hand
  split <;> rfl

theorem hand_ne_building (call : Call H) : e.hand ≠ .building call := by
  unfold Entry.hand
  split <;> nofun

theorem hand_ne_ready : e.hand ≠ .ready := by
  unfold Entry.hand
  split <;> nofun

end Hand

section Turns

variable {e e' : Entry d H} {memory : HostMemory H}

theorem EntryInvariant.linked_of_unwaited (holds : EntryInvariant e)
    (unwaited : e.f.waited = false) : e.linked = true := by
  have undelivered := holds.taken unwaited
  rw [holds.linked]
  cases caller : e.caller <;> simp_all [Caller.undelivered, Caller.listed]

/-- While the call is being made the pool does not know the future. -/
theorem EntryInvariant.outside (holds : EntryInvariant e) (early : e.caller.early = true) :
    e.task = .outside ∧ e.f.waited = false ∧ e.f.refcnt = e.caller.hold ∧ e.returns = [] := by
  obtain ⟨outside, unwaited⟩ := holds.early early
  refine ⟨outside, unwaited, ?_, delivered_of_unwaited holds.delivered unwaited⟩
  rw [holds.refcnt, outside]
  rfl

/-- The call goes on with the future while it is alone with it. -/
theorem early_invariant (holds : EntryInvariant e) (early : e.caller.early = true)
    {f : GeasFuture d H} {caller : Caller H} (still : caller.early = true)
    (refcnt : f.refcnt = e.f.refcnt) (waited : f.waited = e.f.waited)
    (validated : ∀ call, caller ≠ .building call)
    (writable : ∀ slots, f.refSlots = some slots → ∀ r ∈ f.refs, Writable r)
    (named : caller = .ready → f.pidx.isSome = true) :
    EntryInvariant { e with f := f, caller := caller } := by
  obtain ⟨outside, unwaited, -, none⟩ := holds.outside early
  have hold : caller.hold = e.caller.hold := by
    cases before : e.caller <;> cases after : caller <;> simp_all [Caller.early, Caller.hold]
  have listed : caller.listed = e.caller.listed := by
    cases before : e.caller <;> cases after : caller <;> simp_all [Caller.early, Caller.listed]
  have undelivered : caller.undelivered = true := by
    cases after : caller <;> simp_all [Caller.early, Caller.undelivered]
  exact {
    refcnt := by rw [refcnt, hold]; exact holds.refcnt
    zeros := by rw [refcnt]; exact holds.zeros
    linked := by rw [listed]; exact holds.linked
    early := fun _ => ⟨outside, waited.trans unwaited⟩
    pending := fun _ => Or.inl still
    taken := fun _ => undelivered
    fresh := fun call building => absurd building (validated call)
    delivered := Or.inl ⟨waited.trans unwaited, none⟩
    writable := writable
    named := by
      rintro (ready | working)
      · exact named ready
      · rw [outside] at working
        cases working }

theorem check_invariant {c : GeasContract d} {host : H} (holds : EntryInvariant e)
    (turned : turn memory e (.check c host) = some e') : EntryInvariant e' := by
  simp only [turn] at turned
  split at turned
  · next call building =>
    have early : e.caller.early = true := by rw [building]; rfl
    have unset := holds.fresh call building
    rcases check_cases memory c host e.f call with ⟨status, refs, checked⟩ |
      ⟨p, frame, slots, -, writable, checked⟩
    · rw [checked] at turned
      cases turned
      refine early_invariant holds early rfl rfl rfl nofun ?_ nofun
      exact fun slots present => absurd (unset.symm.trans present) nofun
    · rw [checked] at turned
      cases turned
      exact early_invariant holds early rfl rfl rfl nofun (fun _ _ => writable) fun _ => rfl
  · cases turned

theorem reject_invariant (holds : EntryInvariant e) (turned : turn memory e .reject = some e') :
    EntryInvariant e' := by
  simp only [turn] at turned
  split at turned
  · next status refused =>
    have early : e.caller.early = true := by rw [refused]; rfl
    obtain ⟨outside, unwaited, refcnt, none⟩ := holds.outside early
    cases turned
    exact {
      refcnt := by
        rw [futureFinish_refcnt, refcnt, refused, hand_hold, outside]
        rfl
      zeros := by simpa using holds.zeros
      linked := by rw [hand_listed, holds.linked, refused]; rfl
      early := fun early => by simp at early
      pending := fun pending => by simp at pending
      taken := fun _ => hand_undelivered e
      fresh := fun call building => absurd building (hand_ne_building e call)
      delivered := Or.inl ⟨by simpa using unwaited, none⟩
      writable := by simpa using holds.writable
      named := by
        rintro (ready | working)
        · exact absurd ready (hand_ne_ready e)
        · rw [outside] at working
          cases working }
  · cases turned

theorem enqueue_invariant (holds : EntryInvariant e) (turned : turn memory e .enqueue = some e') :
    EntryInvariant e' := by
  simp only [turn] at turned
  split at turned
  · next ready =>
    have early : e.caller.early = true := by rw [ready]; rfl
    obtain ⟨-, unwaited, refcnt, none⟩ := holds.outside early
    cases turned
    exact {
      refcnt := by rw [hand_hold]; rfl
      zeros := by simpa [refcnt, ready, Caller.hold] using holds.zeros
      linked := by rw [hand_listed, holds.linked, ready]; rfl
      early := fun early => by simp at early
      pending := fun _ => Or.inr rfl
      taken := fun _ => hand_undelivered e
      fresh := fun call building => absurd building (hand_ne_building e call)
      delivered := Or.inl ⟨unwaited, none⟩
      writable := holds.writable
      named := fun _ => holds.named (Or.inl ready) }
  · cases turned

/-- The pool passes a future on without publishing. -/
theorem pass_invariant (holds : EntryInvariant e) {task : Task} (working : e.task.working = true)
    (still : task.working = true) : EntryInvariant { e with task := task } := by
  have hold : e.task.hold = task.hold := by
    cases before : e.task <;> cases after : task <;> simp_all [Task.working, Task.hold]
  exact {
    refcnt := by rw [← hold]; exact holds.refcnt
    zeros := holds.zeros
    linked := holds.linked
    early := fun early => by simp [(holds.early early).1, Task.working] at working
    pending := fun _ => Or.inr still
    taken := holds.taken
    fresh := holds.fresh
    delivered := holds.delivered.congr rfl rfl fun _ => ⟨rfl, rfl, rfl⟩
    writable := holds.writable
    named := fun _ => holds.named (Or.inr working) }

/-- The pool publishes. -/
theorem publish_invariant (holds : EntryInvariant e) (working : e.task.working = true)
    {refSlots : Option (Nat → GeasValue)}
    (slots : refSlots.isSome = true → e.f.refSlots.isSome = true) (status : GeasStatus)
    (value : Option GeasValue) :
    EntryInvariant { e with
      f := futureFinish { e.f with refSlots := refSlots } status value
      task := .spent } := by
  have hold : e.task.hold = 1 := by
    cases task : e.task <;> simp_all [Task.working, Task.hold]
  exact {
    refcnt := by
      rw [futureFinish_refcnt]
      exact holds.refcnt.trans (by rw [hold]; rfl)
    zeros := by simpa using holds.zeros
    linked := holds.linked
    early := fun early => by simp [(holds.early early).1, Task.working] at working
    pending := fun pending => by simp at pending
    taken := by simpa using holds.taken
    fresh := fun call building => by
      have early : e.caller.early = true := by rw [show e.caller = .building call from building]; rfl
      simp [(holds.early early).1, Task.working] at working
    delivered := by
      refine holds.delivered.congr (by simp) rfl fun waited => ?_
      rcases holds.delivered with ⟨unwaited, -⟩ | ⟨-, done, -⟩
      · exact absurd (unwaited.symm.trans waited) Bool.false_ne_true
      · have same := futureFinish_of_done { e.f with refSlots := refSlots } status value done
        dsimp only at same ⊢
        rw [same]
        exact ⟨rfl, rfl, rfl⟩
    writable := fun found present => by
      simp only [futureFinish_refSlots, futureFinish_refs] at present ⊢
      obtain ⟨before, set⟩ := Option.isSome_iff_exists.mp (slots (by rw [present]; rfl))
      exact holds.writable before set
    named := fun _ => by simpa using holds.named (Or.inr working) }

/-- A hold ends: the receipt's when the future is unlinked, or the pool's when its
task is spent. -/
theorem futureUnref_counts (holds : EntryInvariant e) (caller : Caller H) (task : Task)
    (ends : e.caller.hold + e.task.hold = caller.hold + task.hold + 1) :
    (futureUnref e).f.refcnt = caller.hold + task.hold ∧
      (futureUnref e).zeros = if (futureUnref e).f.refcnt = 0 then 1 else 0 := by
  have refcnt := holds.refcnt
  have zeros := holds.zeros
  rw [if_neg (by omega)] at zeros
  unfold futureUnref
  refine ⟨by dsimp only; omega, ?_⟩
  dsimp only
  rw [zeros]

theorem unref_invariant (holds : EntryInvariant e) (turned : turn memory e .unref = some e') :
    EntryInvariant e' := by
  simp only [turn] at turned
  split at turned
  · next spent =>
    obtain ⟨refcnt, zeros⟩ := futureUnref_counts holds e.caller .gone (by rw [spent]; rfl)
    cases turned
    exact {
      refcnt := refcnt
      zeros := zeros
      linked := holds.linked
      early := fun early => absurd (spent.symm.trans (holds.early early).1) (by decide)
      pending := fun pending => (holds.pending pending).imp_right fun working => by
        rw [spent] at working
        cases working
      taken := holds.taken
      fresh := holds.fresh
      delivered := holds.delivered.congr rfl rfl fun _ => ⟨rfl, rfl, rfl⟩
      writable := holds.writable
      named := by
        rintro (ready | working)
        · exact holds.named (Or.inl ready)
        · cases working }
  · cases turned

theorem forfeit_invariant (holds : EntryInvariant e)
    (turned : turn memory e .forfeit = some e') : EntryInvariant e' := by
  cases turned
  split
  · exact {
      refcnt := by rw [futureForfeit_refcnt]; exact holds.refcnt
      zeros := by rw [futureForfeit_refcnt]; exact holds.zeros
      linked := holds.linked
      early := by rw [futureForfeit_waited]; exact holds.early
      pending := fun pending => by
        dsimp only at pending
        unfold futureForfeit at pending
        split at pending
        · exact holds.pending pending
        · cases pending
      taken := by rw [futureForfeit_waited]; exact holds.taken
      fresh := fun call building => by
        dsimp only
        unfold futureForfeit
        split
        · exact holds.fresh call building
        · rfl
      delivered := by
        refine holds.delivered.congr (futureForfeit_waited _) rfl fun waited => ?_
        dsimp only
        rw [futureForfeit_of_waited _ waited]
        exact ⟨rfl, rfl, rfl⟩
      writable := by
        dsimp only
        unfold futureForfeit
        split
        · exact holds.writable
        · nofun
      named := by rw [futureForfeit_pidx]; exact holds.named }
  · exact holds

theorem wait_invariant {host : H} (holds : EntryInvariant e)
    (turned : turn memory e (.wait host) = some e') : EntryInvariant e' := by
  have marked := geasFutureWait_future memory host e.f
  simp only [turn] at turned
  split at turned
  · cases turned
  · next finished =>
    have done : e.f.done = true := by simpa using finished
    rw [marked] at turned
    split at turned
    · next handed =>
      cases turned
      exact {
        refcnt := holds.refcnt
        zeros := holds.zeros
        linked := holds.linked
        early := fun early => by rw [handed] at early; cases early
        pending := fun pending => absurd (done.symm.trans pending) (by decide)
        taken := nofun
        fresh := fun call building => by rw [handed] at building; cases building
        delivered := holds.delivered.wait memory host holds.writable done rfl rfl
        writable := holds.writable
        named := holds.named }
    · next waiting =>
      cases turned
      exact {
        refcnt := by rw [holds.refcnt, waiting]; rfl
        zeros := holds.zeros
        linked := by rw [holds.linked, waiting]; rfl
        early := nofun
        pending := fun pending => absurd (done.symm.trans pending) (by decide)
        taken := nofun
        fresh := nofun
        delivered := holds.delivered.wait memory host holds.writable done rfl rfl
        writable := holds.writable
        named := by
          rintro (ready | working)
          · cases ready
          · exact holds.named (Or.inr working) }
    · cases turned

theorem unlink_invariant (holds : EntryInvariant e) (turned : turn memory e .unlink = some e') :
    EntryInvariant e' := by
  simp only [turn] at turned
  split at turned
  · next delivered =>
    cases turned
    exact {
      refcnt := by rw [holds.refcnt, delivered]; rfl
      zeros := holds.zeros
      linked := rfl
      early := nofun
      pending := fun pending => (holds.pending pending).imp_left fun early => by
        rw [delivered] at early
        cases early
      taken := fun unwaited => by
        have undelivered := holds.taken unwaited
        rw [delivered] at undelivered
        cases undelivered
      fresh := nofun
      delivered := holds.delivered.congr rfl rfl fun _ => ⟨rfl, rfl, rfl⟩
      writable := holds.writable
      named := by
        rintro (ready | working)
        · cases ready
        · exact holds.named (Or.inr working) }
  · cases turned

theorem drop_invariant (holds : EntryInvariant e) (turned : turn memory e .drop = some e') :
    EntryInvariant e' := by
  simp only [turn] at turned
  split at turned
  · next unlinked =>
    obtain ⟨refcnt, zeros⟩ := futureUnref_counts holds .gone e.task
      (by rw [unlinked]; simp [Caller.hold, Nat.add_comm])
    cases turned
    exact {
      refcnt := refcnt
      zeros := zeros
      linked := by
        have linked := holds.linked
        rw [unlinked] at linked
        exact linked
      early := nofun
      pending := fun pending => (holds.pending pending).imp_left fun early => by
        rw [unlinked] at early
        cases early
      taken := fun unwaited => by
        have undelivered := holds.taken unwaited
        rw [unlinked] at undelivered
        cases undelivered
      fresh := nofun
      delivered := holds.delivered.congr rfl rfl fun _ => ⟨rfl, rfl, rfl⟩
      writable := holds.writable
      named := by
        rintro (ready | working)
        · cases ready
        · exact holds.named (Or.inr working) }
  · cases turned

/-- Every turn keeps the invariant of a future. -/
theorem turn_invariant {label : Turn d H} (holds : EntryInvariant e)
    (turned : turn memory e label = some e') : EntryInvariant e' := by
  cases label with
  | check c host => exact check_invariant holds turned
  | reject => exact reject_invariant holds turned
  | enqueue => exact enqueue_invariant holds turned
  | dequeue =>
      simp only [turn] at turned
      split at turned
      · next queued =>
        cases turned
        exact pass_invariant holds (by rw [queued]; rfl) rfl
      · cases turned
  | refuse status =>
      simp only [turn] at turned
      split at turned
      · next taken =>
        cases turned
        exact publish_invariant holds (by rw [taken]; rfl) id status none
      · cases turned
  | start =>
      simp only [turn] at turned
      split at turned
      · next taken =>
        cases turned
        exact pass_invariant holds (by rw [taken]; rfl) rfl
      · cases turned
  | finish status out slots =>
      simp only [turn] at turned
      split at turned
      · next running =>
        cases turned
        refine publish_invariant holds (by rw [running]; rfl) ?_ status (some out)
        rw [Option.isSome_map]
        exact id
      · cases turned
  | unref => exact unref_invariant holds turned
  | forfeit => exact forfeit_invariant holds turned
  | wait host => exact wait_invariant holds turned
  | unlink => exact unlink_invariant holds turned
  | drop => exact drop_invariant holds turned

end Turns

/-! ## From one state of a future to a later one -/

/-- What a later state of a future owes an earlier one: an outcome stays, but for an
unwaited one that a break forfeits. -/
structure Evolves (e e' : Entry d H) : Prop where
  done : e.f.done = true → e'.f.done = true
  waited : e.f.waited = true → e'.f.waited = true
  outcome : e.f.done = true → (e'.f.status = e.f.status ∧ e'.f.value = e.f.value) ∨
    e.f.waited = false ∧ e'.f.status = .errState ∧ e'.f.value = .zero

theorem Evolves.refl (e : Entry d H) : Evolves e e :=
  ⟨id, id, fun _ => Or.inl ⟨rfl, rfl⟩⟩

theorem Evolves.trans {e e' e'' : Entry d H} (first : Evolves e e') (second : Evolves e' e'') :
    Evolves e e'' := by
  refine ⟨second.done ∘ first.done, second.waited ∘ first.waited, fun done => ?_⟩
  rcases second.outcome (first.done done) with ⟨status, value⟩ | ⟨unwaited, status, value⟩
  · rw [status, value]
    exact first.outcome done
  · refine Or.inr ⟨?_, status, value⟩
    by_contra waited
    exact Bool.false_ne_true (unwaited.symm.trans (first.waited (by simpa using waited)))

/-- The future keeps its outcome. -/
theorem Evolves.of_kept {e e' : Entry d H} (done : e'.f.done = e.f.done)
    (waited : e.f.waited = true → e'.f.waited = true) (status : e'.f.status = e.f.status)
    (value : e'.f.value = e.f.value) : Evolves e e' :=
  ⟨done.trans, waited, fun _ => Or.inl ⟨status, value⟩⟩

/-- A forfeited future: done, with `GEAS_ERR_STATE`, and with no pointer into the
instance's heap. -/
structure Forfeited (f : GeasFuture d H) : Prop where
  done : f.done = true
  status : f.status = .errState
  value : f.value = .zero
  frame : f.frame = false
  refs : f.refs = []
  refSlots : f.refSlots = none

theorem futureForfeit_forfeited {f : GeasFuture d H} (unwaited : f.waited = false) :
    Forfeited (futureForfeit f) := by
  rw [futureForfeit, if_neg (by simp [unwaited])]
  exact ⟨rfl, rfl, rfl, rfl, rfl, rfl⟩

theorem wait_returns {memory : HostMemory H} {e e' : Entry d H} {host : H}
    (turned : turn memory e (.wait host) = some e') :
    e'.returns = e.returns ++ [(geasFutureWait memory host e.f).1] := by
  simp only [turn] at turned
  split at turned
  · cases turned
  · split at turned
    · cases turned
      rfl
    · cases turned
      rfl
    · cases turned

/-- Everything a turn does to the shared part of a future: bookkeeping, what the
validation puts in, one publication, or a forfeit. -/
theorem turn_future {memory : HostMemory H} {e e' : Entry d H} {label : Turn d H}
    (turned : turn memory e label = some e') :
    (∃ refcnt waited, (e.f.waited = true → waited = true) ∧
      e'.f = { e.f with refcnt := refcnt, waited := waited }) ∨
    (∃ c host call, label = .check c host ∧ e'.f = (check memory c host e.f call).1) ∨
    (∃ refSlots status value, (e.f.refSlots = none → refSlots = none) ∧
      e'.f = futureFinish { e.f with refSlots := refSlots } status value) ∨
    e'.f = futureForfeit e.f := by
  cases label with
  | check c host =>
      simp only [turn] at turned
      split at turned
      · next call _ =>
        cases turned
        exact Or.inr (Or.inl ⟨c, host, call, rfl, rfl⟩)
      · cases turned
  | reject | refuse status =>
      simp only [turn] at turned
      split at turned
      · cases turned
        exact Or.inr (Or.inr (Or.inl ⟨e.f.refSlots, _, none, id, rfl⟩))
      · cases turned
  | finish status out slots =>
      simp only [turn] at turned
      split at turned
      · cases turned
        refine Or.inr (Or.inr (Or.inl ⟨e.f.refSlots.map fun _ => slots, status, some out, ?_, rfl⟩))
        intro unset
        rw [unset]
        rfl
      · cases turned
  | enqueue | dequeue | start | unref | unlink | drop =>
      simp only [turn] at turned
      split at turned
      · cases turned
        exact Or.inl ⟨_, e.f.waited, id, rfl⟩
      · cases turned
  | forfeit =>
      cases turned
      split
      · exact Or.inr (Or.inr (Or.inr rfl))
      · exact Or.inl ⟨e.f.refcnt, e.f.waited, id, rfl⟩
  | wait host =>
      have marked := geasFutureWait_future memory host e.f
      simp only [turn] at turned
      split at turned
      · cases turned
      · rw [marked] at turned
        split at turned
        · cases turned
          exact Or.inl ⟨e.f.refcnt, true, fun _ => rfl, rfl⟩
        · cases turned
          exact Or.inl ⟨e.f.refcnt, true, fun _ => rfl, rfl⟩
        · cases turned

theorem turn_evolves {memory : HostMemory H} {e e' : Entry d H} {label : Turn d H}
    (turned : turn memory e label = some e') : Evolves e e' := by
  rcases turn_future turned with ⟨_, _, marks, f⟩ | ⟨c, host, call, -, f⟩ |
    ⟨refSlots, status, value, -, f⟩ | f
  · refine .of_kept ?_ (fun waited => ?_) ?_ ?_ <;> rw [f]
    exact marks waited
  · rcases check_cases memory c host e.f call with ⟨_, _, checked⟩ | ⟨_, _, _, -, -, checked⟩
    · rw [checked] at f
      exact .of_kept (by rw [f]) (fun waited => by rw [f]; exact waited) (by rw [f]) (by rw [f])
    · rw [checked] at f
      exact .of_kept (by rw [f]) (fun waited => by rw [f]; exact waited) (by rw [f]) (by rw [f])
  · constructor
    · intro _
      rw [f]
      exact futureFinish_done ..
    · intro waited
      rw [f, futureFinish_waited]
      exact waited
    · intro done
      rw [futureFinish_of_done { e.f with refSlots := refSlots } status value done] at f
      rw [f]
      exact Or.inl ⟨rfl, rfl⟩
  · by_cases waited : e.f.waited = true
    · rw [futureForfeit_of_waited _ waited] at f
      exact .of_kept (by rw [f]) (fun _ => by rw [f]; exact waited) (by rw [f]) (by rw [f])
    · have unwaited : e.f.waited = false := by simpa using waited
      have forfeited := futureForfeit_forfeited unwaited
      rw [← f] at forfeited
      exact ⟨fun _ => forfeited.done, fun marked => absurd marked waited,
        fun _ => Or.inr ⟨unwaited, forfeited.status, forfeited.value⟩⟩

theorem check_of_closed {c : GeasContract d} (closed : gateOpen c.state = false)
    (memory : HostMemory H) (host : H) (f : GeasFuture d H) (call : Call H) :
    ∃ status, (status = .errState ∨ status = .errType) ∧
      check memory c host f call = (f, .refused status) := by
  have refused : ∃ status, (status = .errState ∨ status = .errType) ∧
      validate c (call.request .ok) = .error status := by
    unfold validate
    split
    · exact ⟨.errType, Or.inr rfl, rfl⟩
    · exact ⟨.errState, Or.inl rfl, by rw [closed]; rfl⟩
  obtain ⟨status, known, refused⟩ := refused
  exact ⟨status, known, by rw [check, refused]⟩

/-- A forfeited future stays one while the instance takes no calls. -/
theorem turn_forfeited {memory : HostMemory H} {e e' : Entry d H} {label : Turn d H}
    (holds : Forfeited e.f) (closed : ∀ c host, label = .check c host → gateOpen c.state = false)
    (turned : turn memory e label = some e') : Forfeited e'.f := by
  rcases turn_future turned with ⟨_, _, -, f⟩ | ⟨c, host, call, check, f⟩ |
    ⟨refSlots, status, value, unset, f⟩ | f
  · rw [f]
    exact ⟨holds.done, holds.status, holds.value, holds.frame, holds.refs, holds.refSlots⟩
  · obtain ⟨_, -, refused⟩ := check_of_closed (closed c host check) memory host e.f call
    rw [f, refused]
    exact holds
  · rw [futureFinish_of_done { e.f with refSlots := refSlots } status value holds.done] at f
    rw [f]
    exact ⟨holds.done, holds.status, holds.value, holds.frame, holds.refs, unset holds.refSlots⟩
  · rw [f]
    by_cases waited : e.f.waited = true
    · rw [futureForfeit_of_waited _ waited]
      exact holds
    · exact futureForfeit_forfeited (by simpa using waited)

/-- A future of a call that came after the break: it reaches no worker, points
nowhere and ends with a refusal. -/
structure Barred (e : Entry d H) : Prop where
  task : e.task = .outside
  unready : e.caller ≠ .ready
  refused : ∀ status, e.caller = .refused status → status = .errState ∨ status = .errType
  value : e.f.value = .zero
  frame : e.f.frame = false
  refs : e.f.refs = []
  refSlots : e.f.refSlots = none
  status : e.f.done = true → e.f.status = .errState ∨ e.f.status = .errType

theorem futureNew_barred (sync : Bool) (call : Call H) : Barred (futureNew (d := d) sync call) :=
  ⟨rfl, nofun, nofun, rfl, rfl, rfl, rfl, nofun⟩

theorem turn_barred {memory : HostMemory H} {e e' : Entry d H} {label : Turn d H}
    (holds : Barred e) (closed : ∀ c host, label = .check c host → gateOpen c.state = false)
    (turned : turn memory e label = some e') : Barred e' := by
  have outside := holds.task
  cases label with
  | check c host =>
      simp only [turn] at turned
      split at turned
      · next call _ =>
        obtain ⟨status, known, refused⟩ :=
          check_of_closed (closed c host rfl) memory host e.f call
        rw [refused] at turned
        cases turned
        refine ⟨outside, nofun, ?_, holds.value, holds.frame, holds.refs, holds.refSlots,
          holds.status⟩
        intro other same
        cases same
        exact known
      · cases turned
  | reject =>
      simp only [turn] at turned
      split at turned
      · next status refused =>
        cases turned
        have known := holds.refused status refused
        refine ⟨outside, hand_ne_ready e, ?_, ?_, ?_, ?_, ?_, fun _ => ?_⟩
        · intro other same
          unfold Entry.hand at same
          split at same <;> cases same
        all_goals
          dsimp only
          unfold futureFinish
          split
        exacts [holds.value, holds.value, holds.frame, holds.frame, holds.refs, holds.refs,
          holds.refSlots, holds.refSlots, holds.status ‹_›, known]
      · cases turned
  | enqueue =>
      simp only [turn] at turned
      split at turned
      · next ready => exact absurd ready holds.unready
      · cases turned
  | dequeue | refuse | start | finish | unref =>
      simp [turn, outside] at turned
  | forfeit =>
      cases turned
      split
      · by_cases waited : e.f.waited = true
        · rw [futureForfeit_of_waited _ waited]
          exact holds
        · have forfeited := futureForfeit_forfeited (f := e.f) (by simpa using waited)
          exact ⟨outside, holds.unready, holds.refused, forfeited.value, forfeited.frame,
            forfeited.refs, forfeited.refSlots, fun _ => Or.inl forfeited.status⟩
      · exact holds
  | wait host =>
      have marked := geasFutureWait_future memory host e.f
      simp only [turn] at turned
      split at turned
      · cases turned
      · rw [marked] at turned
        split at turned
        · cases turned
          exact ⟨outside, holds.unready, holds.refused, holds.value, holds.frame, holds.refs,
            holds.refSlots, holds.status⟩
        · cases turned
          exact ⟨outside, nofun, nofun, holds.value, holds.frame, holds.refs, holds.refSlots,
            holds.status⟩
        · cases turned
  | unlink | drop =>
      simp only [turn] at turned
      split at turned
      · cases turned
        exact ⟨outside, nofun, nofun, holds.value, holds.frame, holds.refs, holds.refSlots,
          holds.status⟩
      · cases turned

/-! ## A future without an outcome gets one -/

/-- How many turns the pool is away from an outcome at most. -/
def Task.owed : Task → Nat
  | .queued => 3
  | .taken => 2
  | .running => 1
  | .outside | .spent | .gone => 0

/-- How many turns a future is away from its outcome at most. -/
def Entry.owed (e : Entry d H) : Nat :=
  match e.caller with
  | .building _ => 5
  | .ready => 4
  | .refused _ => 1
  | _ => e.task.owed

theorem owed_of_late {e : Entry d H} (late : e.caller.early = false) : e.owed = e.task.owed := by
  unfold Entry.owed
  cases caller : e.caller <;> simp_all [Caller.early]

section Pending

variable {memory : HostMemory H} {e e' : Entry d H}

/-- The call that made a future the pool works on has returned. -/
theorem EntryInvariant.late (holds : EntryInvariant e) (working : e.task ≠ .outside) :
    e.caller.early = false := by
  by_contra early
  exact working (holds.early (by simpa using early)).1

/-- Nobody took an outcome that is not there. -/
theorem EntryInvariant.untaken (holds : EntryInvariant e) (pending : e.f.done = false) :
    e.f.waited = false ∧ e.caller.undelivered = true := by
  have unwaited : e.f.waited = false := by
    rcases holds.delivered with ⟨unwaited, -⟩ | ⟨-, done, -⟩
    · exact unwaited
    · exact absurd (pending.symm.trans done) Bool.false_ne_true
  exact ⟨unwaited, holds.taken unwaited⟩

/-- Every turn at a future without an outcome publishes one or brings it nearer. -/
theorem pending_moves {label : Turn d H} (holds : EntryInvariant e) (pending : e.f.done = false)
    (turned : turn memory e label = some e') : e'.f.done = true ∨ e'.owed < e.owed := by
  obtain ⟨unwaited, undelivered⟩ := holds.untaken pending
  cases label with
  | check c host =>
      simp only [turn] at turned
      split at turned
      · next call building =>
        have owed : e.owed = 5 := by rw [Entry.owed, building]
        refine Or.inr ?_
        rcases check_cases memory c host e.f call with ⟨_, _, checked⟩ | ⟨_, _, _, -, -, checked⟩
        · rw [checked] at turned
          cases turned
          rw [owed]
          exact (by decide : 1 < 5)
        · rw [checked] at turned
          cases turned
          rw [owed]
          exact (by decide : 4 < 5)
      · cases turned
  | reject | refuse | finish =>
      simp only [turn] at turned
      split at turned
      · cases turned
        exact Or.inl (futureFinish_done ..)
      · cases turned
  | enqueue =>
      simp only [turn] at turned
      split at turned
      · next ready =>
        cases turned
        have owed : e.owed = 4 := by rw [Entry.owed, ready]
        refine Or.inr ?_
        rw [owed, owed_of_late (hand_early e)]
        exact (by decide : 3 < 4)
      · cases turned
  | dequeue =>
      simp only [turn] at turned
      split at turned
      · next queued =>
        cases turned
        have late := holds.late (by rw [queued]; decide)
        refine Or.inr ?_
        rw [owed_of_late late, owed_of_late (e := { e with task := .taken }) late, queued]
        exact (by decide : 2 < 3)
      · cases turned
  | start =>
      simp only [turn] at turned
      split at turned
      · next taken =>
        cases turned
        have late := holds.late (by rw [taken]; decide)
        refine Or.inr ?_
        rw [owed_of_late late, owed_of_late (e := { e with task := .running }) late, taken]
        exact (by decide : 1 < 2)
      · cases turned
  | unref =>
      simp only [turn] at turned
      split at turned
      · next spent =>
        have late := holds.late (by rw [spent]; decide)
        rcases holds.pending pending with early | working
        · exact absurd (late.symm.trans early) Bool.false_ne_true
        · rw [spent] at working
          cases working
      · cases turned
  | forfeit =>
      have linked : e.linked = true := by
        rw [holds.linked]
        cases caller : e.caller <;> simp_all [Caller.undelivered, Caller.listed]
      simp only [turn, if_pos linked] at turned
      cases turned
      exact Or.inl (futureForfeit_forfeited unwaited).done
  | wait host =>
      simp [turn, pending] at turned
  | unlink | drop =>
      simp only [turn] at turned
      split at turned
      · next taken =>
        rw [taken] at undelivered
        cases undelivered
      · cases turned

/-- And the party that owes the outcome can take such a turn. -/
theorem pending_enabled (memory : HostMemory H) (c : GeasContract d) (host : H)
    (holds : EntryInvariant e) (pending : e.f.done = false) :
    ∃ label e', label ≠ .forfeit ∧ turn memory e label = some e' := by
  rcases holds.pending pending with early | working
  · cases caller : e.caller with
    | building call => exact ⟨.check c host, _, nofun, by rw [turn, caller]⟩
    | ready => exact ⟨.enqueue, _, nofun, by rw [turn, caller]⟩
    | refused status => exact ⟨.reject, _, nofun, by rw [turn, caller]⟩
    | handed | waiting | delivered | unlinked | gone =>
        rw [caller] at early
        cases early
  · cases task : e.task with
    | queued => exact ⟨.dequeue, _, nofun, by rw [turn, if_pos task]⟩
    | taken => exact ⟨.refuse .errState, _, nofun, by rw [turn, if_pos task]⟩
    | running => exact ⟨.finish .ok .zero fun _ => .zero, _, nofun, by rw [turn, if_pos task]⟩
    | outside | spent | gone =>
        rw [task] at working
        cases working

end Pending

/-- What the protocol promises of a future at any time: while it has no outcome, the
party that owes one can take its turn, and every turn publishes or brings the
outcome nearer; its waits returned one outcome; and its count is that of its
holders, so that it reached zero once if nobody holds it, and else never. -/
structure Promised (memory : HostMemory H) (e : Entry d H) : Prop where
  enabled : e.f.done = false → ∃ label e', label ≠ .forfeit ∧ turn memory e label = some e'
  moves : e.f.done = false → ∀ label e', turn memory e label = some e' →
    e'.f.done = true ∨ e'.owed < e.owed
  delivered : Delivered e
  refcnt : e.f.refcnt = e.caller.hold + e.task.hold
  zeros : e.zeros = if e.caller.hold + e.task.hold = 0 then 1 else 0
  listed : e.linked = true → e.caller.hold = 1

theorem EntryInvariant.promised {e : Entry d H} (holds : EntryInvariant e) (memory : HostMemory H)
    (c : GeasContract d) (host : H) : Promised memory e where
  enabled := pending_enabled memory c host holds
  moves pending _ _ := pending_moves holds pending
  delivered := holds.delivered
  refcnt := holds.refcnt
  zeros := by rw [holds.zeros, holds.refcnt]
  listed linked := by
    rw [holds.linked] at linked
    cases caller : e.caller <;> simp_all [Caller.listed, Caller.hold]

end Geas.Runtime.Pool
