import Geas.Runtime.Park
import Geas.Runtime.Steady

/-!
# How a session of the bridge ends

One bridge server with any number of sessions and any number of threads in them.
A session may be ended by the termination callback of its stream, by its handler,
by the handler that finds the stream over already, and by the drain at shutdown.
Each of them takes the row from the table first and then waits for the lock of the
instance; a pledge call or a `Break` found its row earlier and waits for the same
lock.  gRPC decides which of these threads comes when, so each of their steps is a
label of the machine, and a statement about every run covers every order.

The instance behind a row is the runtime's own.  A fulfillment under the lock is
queued, taken by a worker, returns and is waited for, one step each.  The event
that wakes a handler is left out: a handler here may exit at any time.
-/

namespace Geas.Interop.Endings

open Geas.Abi
open Geas.Runtime
open Geas.Lib.Transition

/-- The calls of `end_session`, by the reason they give. -/
inductive Reason where
  | streamTerminated | alreadyOver | handlerExit
  deriving DecidableEq, Repr

/-- Who takes a row from the table: a call of `end_session`, or the drain. -/
inductive Ender where
  | session (reason : Reason)
  | drain
  deriving DecidableEq, Repr

/-- What an rpc does once it has its row. -/
inductive Task where
  | fulfill (request : Request)
  | breakRpc

/-- A thread of the server.  `admitted` and `owner` wait for the lock of an
instance, `owner` for each of its rows in turn; the others hold one. -/
inductive Thread where
  | admitted (id : Nat) (task : Task)
  | calling (id future : Nat)
  | explicit (id : Nat)
  | owner (ids : List Nat) (ender : Ender)
  | parking (id : Nat) (rest : List Nat) (ender : Ender)
  | breaking (id : Nat) (rest : List Nat) (ender : Ender)
  | done

/-- The instance whose lock a thread holds. -/
def Thread.holding : Thread → Option Nat
  | calling id _ | explicit id | parking id _ _ | breaking id _ _ => some id
  | admitted _ _ | owner _ _ | done => none

/-- The instances a thread took from the table and has not broken yet. -/
def Thread.owed : Thread → List Nat
  | owner ids _ => ids
  | parking id rest _ | breaking id rest _ => id :: rest
  | admitted _ _ | calling _ _ | explicit _ | done => []

/-- What the server did to an instance. -/
inductive Note where
  | parked (id : Nat) (token : String)
  | refused (id : Nat)
  | explicit (id : Nat)
  | ended (id : Nat) (ender : Ender)
  deriving DecidableEq, Repr

variable {d : GeasContractDesc}

/-- `Instance`: the contract, its token, and the thread that holds its lock. -/
structure Entry (d : GeasContractDesc) where
  contract : HeapSys d
  parkToken : String
  lock : Option Nat

/-- The server.  A row that left the table is still known to the threads that found
it, so the instances are kept apart from the table, which is the list of live ids. -/
structure Server (d : GeasContractDesc) where
  parkDsn : Bool
  nextId : Nat
  instances : Nat → Option (Entry d)
  live : List Nat
  threads : List Thread
  store : ParkTable
  log : List Note

/-- A server that starts. -/
def start (parkDsn : Bool) (store : ParkTable) : Server d :=
  ⟨parkDsn, 1, fun _ => none, [], [], store, []⟩

/-- The step a thread takes. -/
inductive Move (d : GeasContractDesc) where
  | acquire
  /-- A step of the worker that runs the call's fulfillment. -/
  | work (action : HeapAction d)
  | deliver
  | park (env : ParkEnv)
  | brk

/-- The steps of the server. -/
inductive Act (d : GeasContractDesc) where
  | insert (c : GeasContract d) (token : String)
  | admitTask (id : Nat) (task : Task)
  | endSession (id : Nat) (reason : Reason)
  | drain
  | move (t : Nat) (move : Move d)

namespace Server

/-- Replace an instance. -/
def put (s : Server d) (id : Nat) (e : Entry d) : Server d :=
  { s with instances := Function.update s.instances id (some e) }

/-- Replace a thread. -/
def become (s : Server d) (t : Nat) (thread : Thread) : Server d :=
  { s with threads := s.threads.set t thread }

/-- Record what happened. -/
def note (s : Server d) (note : Note) : Server d := { s with log := s.log ++ [note] }

end Server

/-- The steps a worker takes for the fulfillment of future `k`. -/
def isWork (k : Nat) : HeapAction d → Bool
  | .act (.dequeue j _) => j == k
  | .act (.finish _ _ _ _) | .allocate => true
  | .act (.fulfill _) | .act (.inline _ _) | .act (.wait _) | .act .brk => false

/-- What `end_session` makes of the answer of a park: a refusal is reported and
passed over. -/
def parkNote (id : Nat) (token : String) (status : GeasStatus) : Note :=
  if status = .ok then .parked id token else .refused id

/-- One step of thread `t`. -/
def threadStep (s : Server d) (t : Nat) : Thread → Move d → Option (Server d)
  | .admitted id (.fulfill request), .acquire => do
      let e ← s.instances id
      if e.lock = none then
        let h ← heapStep e.contract (.act (.fulfill request))
        some ((s.put id ⟨h, e.parkToken, some t⟩).become t
          (.calling id e.contract.sys.futures.length))
      else none
  | .admitted id .breakRpc, .acquire => do
      let e ← s.instances id
      if e.lock = none then some ((s.put id { e with lock := some t }).become t (.explicit id))
      else none
  | .calling id k, .work action => do
      let e ← s.instances id
      if isWork k action then
        let h ← heapStep e.contract action
        some ((s.put id { e with contract := h }).become t (.calling id k))
      else none
  | .calling id k, .deliver => do
      let e ← s.instances id
      let h ← heapStep e.contract (.act (.wait k))
      some ((s.put id ⟨h, e.parkToken, none⟩).become t .done)
  | .explicit id, .brk => do
      let e ← s.instances id
      let h ← heapStep e.contract (.act .brk)
      some (((s.put id ⟨h, e.parkToken, none⟩).become t .done).note (.explicit id))
  | .owner (id :: rest) ender, .acquire => do
      let e ← s.instances id
      if e.lock = none then
        -- The drain has a loop of its own, and it does not park.
        let next := if s.parkDsn = true ∧ ender ≠ .drain then Thread.parking id rest ender
          else .breaking id rest ender
        some ((s.put id { e with lock := some t }).become t next)
      else none
  | .parking id rest ender, .park env => do
      let e ← s.instances id
      let answer := geasInstancePark env e.contract e.parkToken s.store
      some { ((s.put id e).become t (.breaking id rest ender)).note
          (parkNote id e.parkToken answer.1) with
        store := answer.2 }
  | .breaking id rest ender, .brk => do
      let e ← s.instances id
      let h ← heapStep e.contract (.act .brk)
      some (((s.put id ⟨h, e.parkToken, none⟩).become t (.owner rest ender)).note
        (.ended id ender))
  | _, _ => none

/-- One step of the server.  Neither `sign` nor `resume` hands out an unsigned
instance; an id without a row is `NOT_FOUND` for an rpc and nothing to do for
`end_session`. -/
def step (s : Server d) : Act d → Option (Server d)
  | .insert c token =>
      if c.state = .unsigned then none
      else some { s.put s.nextId ⟨publishedHeap c, token, none⟩ with
        nextId := s.nextId + 1
        live := s.live ++ [s.nextId] }
  | .admitTask id task =>
      if id ∈ s.live then some { s with threads := s.threads ++ [.admitted id task] } else some s
  | .endSession id reason =>
      if id ∈ s.live then
        some { s with
          live := s.live.erase id
          threads := s.threads ++ [.owner [id] (.session reason)] }
      else some s
  | .drain => some { s with live := [], threads := s.threads ++ [.owner s.live .drain] }
  | .move t move => (s.threads[t]?).bind fun thread => threadStep s t thread move

/-! ### What is said about a run -/

/-- Whether a note is the break that ends session `id`. -/
def Note.ends (id : Nat) : Note → Bool
  | .ended i _ => i == id
  | _ => false

/-- How often session `id` was broken by one of its enders. -/
def endings (log : List Note) (id : Nat) : Nat := log.countP (Note.ends id)

/-- How many breaks of session `id` the threads still owe. -/
def owing (threads : List Thread) (id : Nat) : Nat := (threads.flatMap Thread.owed).count id

/-- Every instance is in one place: in the table, with one thread that took its row
and will break it, or broken by one. -/
def EndsOnce (s : Server d) : Prop :=
  ∀ id e, s.instances id = some e →
    s.live.count id + owing s.threads id + endings s.log id = 1

/-- Every break that ends a session comes after the session was parked under its
token, or broken explicitly. -/
def ParkedFirst (s : Server d) : Prop :=
  s.parkDsn = true → ∀ front back id ender, s.log = front ++ .ended id ender :: back →
    .explicit id ∈ front ∨ ∃ e, s.instances id = some e ∧ .parked id e.parkToken ∈ front

/-- The pledge bodies that started on an instance, in order. -/
def Entry.starts (e : Entry d) : List (Fin d.npledges) := Runtime.starts e.contract.sys.log

/-- No body starts on an instance that an ender broke. -/
def Later (s s' : Server d) : Prop :=
  ∀ id e, s.instances id = some e → ∃ e', s'.instances id = some e' ∧
    e'.parkToken = e.parkToken ∧ endings s.log id ≤ endings s'.log id ∧
      (endings s.log id ≠ 0 → e'.starts = e.starts)

/-- The drain finds no session in the table that is to be parked, and a park is
accepted unless the instance was broken explicitly. -/
def Parks (s : Server d) : Act d → Prop
  | .drain => s.parkDsn = true → ∀ id ∈ s.live, Note.explicit id ∈ s.log
  | .move t (.park env) => ∀ id rest ender e, s.threads[t]? = some (.parking id rest ender) →
      s.instances id = some e →
        (∃ row, parkedRow env e.contract = .ok row) ∨ Note.explicit id ∈ s.log
  | _ => True

/-! ### The runtime's side of a critical section -/

/-- The instance between two critical sections: nothing queued, nothing running. -/
structure Quiet (sys : Sys d) : Prop where
  idle : sys.running = []
  noneQueued : ∀ (j : Nat) (f : GeasFuture d), sys.futures[j]? = some f → f.queued = false

/-- How far the fulfillment of a call is: queued, running or done. -/
def Underway (sys : Sys d) (k : Nat) (f : GeasFuture d) : Prop :=
  (f.queued = true ∧ f.done = false ∧ sys.running = []) ∨
    (f.queued = false ∧ f.done = false ∧ ∃ p, sys.running = [⟨p, some k, 0⟩]) ∨
    (f.queued = false ∧ f.done = true ∧ sys.running = [])

/-- The instance inside a call whose fulfillment is future `k`. -/
structure Busy (k : Nat) (sys : Sys d) : Prop where
  others : ∀ (j : Nat) (f : GeasFuture d), j ≠ k → sys.futures[j]? = some f → f.queued = false
  mine : ∃ f, sys.futures[k]? = some f ∧ Underway sys k f

/-- A broken instance on which nothing can start. -/
structure Stopped (sys : Sys d) : Prop extends Quiet sys where
  broken : sys.c.state = .broken

theorem heapStep_act {h h' : HeapSys d} {action : Action d}
    (stepped : heapStep h (.act action) = some h') : Runtime.step h.sys action = some h'.sys := by
  simp only [heapStep, Option.map_eq_some_iff] at stepped
  obtain ⟨sys, stepped, rfl⟩ := stepped
  cases action <;> try exact stepped
  rw [stepped]
  simp only
  split <;> rfl

section Runtime

variable {sys sys' : Sys d} {k : Nat}

/-- A fulfillment that is asked for is queued as the last future, or refused and
done. -/
theorem busy_fulfill {request : Request} (quiet : Quiet sys)
    (stepped : Runtime.step sys (.fulfill request) = some sys') :
    Busy sys.futures.length sys' := by
  have old : ∀ (j : Nat) (f added : GeasFuture d), j ≠ sys.futures.length →
      (sys.futures ++ [added])[j]? = some f → f.queued = false := by
    intro j f added apart found
    rw [List.getElem?_append] at found
    split at found
    · exact quiet.noneQueued j f found
    · rename_i above
      rw [List.getElem?_eq_none (by simp; omega)] at found
      cases found
  simp only [Runtime.step] at stepped
  split at stepped
  · obtain rfl := Option.some.inj stepped
    exact ⟨fun j f => old j f _, _, List.getElem?_concat_length, .inr (.inr ⟨rfl, rfl, quiet.idle⟩)⟩
  · obtain rfl := Option.some.inj stepped
    exact ⟨fun j f => old j f _, _, List.getElem?_concat_length, .inl ⟨rfl, rfl, quiet.idle⟩⟩

/-- The futures a publication to `k` leaves, one by one. -/
theorem publish_getElem? (futures : List (GeasFuture d)) (status : GeasStatus)
    (value : Option GeasValue) (j : Nat) :
    (publish futures (some k) status value)[j]? =
      if j = k then futures[j]?.map fun f => futureFinish f status value else futures[j]? := by
  simp only [publish, List.getElem?_modify]
  by_cases same : j = k
  · simp [same]
  · simp [same, Ne.symm same]

/-- Publishing to a call's future ends its fulfillment. -/
theorem busy_publish {c : GeasContract d} {futures : List (GeasFuture d)}
    {log : List (Runtime.Event d)} {f : GeasFuture d} (status : GeasStatus)
    (value : Option GeasValue)
    (others : ∀ (j : Nat) (f : GeasFuture d), j ≠ k → futures[j]? = some f → f.queued = false)
    (mine : futures[k]? = some f) (taken : f.queued = false) :
    Busy k ⟨c, publish futures (some k) status value, [], log⟩ := by
  refine ⟨fun j g apart found => ?_, futureFinish f status value, ?_, .inr (.inr ?_)⟩
  · rw [publish_getElem?, if_neg apart] at found
    exact others j g apart found
  · rw [publish_getElem?, if_pos rfl, mine]
    rfl
  · unfold futureFinish
    split
    · exact ⟨taken, by assumption, rfl⟩
    · exact ⟨taken, rfl, rfl⟩

/-- A worker takes the call's fulfillment from the queue: its body runs, or it is
refused. -/
theorem busy_dequeue {begun : GeasStatus} (busy : Busy k sys)
    (stepped : Runtime.step sys (.dequeue k begun) = some sys') : Busy k sys' := by
  obtain ⟨others, ⟨pidx, queued, status, value, done, waited⟩, mine, underway⟩ := busy
  simp only [Runtime.step, mine] at stepped
  rcases underway with ⟨rfl, rfl, idle⟩ | ⟨-, -, p, running⟩ | ⟨rfl, -, idle⟩
  · rw [idle] at stepped
    cases pidx with
    | none => cases stepped
    | some p =>
        simp only at stepped
        have inside : k < sys.futures.length := (List.getElem?_eq_some_iff.mp mine).1
        -- The future as the worker holds it, and the queue without it.
        have others' : ∀ (j : Nat) (f : GeasFuture d), j ≠ k →
            (sys.futures.set k ⟨some p, false, status, value, false, waited⟩)[j]? = some f →
              f.queued = false := by
          intro j f apart found
          rw [List.getElem?_set_ne (Ne.symm apart)] at found
          exact others j f apart found
        have mine' := List.getElem?_set_self (a := (⟨some p, false, status, value, false, waited⟩ :
          GeasFuture d)) inside
        split at stepped
        · obtain rfl := Option.some.inj stepped
          simp only [enter]
          split
          · exact busy_publish _ _ others' mine' rfl
          · exact ⟨others', _, mine', .inr (.inl ⟨rfl, rfl, p, rfl⟩)⟩
        · obtain rfl := Option.some.inj stepped
          exact busy_publish _ _ others' mine' rfl
  · rw [running] at stepped
    cases stepped
  · rw [idle] at stepped
    cases pidx <;> cases stepped

/-- The body of a call returns. -/
theorem busy_finish {status commit writeBack : GeasStatus} {out : GeasValue} (busy : Busy k sys)
    (stepped : Runtime.step sys (.finish status out commit writeBack) = some sys') :
    Busy k sys' := by
  obtain ⟨others, f, mine, underway⟩ := busy
  simp only [Runtime.step] at stepped
  rcases underway with ⟨-, -, idle⟩ | ⟨taken, -, p, running⟩ | ⟨-, -, idle⟩
  · rw [idle] at stepped
    cases stepped
  · rw [running] at stepped
    obtain rfl := Option.some.inj stepped
    exact busy_publish _ _ others mine taken
  · rw [idle] at stepped
    cases stepped

theorem busy_work {h h' : HeapSys d} {action : HeapAction d} (busy : Busy k h.sys)
    (work : isWork k action = true) (stepped : heapStep h action = some h') : Busy k h'.sys := by
  cases action with
  | allocate =>
      obtain rfl := Option.some.inj stepped
      exact busy
  | act action =>
      have stepped := heapStep_act stepped
      cases action with
      | dequeue j begun =>
          obtain rfl : j = k := by simpa [isWork] using work
          exact busy_dequeue busy stepped
      | finish status out commit writeBack => exact busy_finish busy stepped
      | fulfill request => cases work
      | inline request begun => cases work
      | wait j => cases work
      | brk => cases work

/-- A call that is delivered leaves nothing behind. -/
theorem quiet_wait (busy : Busy k sys) (stepped : Runtime.step sys (.wait k) = some sys') :
    Quiet sys' := by
  obtain ⟨others, f, mine, underway⟩ := busy
  simp only [Runtime.step, mine] at stepped
  split at stepped
  · rename_i done
    obtain rfl := Option.some.inj stepped
    rcases underway with ⟨-, waiting, -⟩ | ⟨-, waiting, -⟩ | ⟨taken, -, idle⟩
    · rw [done] at waiting
      cases waiting
    · rw [done] at waiting
      cases waiting
    · refine ⟨idle, fun j g found => ?_⟩
      by_cases same : j = k
      · subst same
        rw [List.getElem?_set_self (List.getElem?_eq_some_iff.mp mine).1] at found
        obtain rfl := Option.some.inj found
        exact taken
      · rw [List.getElem?_set_ne (Ne.symm same)] at found
        exact others j g same found
  · cases stepped

/-- What a break of a signed instance leaves. -/
theorem stopped_brk (quiet : Quiet sys) (signed : sys.c.state ≠ .unsigned)
    (stepped : Runtime.step sys .brk = some sys') : Stopped sys' := by
  simp only [Runtime.step, if_neg signed] at stepped
  obtain rfl := Option.some.inj stepped
  refine ⟨⟨quiet.idle, fun j f found => ?_⟩, rfl⟩
  rw [List.getElem?_map, Option.map_eq_some_iff] at found
  obtain ⟨g, found, rfl⟩ := found
  have taken := quiet.noneQueued j g found
  unfold futureForfeit
  split <;> exact taken

/-- What every step of the runtime keeps: an instance stays signed, and on one that
was stopped nothing starts. -/
structure Section (before after : Sys d) : Prop where
  signed : before.c.state ≠ .unsigned → after.c.state ≠ .unsigned
  stopped : Stopped before → Stopped after ∧ starts after.log = starts before.log

theorem Section.refl (sys : Sys d) : Section sys sys := ⟨id, fun stopped => ⟨stopped, rfl⟩⟩

theorem signed_step {action : Action d} (stepped : Runtime.step sys action = some sys')
    (signed : sys.c.state ≠ .unsigned) : sys'.c.state ≠ .unsigned := by
  have entered : ∀ (s : Sys d) (thunk : Thunk d) (begun : GeasStatus),
      (enter s thunk begun).c.state = s.c.state := by
    intro s thunk begun
    simp only [enter]
    split <;> exact txnBefore_state _ _ _
  cases action with
  | fulfill request =>
      simp only [Runtime.step] at stepped
      split at stepped <;> (obtain rfl := Option.some.inj stepped; exact signed)
  | dequeue j begun =>
      simp only [Runtime.step] at stepped
      split at stepped
      · split at stepped
        · obtain rfl := Option.some.inj stepped
          rw [entered]
          exact signed
        · obtain rfl := Option.some.inj stepped
          exact signed
      · cases stepped
  | inline request begun =>
      simp only [Runtime.step] at stepped
      split at stepped
      · obtain rfl := Option.some.inj stepped
        exact signed
      · obtain rfl := Option.some.inj stepped
        rw [entered]
        exact signed
  | finish status out commit writeBack =>
      simp only [Runtime.step] at stepped
      split at stepped
      · cases stepped
      · obtain rfl := Option.some.inj stepped
        simp only [leave, settle_state]
        split
        · exact evalPolicy_ne_unsigned _ _
        · exact signed
  | wait j =>
      simp only [Runtime.step] at stepped
      split at stepped
      · split at stepped
        · obtain rfl := Option.some.inj stepped
          exact signed
        · cases stepped
      · cases stepped
  | brk =>
      simp only [Runtime.step, if_neg signed] at stepped
      obtain rfl := Option.some.inj stepped
      simp [breakInstance]

theorem stopped_step {action : Action d} (stepped : Runtime.step sys action = some sys')
    (stopped : Stopped sys) : Stopped sys' ∧ starts sys'.log = starts sys.log := by
  obtain ⟨⟨idle, noneQueued⟩, broken⟩ := stopped
  have refused : ∀ request, ∃ status, validate sys.c request = .error status := by
    intro request
    unfold validate
    split
    · exact ⟨_, rfl⟩
    · rw [broken]
      exact ⟨_, rfl⟩
  cases action with
  | fulfill request =>
      obtain ⟨status, refused⟩ := refused request
      simp only [Runtime.step, refused] at stepped
      obtain rfl := Option.some.inj stepped
      refine ⟨⟨⟨idle, fun j f found => ?_⟩, broken⟩, rfl⟩
      rcases List.mem_append.mp (List.mem_of_getElem? found) with old | new
      · obtain ⟨i, found⟩ := List.mem_iff_getElem?.mp old
        exact noneQueued i f found
      · rw [List.mem_singleton.mp new]
  | dequeue j begun =>
      simp only [Runtime.step] at stepped
      split at stepped
      · rename_i found
        cases noneQueued _ _ found
      · cases stepped
  | inline request begun =>
      obtain ⟨status, refused⟩ := refused request
      simp only [Runtime.step, refused] at stepped
      obtain rfl := Option.some.inj stepped
      exact ⟨⟨⟨idle, noneQueued⟩, broken⟩, rfl⟩
  | finish status out commit writeBack =>
      simp only [Runtime.step, idle] at stepped
      cases stepped
  | wait j =>
      simp only [Runtime.step] at stepped
      split at stepped
      · rename_i f waited
        split at stepped
        · obtain rfl := Option.some.inj stepped
          refine ⟨⟨⟨idle, fun i g found => ?_⟩, broken⟩, rfl⟩
          rw [List.getElem?_set] at found
          split at found
          · split at found
            · obtain rfl := Option.some.inj found
              exact noneQueued j f waited
            · cases found
          · exact noneQueued i g found
        · cases stepped
      · cases stepped
  | brk =>
      have signed : sys.c.state ≠ .unsigned := by simp [broken]
      refine ⟨stopped_brk ⟨idle, noneQueued⟩ signed stepped, ?_⟩
      simp only [Runtime.step, if_neg signed] at stepped
      obtain rfl := Option.some.inj stepped
      simp [starts]

theorem section_heapStep {h h' : HeapSys d} {action : HeapAction d}
    (stepped : heapStep h action = some h') : Section h.sys h'.sys := by
  cases action with
  | allocate =>
      obtain rfl := Option.some.inj stepped
      exact Section.refl _
  | act action =>
      have stepped := heapStep_act stepped
      exact ⟨signed_step stepped, stopped_step stepped⟩

end Runtime

/-! ### The server's invariant -/

/-- The instance as the thread that holds its lock knows it. -/
def Thread.Shows (sys : Sys d) : Thread → Prop
  | .calling _ k => Busy k sys
  | _ => Quiet sys

/-- Each instance is in one place, each lock has the thread that holds it, and an
instance that an ender broke is stopped. -/
structure Sound (s : Server d) : Prop where
  fresh : ∀ id, s.nextId ≤ id → s.instances id = none
  once : ∀ id, s.live.count id + owing s.threads id + endings s.log id =
    if (s.instances id).isSome then 1 else 0
  holder : ∀ (t : Nat) thread id, s.threads[t]? = some thread → thread.holding = some id →
    ∃ e, s.instances id = some e ∧ e.lock = some t ∧ thread.Shows e.contract.sys
  free : ∀ id e, s.instances id = some e → e.lock = none → Quiet e.contract.sys
  signed : ∀ id e, s.instances id = some e → e.contract.sys.c.state ≠ .unsigned
  stopped : ∀ id e, s.instances id = some e → endings s.log id ≠ 0 → Stopped e.contract.sys

theorem Later.refl (s : Server d) : Later s s := fun _ e known =>
  ⟨e, known, rfl, Nat.le_refl _, fun _ => rfl⟩

theorem Later.trans {s s' s'' : Server d} (first : Later s s') (second : Later s' s'') :
    Later s s'' := by
  intro id e known
  obtain ⟨e', known', token', more', same'⟩ := first id e known
  obtain ⟨e'', known'', token'', more'', same''⟩ := second id e' known'
  refine ⟨e'', known'', token''.trans token', more'.trans more'', fun ended => ?_⟩
  exact (same'' (by omega)).trans (same' ended)

theorem endings_append (log more : List Note) (id : Nat) :
    endings (log ++ more) id = endings log id + endings more id :=
  List.countP_append

theorem endings_parkNote (id i : Nat) (token : String) (status : GeasStatus) :
    endings [parkNote id token status] i = 0 := by
  unfold parkNote
  split <;> rfl

theorem owing_append (threads more : List Thread) (id : Nat) :
    owing (threads ++ more) id = owing threads id + owing more id := by
  simp [owing]

/-- What the threads owe after one of them moved. -/
theorem owing_set {threads : List Thread} {t : Nat} {old : Thread} (here : threads[t]? = some old)
    (new : Thread) (id : Nat) :
    owing (threads.set t new) id + old.owed.count id = owing threads id + new.owed.count id := by
  induction threads generalizing t with
  | nil => cases here
  | cons first rest ih =>
      cases t with
      | zero =>
          obtain rfl := Option.some.inj here
          simp only [owing, List.set_cons_zero, List.flatMap_cons, List.count_append]
          omega
      | succ t =>
          have rest := ih here
          simp only [owing, List.set_cons_succ, List.flatMap_cons, List.count_append] at rest ⊢
          omega

section Steps

variable {s s' : Server d} {t id : Nat} {e : Entry d} {old : Thread}

/-- One step of one thread on one instance.  Nobody else holds the instance, the
thread owes what it owed but for the breaks it notes, and it leaves the lock free
and the instance quiet or keeps both. -/
theorem Sound.move (sound : Sound s) (e' : Entry d) (new : Thread) (notes : List Note)
    (store : ParkTable) (here : s.threads[t]? = some old)
    (known : s.instances id = some e) (mine : e.lock = none ∨ old.holding = some id)
    (owes : ∀ i, new.owed.count i + endings notes i = old.owed.count i)
    (held : new.holding = none ∧ e'.lock = none ∧ Quiet e'.contract.sys ∨
      new.holding = some id ∧ e'.lock = some t ∧ new.Shows e'.contract.sys)
    (token : e'.parkToken = e.parkToken) (kept : Section e.contract.sys e'.contract.sys)
    (elsewhere : ∀ i, i ≠ id → endings notes i = 0)
    (ends : endings notes id ≠ 0 → Stopped e'.contract.sys) :
    Sound { (s.put id e').become t new with log := s.log ++ notes, store := store } ∧
      Later s { (s.put id e').become t new with log := s.log ++ notes, store := store } := by
  have inside : t < s.threads.length := (List.getElem?_eq_some_iff.mp here).1
  have now : ∀ i f, Function.update s.instances id (some e') i = some f →
      i = id ∧ f = e' ∨ i ≠ id ∧ s.instances i = some f := by
    intro i f found
    by_cases same : i = id
    · subst same
      rw [Function.update_self] at found
      exact .inl ⟨rfl, (Option.some.inj found).symm⟩
    · rw [Function.update_of_ne same] at found
      exact .inr ⟨same, found⟩
  constructor
  · constructor <;> simp only [Server.put, Server.become]
    · intro i above
      have apart : i ≠ id := by
        rintro rfl
        rw [sound.fresh i above] at known
        cases known
      rw [Function.update_of_ne apart]
      exact sound.fresh i above
    · intro i
      have once := sound.once i
      have moved := owing_set here new i
      have owes := owes i
      have same : (Function.update s.instances id (some e') i).isSome = (s.instances i).isSome := by
        by_cases same : i = id
        · subst same
          simp [known]
        · rw [Function.update_of_ne same]
      simp only [endings_append, same]
      omega
    · intro u thread i found holds
      by_cases same : u = t
      · subst same
        rw [List.getElem?_set_self inside] at found
        obtain rfl := Option.some.inj found
        rcases held with ⟨idle, -⟩ | ⟨keeps, lock, shows⟩
        · rw [idle] at holds
          cases holds
        · obtain rfl := Option.some.inj (keeps.symm.trans holds)
          exact ⟨e', Function.update_self .., lock, shows⟩
      · rw [List.getElem?_set_ne (Ne.symm same)] at found
        obtain ⟨f, knownThere, lock, shows⟩ := sound.holder u thread i found holds
        have apart : i ≠ id := by
          rintro rfl
          obtain rfl := Option.some.inj (known.symm.trans knownThere)
          rcases mine with unlocked | holding
          · rw [unlocked] at lock
            cases lock
          · obtain ⟨g, knownHere, lock', -⟩ := sound.holder t old i here holding
            obtain rfl := Option.some.inj (known.symm.trans knownHere)
            exact same (Option.some.inj (lock.symm.trans lock'))
        exact ⟨f, by rw [Function.update_of_ne apart]; exact knownThere, lock, shows⟩
    · intro i f found unlocked
      rcases now i f found with ⟨rfl, rfl⟩ | ⟨-, before⟩
      · rcases held with ⟨-, -, quiet⟩ | ⟨-, lock, -⟩
        · exact quiet
        · rw [lock] at unlocked
          cases unlocked
      · exact sound.free i f before unlocked
    · intro i f found
      rcases now i f found with ⟨rfl, rfl⟩ | ⟨-, before⟩
      · exact kept.signed (sound.signed i e known)
      · exact sound.signed i f before
    · intro i f found ended
      rw [endings_append] at ended
      rcases now i f found with ⟨rfl, rfl⟩ | ⟨apart, before⟩
      · by_cases before : endings s.log i = 0
        · exact ends (by omega)
        · exact (kept.stopped (sound.stopped i e known before)).1
      · have := elsewhere i apart
        exact sound.stopped i f before (by omega)
  · intro i f before
    simp only [Server.put, Server.become, endings_append]
    by_cases same : i = id
    · subst same
      obtain rfl := Option.some.inj (known.symm.trans before)
      refine ⟨e', Function.update_self .., token, by omega, fun ended => ?_⟩
      exact (kept.stopped (sound.stopped i e known ended)).2
    · exact ⟨f, by rw [Function.update_of_ne same]; exact before, rfl, by omega, fun _ => rfl⟩

/-- A new thread that holds no lock and owes the breaks of the rows that left the
table. -/
theorem Sound.spawn {new : Thread} {live : List Nat} (sound : Sound s)
    (owes : ∀ i, live.count i + new.owed.count i = s.live.count i) (idle : new.holding = none) :
    Sound { s with live := live, threads := s.threads ++ [new] } := by
  refine ⟨sound.fresh, fun i => ?_, fun u thread i found holds => ?_, sound.free, sound.signed,
    sound.stopped⟩
  · have once := sound.once i
    have owes := owes i
    have spawned : owing [new] i = new.owed.count i := by simp [owing]
    simp only [owing_append, spawned]
    omega
  · rw [List.getElem?_append] at found
    split at found
    · exact sound.holder u thread i found holds
    · obtain rfl := List.mem_singleton.mp (List.mem_of_getElem? found)
      rw [idle] at holds
      cases holds

/-- A step of one thread on one instance that notes nothing. -/
theorem Sound.quietly {e' : Entry d} {new : Thread} (sound : Sound s)
    (here : s.threads[t]? = some old) (known : s.instances id = some e)
    (mine : e.lock = none ∨ old.holding = some id) (owes : new.owed = old.owed)
    (held : new.holding = none ∧ e'.lock = none ∧ Quiet e'.contract.sys ∨
      new.holding = some id ∧ e'.lock = some t ∧ new.Shows e'.contract.sys)
    (token : e'.parkToken = e.parkToken) (kept : Section e.contract.sys e'.contract.sys) :
    Sound ((s.put id e').become t new) ∧ Later s ((s.put id e').become t new) := by
  have moved := sound.move e' new [] s.store here known mine (fun i => by rw [owes]; rfl) held
    token kept (fun _ _ => rfl) (fun ended => absurd rfl ended)
  rw [List.append_nil] at moved
  exact moved

/-- The instance of a thread that holds one, as the thread knows it. -/
theorem Sound.held (sound : Sound s) (here : s.threads[t]? = some old)
    (holds : old.holding = some id) (known : s.instances id = some e) :
    e.lock = some t ∧ old.Shows e.contract.sys := by
  obtain ⟨f, known', lock, shows⟩ := sound.holder t old id here holds
  obtain rfl := Option.some.inj (known.symm.trans known')
  exact ⟨lock, shows⟩

theorem sound_threadStep {move : Move d} (sound : Sound s) (here : s.threads[t]? = some old)
    (stepped : threadStep s t old move = some s') : Sound s' ∧ Later s s' := by
  unfold threadStep at stepped
  split at stepped
  · -- A pledge call takes the lock and asks for its fulfillment.
    obtain ⟨e, known, stepped⟩ := Option.bind_eq_some_iff.mp stepped
    split at stepped
    · rename_i unlocked
      obtain ⟨h, asked, stepped⟩ := Option.bind_eq_some_iff.mp stepped
      obtain rfl := Option.some.inj stepped
      have busy := busy_fulfill (sound.free _ e known unlocked) (heapStep_act asked)
      exact sound.quietly here known (.inl unlocked) rfl (.inr ⟨rfl, rfl, busy⟩) rfl
        (section_heapStep asked)
    · cases stepped
  · -- A `Break` takes the lock.
    obtain ⟨e, known, stepped⟩ := Option.bind_eq_some_iff.mp stepped
    split at stepped
    · rename_i unlocked
      obtain rfl := Option.some.inj stepped
      have quiet := sound.free _ e known unlocked
      exact sound.quietly here known (.inl unlocked) rfl (.inr ⟨rfl, rfl, quiet⟩) rfl
        (Section.refl _)
    · cases stepped
  · -- A worker runs the call's fulfillment.
    obtain ⟨e, known, stepped⟩ := Option.bind_eq_some_iff.mp stepped
    split at stepped
    · rename_i work
      obtain ⟨h, worked, stepped⟩ := Option.bind_eq_some_iff.mp stepped
      obtain rfl := Option.some.inj stepped
      obtain ⟨lock, busy⟩ := sound.held here rfl known
      exact sound.quietly here known (.inr rfl) rfl (.inr ⟨rfl, lock, busy_work busy work worked⟩)
        rfl (section_heapStep worked)
    · cases stepped
  · -- The call is delivered and releases the lock.
    obtain ⟨e, known, stepped⟩ := Option.bind_eq_some_iff.mp stepped
    obtain ⟨h, delivered, stepped⟩ := Option.bind_eq_some_iff.mp stepped
    obtain rfl := Option.some.inj stepped
    obtain ⟨-, busy⟩ := sound.held here rfl known
    exact sound.quietly here known (.inr rfl) rfl
      (.inl ⟨rfl, rfl, quiet_wait busy (heapStep_act delivered)⟩) rfl (section_heapStep delivered)
  · -- The `Break` breaks.
    obtain ⟨e, known, stepped⟩ := Option.bind_eq_some_iff.mp stepped
    obtain ⟨h, broke, stepped⟩ := Option.bind_eq_some_iff.mp stepped
    obtain rfl := Option.some.inj stepped
    obtain ⟨-, quiet⟩ := sound.held here rfl known
    have stopped := stopped_brk quiet (sound.signed _ e known) (heapStep_act broke)
    exact sound.move ⟨h, e.parkToken, none⟩ .done [.explicit _] s.store here known (.inr rfl)
      (fun _ => rfl) (.inl ⟨rfl, rfl, stopped.toQuiet⟩) rfl (section_heapStep broke)
      (fun _ _ => rfl) (fun ended => absurd rfl ended)
  · -- An ender takes the lock of its next row.
    obtain ⟨e, known, stepped⟩ := Option.bind_eq_some_iff.mp stepped
    split at stepped
    · rename_i unlocked
      obtain rfl := Option.some.inj stepped
      have quiet := sound.free _ e known unlocked
      split
      · exact sound.quietly here known (.inl unlocked) rfl (.inr ⟨rfl, rfl, quiet⟩) rfl
          (Section.refl _)
      · exact sound.quietly here known (.inl unlocked) rfl (.inr ⟨rfl, rfl, quiet⟩) rfl
          (Section.refl _)
    · cases stepped
  · -- The ender parks, or is refused.
    obtain ⟨e, known, stepped⟩ := Option.bind_eq_some_iff.mp stepped
    obtain rfl := Option.some.inj stepped
    obtain ⟨lock, quiet⟩ := sound.held here rfl known
    refine sound.move e _ [_] _ here known (.inr rfl) (fun i => ?_) (.inr ⟨rfl, lock, quiet⟩) rfl
      (Section.refl _) (fun i _ => endings_parkNote ..)
      (fun ended => absurd (endings_parkNote ..) ended)
    rw [endings_parkNote]
    rfl
  · -- The ender breaks, which is the one break the row stood for.
    rename_i id rest ender
    obtain ⟨e, known, stepped⟩ := Option.bind_eq_some_iff.mp stepped
    obtain ⟨h, broke, stepped⟩ := Option.bind_eq_some_iff.mp stepped
    obtain rfl := Option.some.inj stepped
    obtain ⟨-, quiet⟩ := sound.held here rfl known
    have stopped := stopped_brk quiet (sound.signed _ e known) (heapStep_act broke)
    refine sound.move ⟨h, e.parkToken, none⟩ (.owner rest ender) [.ended id ender] s.store here
      known (.inr rfl) (fun i => ?_) (.inl ⟨rfl, rfl, stopped.toQuiet⟩) rfl
      (section_heapStep broke) (fun i apart => ?_) (fun _ => stopped)
    · simp only [Thread.owed, endings, Note.ends, List.count_cons, List.countP_cons,
        List.countP_nil, Nat.zero_add]
      rfl
    · simp [endings, Note.ends, Ne.symm apart]
  · cases stepped

theorem sound_step {act : Act d} (sound : Sound s) (stepped : step s act = some s') :
    Sound s' ∧ Later s s' := by
  cases act with
  | insert c token =>
      simp only [step] at stepped
      split at stepped
      · cases stepped
      · rename_i signed
        obtain rfl := Option.some.inj stepped
        have absent := sound.fresh s.nextId (Nat.le_refl _)
        have unseen := sound.once s.nextId
        simp only [absent, Option.isSome_none, Bool.false_eq_true, if_false] at unseen
        have now : ∀ i f, Function.update s.instances s.nextId
            (some ⟨publishedHeap c, token, none⟩) i = some f →
              i = s.nextId ∧ f = ⟨publishedHeap c, token, none⟩ ∨ s.instances i = some f := by
          intro i f found
          by_cases same : i = s.nextId
          · subst same
            rw [Function.update_self] at found
            exact .inl ⟨rfl, (Option.some.inj found).symm⟩
          · rw [Function.update_of_ne same] at found
            exact .inr found
        have old : ∀ i f, s.instances i = some f → i ≠ s.nextId := by
          rintro i f found rfl
          rw [absent] at found
          cases found
        constructor
        · constructor <;> simp only [Server.put]
          · intro i above
            rw [Function.update_of_ne (by omega)]
            exact sound.fresh i (by omega)
          · intro i
            by_cases same : i = s.nextId
            · subst same
              simp only [List.count_append, List.count_singleton_self, Function.update_self,
                Option.isSome_some, if_true]
              omega
            · have once := sound.once i
              simpa [List.count_append, Function.update_of_ne same, Ne.symm same] using once
          · intro u thread i found holds
            obtain ⟨f, known, lock, shows⟩ := sound.holder u thread i found holds
            exact ⟨f, by rw [Function.update_of_ne (old i f known)]; exact known, lock, shows⟩
          · intro i f found unlocked
            rcases now i f found with ⟨rfl, rfl⟩ | known
            · exact ⟨rfl, fun j f found => by cases found⟩
            · exact sound.free i f known unlocked
          · intro i f found
            rcases now i f found with ⟨rfl, rfl⟩ | known
            · exact signed
            · exact sound.signed i f known
          · intro i f found ended
            rcases now i f found with ⟨rfl, rfl⟩ | known
            · exact absurd ended (by omega)
            · exact sound.stopped i f known ended
        · intro i f known
          refine ⟨f, ?_, rfl, Nat.le_refl _, fun _ => rfl⟩
          simp only [Server.put]
          rw [Function.update_of_ne (old i f known)]
          exact known
  | admitTask id task =>
      simp only [step] at stepped
      split at stepped
      · obtain rfl := Option.some.inj stepped
        exact ⟨sound.spawn (fun i => by simp [Thread.owed]) rfl, Later.refl s⟩
      · obtain rfl := Option.some.inj stepped
        exact ⟨sound, Later.refl s⟩
  | endSession id reason =>
      simp only [step] at stepped
      split at stepped
      · rename_i inside
        obtain rfl := Option.some.inj stepped
        refine ⟨sound.spawn (fun i => ?_) rfl, Later.refl s⟩
        by_cases same : i = id
        · subst same
          have := List.count_pos_iff.mpr inside
          simp only [Thread.owed, List.count_erase_self, List.count_singleton_self]
          omega
        · simp [Thread.owed, List.count_erase_of_ne same, Ne.symm same]
      · obtain rfl := Option.some.inj stepped
        exact ⟨sound, Later.refl s⟩
  | drain =>
      obtain rfl := Option.some.inj stepped
      exact ⟨sound.spawn (fun i => by simp [Thread.owed]) rfl, Later.refl s⟩
  | move t move =>
      obtain ⟨thread, here, stepped⟩ := Option.bind_eq_some_iff.mp stepped
      exact sound_threadStep sound here stepped

end Steps

/-! ### The park before the break -/

/-- The session was broken explicitly, or parked under its token. -/
def Accounted (s : Server d) (id : Nat) (log : List Note) : Prop :=
  .explicit id ∈ log ∨ ∃ e, s.instances id = some e ∧ .parked id e.parkToken ∈ log

/-- What is known of the sessions a thread is about to break. -/
def Thread.Due (s : Server d) : Thread → Prop
  | .owner ids ender => ender = .drain → ∀ id ∈ ids, Note.explicit id ∈ s.log
  | .parking _ _ ender => ender ≠ .drain
  | .breaking id rest ender => Accounted s id s.log ∧
      (ender = .drain → ∀ id ∈ rest, Note.explicit id ∈ s.log)
  | .admitted _ _ | .calling _ _ | .explicit _ | .done => True

/-- With a park store, whatever is broken next has been parked. -/
structure Recorded (s : Server d) : Prop where
  parkedFirst : ParkedFirst s
  due : s.parkDsn = true → ∀ (t : Nat) thread, s.threads[t]? = some thread → thread.Due s

section Park

variable {s s' : Server d} {t : Nat}

theorem Accounted.later {id : Nat} {log log' : List Note} (later : Later s s')
    (grown : ∀ note ∈ log, note ∈ log') (accounted : Accounted s id log) :
    Accounted s' id log' := by
  rcases accounted with explicit | ⟨e, known, parked⟩
  · exact .inl (grown _ explicit)
  · obtain ⟨e', known', token, -⟩ := later id e known
    exact .inr ⟨e', known', by rw [token]; exact grown _ parked⟩

theorem Thread.Due.later {thread : Thread} {notes : List Note} (later : Later s s')
    (log : s'.log = s.log ++ notes) (due : thread.Due s) : thread.Due s' := by
  have grown : ∀ note ∈ s.log, note ∈ s'.log := by
    rw [log]
    exact fun note inside => List.mem_append_left _ inside
  cases thread with
  | owner ids ender => exact fun drain id inside => grown _ (due drain id inside)
  | parking id rest ender => exact due
  | breaking id rest ender =>
      exact ⟨due.1.later later grown, fun drain id inside => grown _ (due.2 drain id inside)⟩
  | admitted id task => trivial
  | calling id future => trivial
  | explicit id => trivial
  | done => trivial

/-- A step that breaks only what was parked, and whose new thread knows what it is
about to break. -/
theorem Recorded.step {notes : List Note} (recorded : Recorded s) (later : Later s s')
    (dsn : s'.parkDsn = s.parkDsn) (log : s'.log = s.log ++ notes)
    (ends : s.parkDsn = true → ∀ id ender, Note.ended id ender ∈ notes → Accounted s id s.log)
    (threads : s.parkDsn = true → ∀ (t : Nat) thread, s'.threads[t]? = some thread →
      s.threads[t]? = some thread ∨ thread.Due s') : Recorded s' := by
  constructor
  · intro parkDsn front back id ender split
    rw [dsn] at parkDsn
    rw [log] at split
    rcases List.append_eq_append_iff.mp split with ⟨more, rfl, inNotes⟩ | ⟨more, before, after⟩
    · have accounted := ends parkDsn id ender (by rw [inNotes]; simp)
      exact accounted.later later fun note inside => List.mem_append_left _ inside
    · cases more with
      | nil =>
          have accounted := ends parkDsn id ender (by rw [List.nil_append] at after; simp [← after])
          rw [List.append_nil] at before
          exact accounted.later later fun note inside => before ▸ inside
      | cons note more =>
          obtain ⟨rfl, -⟩ := List.cons.inj after
          have accounted : Accounted s id front := recorded.parkedFirst parkDsn front more id ender before
          exact accounted.later later fun note inside => inside
  · intro parkDsn u thread found
    rw [dsn] at parkDsn
    rcases threads parkDsn u thread found with before | due
    · exact (recorded.due parkDsn u thread before).later later log
    · exact due

theorem getElem?_set_cases {threads : List Thread} {u : Nat} {new thread : Thread}
    (found : (threads.set t new)[u]? = some thread) :
    threads[u]? = some thread ∨ thread = new := by
  rw [List.getElem?_set] at found
  split at found
  · split at found
    · exact .inr (Option.some.inj found).symm
    · cases found
  · exact .inl found

/-- A step of one thread that breaks only what was parked. -/
theorem Recorded.become {new : Thread} {notes : List Note} (recorded : Recorded s)
    (later : Later s s') (dsn : s'.parkDsn = s.parkDsn) (log : s'.log = s.log ++ notes)
    (threads : s'.threads = s.threads.set t new)
    (ends : s.parkDsn = true → ∀ id ender, Note.ended id ender ∈ notes → Accounted s id s.log)
    (due : s.parkDsn = true → new.Due s') : Recorded s' := by
  refine recorded.step later dsn log ends fun parkDsn u thread found => ?_
  rw [threads] at found
  rcases getElem?_set_cases found with before | rfl
  · exact .inl before
  · exact .inr (due parkDsn)

theorem recorded_threadStep {old : Thread} {move : Move d} (recorded : Recorded s)
    (later : Later s s') (here : s.threads[t]? = some old) (parks : Parks s (.move t move))
    (stepped : threadStep s t old move = some s') : Recorded s' := by
  have silent : s.parkDsn = true → ∀ id ender, Note.ended id ender ∈ ([] : List Note) →
      Accounted s id s.log := fun _ _ _ inside => by cases inside
  unfold threadStep at stepped
  split at stepped
  · obtain ⟨e, known, stepped⟩ := Option.bind_eq_some_iff.mp stepped
    split at stepped
    · obtain ⟨h, asked, stepped⟩ := Option.bind_eq_some_iff.mp stepped
      obtain rfl := Option.some.inj stepped
      exact recorded.become later rfl (List.append_nil _).symm rfl silent fun _ => trivial
    · cases stepped
  · obtain ⟨e, known, stepped⟩ := Option.bind_eq_some_iff.mp stepped
    split at stepped
    · obtain rfl := Option.some.inj stepped
      exact recorded.become later rfl (List.append_nil _).symm rfl silent fun _ => trivial
    · cases stepped
  · obtain ⟨e, known, stepped⟩ := Option.bind_eq_some_iff.mp stepped
    split at stepped
    · obtain ⟨h, worked, stepped⟩ := Option.bind_eq_some_iff.mp stepped
      obtain rfl := Option.some.inj stepped
      exact recorded.become later rfl (List.append_nil _).symm rfl silent fun _ => trivial
    · cases stepped
  · obtain ⟨e, known, stepped⟩ := Option.bind_eq_some_iff.mp stepped
    obtain ⟨h, delivered, stepped⟩ := Option.bind_eq_some_iff.mp stepped
    obtain rfl := Option.some.inj stepped
    exact recorded.become later rfl (List.append_nil _).symm rfl silent fun _ => trivial
  · obtain ⟨e, known, stepped⟩ := Option.bind_eq_some_iff.mp stepped
    obtain ⟨h, broke, stepped⟩ := Option.bind_eq_some_iff.mp stepped
    obtain rfl := Option.some.inj stepped
    exact recorded.become later rfl rfl rfl (fun _ _ _ inside => by simp at inside) fun _ => trivial
  · -- The drain goes on to a session that was broken explicitly; the others park first.
    rename_i id rest ender
    obtain ⟨e, known, stepped⟩ := Option.bind_eq_some_iff.mp stepped
    split at stepped
    · obtain rfl := Option.some.inj stepped
      refine recorded.become later rfl (List.append_nil _).symm rfl silent fun parkDsn => ?_
      have due := recorded.due parkDsn t _ here
      split
      · rename_i parking
        exact parking.2
      · rename_i straight
        have drain : ender = .drain := by
          by_contra other
          exact straight ⟨parkDsn, other⟩
        exact ⟨.inl (due drain id List.mem_cons_self),
          fun _ i inside => due drain i (List.mem_cons_of_mem _ inside)⟩
    · cases stepped
  · -- The park is accepted, or there was an explicit break.
    rename_i id rest ender env
    obtain ⟨e, known, stepped⟩ := Option.bind_eq_some_iff.mp stepped
    obtain rfl := Option.some.inj stepped
    refine recorded.become later rfl rfl rfl ?_ fun parkDsn => ⟨?_, fun drain => ?_⟩
    · intro _ i ender' inside
      simp only [List.mem_singleton, parkNote] at inside
      split at inside <;> cases inside
    · rcases parks id rest ender e here known with ⟨row, accepted⟩ | explicit
      · right
        refine ⟨e, Function.update_self .., List.mem_append_right _ (List.mem_singleton.mpr ?_)⟩
        simp [parkNote, geasInstancePark, accepted]
      · exact .inl (List.mem_append_left _ explicit)
    · exact absurd drain (recorded.due parkDsn t _ here)
  · -- What the ender breaks was accounted for when it took the lock.
    rename_i id rest ender
    obtain ⟨e, known, stepped⟩ := Option.bind_eq_some_iff.mp stepped
    obtain ⟨h, broke, stepped⟩ := Option.bind_eq_some_iff.mp stepped
    obtain rfl := Option.some.inj stepped
    refine recorded.become later rfl rfl rfl ?_ fun parkDsn drain i inside => ?_
    · intro parkDsn i ender' inside
      obtain ⟨rfl, rfl⟩ := Note.ended.inj (List.mem_singleton.mp inside)
      exact (recorded.due parkDsn t _ here).1
    · exact List.mem_append_left _ ((recorded.due parkDsn t _ here).2 drain i inside)
  · cases stepped

theorem recorded_step {act : Act d} (recorded : Recorded s) (later : Later s s')
    (parks : Parks s act) (stepped : step s act = some s') : Recorded s' := by
  have silent : s.parkDsn = true → ∀ id ender, Note.ended id ender ∈ ([] : List Note) →
      Accounted s id s.log := fun _ _ _ inside => by cases inside
  have spawned : ∀ {new thread : Thread} {u : Nat}, (s.threads ++ [new])[u]? = some thread →
      s.threads[u]? = some thread ∨ thread = new := by
    intro new thread u found
    rw [List.getElem?_append] at found
    split at found
    · exact .inl found
    · exact .inr (List.mem_singleton.mp (List.mem_of_getElem? found))
  cases act with
  | insert c token =>
      simp only [step] at stepped
      split at stepped
      · cases stepped
      · obtain rfl := Option.some.inj stepped
        exact recorded.step later rfl (List.append_nil _).symm silent fun _ _ _ found => .inl found
  | admitTask id task =>
      simp only [step] at stepped
      split at stepped
      · obtain rfl := Option.some.inj stepped
        refine recorded.step later rfl (List.append_nil _).symm silent fun _ u thread found => ?_
        rcases spawned found with before | rfl
        · exact .inl before
        · exact .inr trivial
      · obtain rfl := Option.some.inj stepped
        exact recorded
  | endSession id reason =>
      simp only [step] at stepped
      split at stepped
      · obtain rfl := Option.some.inj stepped
        refine recorded.step later rfl (List.append_nil _).symm silent fun _ u thread found => ?_
        rcases spawned found with before | rfl
        · exact .inl before
        · exact .inr fun drain => by cases drain
      · obtain rfl := Option.some.inj stepped
        exact recorded
  | drain =>
      obtain rfl := Option.some.inj stepped
      refine recorded.step later rfl (List.append_nil _).symm silent fun parkDsn u thread found => ?_
      rcases spawned found with before | rfl
      · exact .inl before
      · exact .inr fun _ => parks parkDsn
  | move t move =>
      obtain ⟨thread, here, stepped⟩ := Option.bind_eq_some_iff.mp stepped
      exact recorded_threadStep recorded later here parks stepped

end Park

/-! ### Whole runs -/

theorem sound_start (parkDsn : Bool) (store : ParkTable) : Sound (start parkDsn store : Server d) where
  fresh _ _ := rfl
  once _ := rfl
  holder _ _ _ found := by cases found
  free _ _ known := by cases known
  signed _ _ known := by cases known
  stopped _ _ known := by cases known

theorem recorded_start (parkDsn : Bool) (store : ParkTable) :
    Recorded (start parkDsn store : Server d) where
  parkedFirst _ _ _ _ _ split := by simp [start] at split
  due _ _ _ found := by cases found

/-- What a run whose parks come first keeps. -/
def Kept (s : Server d) : Prop := Sound s ∧ Recorded s

theorem kept_step (s : Server d) (act : Act d) (s' : Server d) (kept : Kept s)
    (parks : Parks s act) (stepped : step s act = some s') : Kept s' := by
  obtain ⟨sound, later⟩ := sound_step kept.1 stepped
  exact ⟨sound, recorded_step kept.2 later parks stepped⟩

/-- In every run of the server, each session is in the table, or with the one thread
that took its row and will break it, or broken by one; no pledge body starts on a
session after the break that ended it; and in every run whose drain finds no session
that is to be parked and whose parks are accepted, each session that was not
explicitly broken was parked under its token before it was broken. -/
theorem session_ends_once (parkDsn : Bool) (store : ParkTable) (acts : List (Act d)) (s : Server d)
    (ran : run step (start parkDsn store) acts = some s) :
    EndsOnce s ∧ (∀ more s', run step s more = some s' → Later s s') ∧
      (Guarded step Parks (start parkDsn store) acts → ParkedFirst s) := by
  have sound : Sound s :=
    run_invariant (fun _ _ _ sound _ stepped => (sound_step sound stepped).1)
      (sound_start parkDsn store) (guarded_true _ acts) ran
  refine ⟨fun id e known => ?_, fun more s' ran' => ?_, fun guarded => ?_⟩
  · have once := sound.once id
    rwa [known] at once
  · exact run_relation Later.refl (fun _ _ _ first second => first.trans second)
      (fun _ _ _ sound _ stepped => sound_step sound stepped) sound (guarded_true _ more) ran'
  · have kept : Kept s :=
      run_invariant kept_step ⟨sound_start parkDsn store, recorded_start parkDsn store⟩ guarded ran
    exact kept.2.parkedFirst

/-- A call is admitted, the stream ends while it waits, and the call still runs
before the session is parked and broken; the handler finds nothing left to end. -/
def calledAndEnded : List (Act soloDesc) :=
  [.insert (freshContract soloDesc [] 0) "token",
    .admitTask 1 (.fulfill ⟨"act", 0, 0, false, false, .ok⟩), .endSession 1 .streamTerminated,
    .move 0 .acquire, .move 0 (.work (.act (.dequeue 0 .ok))),
    .move 0 (.work (.act (.finish .ok (.result 0 none) .ok .ok))), .move 0 .deliver,
    .endSession 1 .handlerExit, .move 1 .acquire, .move 1 (.park ⟨true, true, .ok⟩), .move 1 .brk]

theorem session_ends_once_called :
    ∃ s, run step (start true fun _ => none) calledAndEnded = some s ∧ EndsOnce s ∧
      (∀ more s', run step s more = some s' → Later s s') ∧ ParkedFirst s ∧
        s.log = [.parked 1 "token", .ended 1 (.session .streamTerminated)] := by
  obtain ⟨s, ran⟩ : ∃ s, run step (start true fun _ => none) calledAndEnded = some s := ⟨_, rfl⟩
  have guarded : Guarded step Parks (start true fun _ => none) calledAndEnded := by
    iterate 9
      refine ⟨trivial, fun next stepped => ?_⟩
      obtain rfl := Option.some.inj stepped
    refine ⟨fun id rest ender e here known => ?_, fun next stepped => ⟨trivial, fun _ _ => trivial⟩⟩
    obtain ⟨rfl, rfl, rfl⟩ := Thread.parking.inj (Option.some.inj here)
    obtain rfl := Option.some.inj known
    exact .inl ⟨_, rfl⟩
  obtain ⟨once, later, parkedFirst⟩ := session_ends_once true (fun _ => none) calledAndEnded s ran
  have log : s.log = [.parked 1 "token", .ended 1 (.session .streamTerminated)] := by
    have reads : (run step (start true fun _ => none) calledAndEnded).map Server.log =
        some [.parked 1 "token", .ended 1 (.session .streamTerminated)] := by decide +kernel
    rw [ran] at reads
    exact Option.some.inj reads
  exact ⟨s, ran, once, later, parkedFirst guarded, log⟩

/-- A session that is in the table when the server shuts down. -/
def drained : List (Act soloDesc) :=
  [.insert (freshContract soloDesc [] 0) "token", .drain, .move 0 .acquire, .move 0 .brk]

/-- The drain breaks it, and nothing was parked. -/
theorem drained_without_park :
    ∃ s, run step (start true fun _ => none) drained = some s ∧ s.log = [.ended 1 .drain] ∧
      ¬ ParkedFirst s := by
  refine ⟨_, rfl, rfl, fun parkedFirst => ?_⟩
  rcases parkedFirst rfl [] [] 1 .drain rfl with explicit | ⟨e, -, parked⟩
  · cases explicit
  · cases parked

end Geas.Interop.Endings
