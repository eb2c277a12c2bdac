import Geas.Runtime.Episodes

/-!
# Writes and what becomes of them

Every store write of an instance goes through its one connection.  Outside a
transaction the backend makes it durable at once; inside one it is buffered, and
a commit makes the buffer durable, a rollback or a close drops it.  Which pledge
issued the write plays no part.

Over this the module says when a contract that reads Broken has no transaction
left behind, and when a write outside the transactional subcontracts is durable
the moment it returns.
-/

namespace Geas.Runtime

open Geas.Abi
open Geas.Lib.Transition

variable {d : GeasContractDesc}

/-- The writes of a connection, by number: those that are durable, and those inside
the transaction that is open. -/
structure Database where
  durable : List Nat
  buffered : List Nat

/-- What an event makes of them. -/
def Database.after (db : Database) : Event d → Database
  | .committed _ answer => if answer = .ok then ⟨db.durable ++ db.buffered, []⟩ else db
  | .rolledBack _ => ⟨db.durable, []⟩
  | .broke => ⟨db.durable, []⟩
  | .began _ _ | .started _ | .returned _ _ _ _ | .refused _ _ => db

/-- An instance, the number of its writes that returned `Ok` so far, and its
database. -/
structure StoreSys (d : GeasContractDesc) where
  sys : Sys d
  count : Nat
  db : Database

/-- A step of the runtime, or a store write of the running body that returns
`Ok`. -/
inductive StoreAction (d : GeasContractDesc) where
  | act (action : Action d)
  | write

/-- The database after a write outside or inside a transaction. -/
def Database.write (db : Database) (inside : Bool) (number : Nat) : Database :=
  if inside then { db with buffered := db.buffered ++ [number] }
  else { db with durable := db.durable ++ [number] }

/-- A write needs a body to issue it and a connection. -/
def storeStep (s : StoreSys d) : StoreAction d → Option (StoreSys d)
  | .act action =>
      (step s.sys action).map fun sys =>
        { s with
          sys := sys
          db := (sys.log.drop s.sys.log.length).foldl Database.after s.db }
  | .write =>
      if s.sys.running = [] ∨ s.sys.c.store = false then none
      else some { s with
        count := s.count + 1
        db := s.db.write (connOpen s.sys.log) s.count }

/-- A freshly signed instance. -/
def signedStore (d : GeasContractDesc) (vowVals : List GeasValue) (signedAt : Int64) :
    StoreSys d :=
  ⟨signedSys d vowVals signedAt, 0, ⟨[], []⟩⟩

/-- A condition on the steps of the runtime. -/
def OnAct (guard : Sys d → Action d → Prop) (s : StoreSys d) : StoreAction d → Prop
  | .act action => guard s.sys action
  | .write => True

/-! ## What the events do to the writes -/

theorem Database.after_durable (db : Database) (event : Event d) :
    db.durable ⊆ (db.after event).durable := by
  intro number durable
  cases event with
  | committed sub answer =>
      by_cases granted : answer = .ok
      · simp only [Database.after, if_pos granted]
        exact List.mem_append_left _ durable
      · simpa only [Database.after, if_neg granted] using durable
  | began | rolledBack | broke | started | returned | refused => exact durable

theorem Database.after_source (db : Database) (event : Event d) :
    (db.after event).durable ++ (db.after event).buffered ⊆ db.durable ++ db.buffered := by
  intro number written
  cases event with
  | committed sub answer =>
      by_cases granted : answer = .ok
      · simpa only [Database.after, if_pos granted, List.append_nil] using written
      · simpa only [Database.after, if_neg granted] using written
  | rolledBack | broke =>
      simp only [Database.after, List.append_nil] at written
      exact List.mem_append_left _ written
  | began | started | returned | refused => exact written

/-- A connection outside a transaction has nothing buffered. -/
theorem Database.after_drained {db : Database} {isOpen : Bool}
    (drained : isOpen = false → db.buffered = []) (event : Event d)
    (closed : connAfter isOpen event = false) : (db.after event).buffered = [] := by
  cases event with
  | committed sub answer =>
      by_cases granted : answer = .ok
      · simp only [Database.after, if_pos granted]
      · simp only [Database.after, if_neg granted]
        exact drained (by simpa [connAfter, granted] using closed)
  | began sub answer =>
      simp only [connAfter, Bool.or_eq_false_iff] at closed
      exact drained closed.1
  | rolledBack | broke => rfl
  | started | returned | refused => exact drained closed

theorem Database.write_durable (db : Database) (inside : Bool) (number : Nat) :
    db.durable ⊆ (db.write inside number).durable := by
  cases inside with
  | true => exact List.Subset.refl _
  | false => exact List.subset_append_left _ _

theorem Database.write_source (db : Database) (inside : Bool) (number : Nat) :
    (db.write inside number).durable ++ (db.write inside number).buffered ⊆
      number :: (db.durable ++ db.buffered) := by
  intro other written
  cases inside with
  | true =>
      change other ∈ db.durable ++ (db.buffered ++ [number]) at written
      simp only [List.mem_append, List.mem_cons] at written ⊢
      tauto
  | false =>
      change other ∈ db.durable ++ [number] ++ db.buffered at written
      simp only [List.mem_append, List.mem_cons] at written ⊢
      tauto

section Fold

variable (events : List (Event d))

theorem foldl_after_durable (db : Database) :
    db.durable ⊆ (events.foldl Database.after db).durable := by
  induction events generalizing db with
  | nil => exact List.Subset.refl _
  | cons event rest ih => exact List.Subset.trans (db.after_durable event) (ih _)

theorem foldl_after_source (db : Database) :
    (events.foldl Database.after db).durable ++ (events.foldl Database.after db).buffered ⊆
      db.durable ++ db.buffered := by
  induction events generalizing db with
  | nil => exact List.Subset.refl _
  | cons event rest ih => exact List.Subset.trans (ih _) (db.after_source event)

theorem foldl_after_drained {db : Database} {isOpen : Bool}
    (drained : isOpen = false → db.buffered = [])
    (closed : events.foldl connAfter isOpen = false) :
    (events.foldl Database.after db).buffered = [] := by
  induction events generalizing db isOpen with
  | nil => exact drained closed
  | cons event rest ih => exact ih (Database.after_drained drained event) closed

end Fold

/-! ## The writes over whole runs -/

/-- The database is made of the writes so far, and a buffer needs a transaction. -/
structure StoreInvariant (s : StoreSys d) : Prop where
  numbered : ∀ number ∈ s.db.durable ++ s.db.buffered, number < s.count
  drained : connOpen s.sys.log = false → s.db.buffered = []

theorem signedStore_invariant (vowVals : List GeasValue) (signedAt : Int64) :
    StoreInvariant (signedStore d vowVals signedAt) :=
  ⟨nofun, fun _ => rfl⟩

/-- A step of the runtime appends to the log and folds what it appended. -/
theorem storeStep_act {s t : StoreSys d} {action : Action d}
    (stepped : storeStep s (.act action) = some t) :
    step s.sys action = some t.sys ∧ t.count = s.count ∧ ∃ more, t.sys.log = s.sys.log ++ more ∧
      t.db = more.foldl Database.after s.db := by
  obtain ⟨sys, taken, rfl⟩ := Option.map_eq_some_iff.mp stepped
  obtain ⟨more, log, -⟩ := step_extends taken
  refine ⟨taken, rfl, more, log, ?_⟩
  dsimp only
  rw [log, List.drop_left]

theorem storeStep_write {s t : StoreSys d} (stepped : storeStep s .write = some t) :
    s.sys.c.store = true ∧ t = { s with
      count := s.count + 1
      db := s.db.write (connOpen s.sys.log) s.count } := by
  simp only [storeStep] at stepped
  split at stepped
  · cases stepped
  · next able =>
    cases stepped
    exact ⟨by simpa using (not_or.mp able).2, rfl⟩

theorem storeStep_invariant {s t : StoreSys d} {action : StoreAction d} (holds : StoreInvariant s)
    (stepped : storeStep s action = some t) : StoreInvariant t := by
  cases action with
  | act action =>
      obtain ⟨-, count, more, log, db⟩ := storeStep_act stepped
      constructor
      · intro number written
        rw [db] at written
        rw [count]
        exact holds.numbered number (foldl_after_source more s.db written)
      · rw [log, connOpen_append, db]
        exact foldl_after_drained more holds.drained
  | write =>
      obtain ⟨-, rfl⟩ := storeStep_write stepped
      constructor
      · intro number written
        rcases List.mem_cons.mp (s.db.write_source _ _ written) with rfl | earlier
        · exact Nat.lt_succ_self _
        · exact Nat.lt_succ_of_lt (holds.numbered number earlier)
      · intro closed
        change connOpen s.sys.log = false at closed
        dsimp only
        rw [closed]
        exact holds.drained closed

/-- What is durable in `s` is durable in `t`. -/
def KeepsDurable (s t : StoreSys d) : Prop := s.db.durable ⊆ t.db.durable

theorem storeStep_keepsDurable {s t : StoreSys d} {action : StoreAction d}
    (stepped : storeStep s action = some t) : KeepsDurable s t := by
  unfold KeepsDurable
  cases action with
  | act action =>
      obtain ⟨-, -, more, -, db⟩ := storeStep_act stepped
      rw [db]
      exact foldl_after_durable more s.db
  | write =>
      obtain ⟨-, rfl⟩ := storeStep_write stepped
      exact s.db.write_durable _ _

theorem run_keepsDurable {s t : StoreSys d} {actions : List (StoreAction d)}
    (ran : run storeStep s actions = some t) : KeepsDurable s t :=
  run_relation (fun _ => List.Subset.refl _) (fun _ _ _ => List.Subset.trans)
    (fun _ _ _ (_ : True) _ stepped => ⟨trivial, storeStep_keepsDurable stepped⟩) trivial
    (guarded_true s actions) ran

/-- A property of the instance. -/
def OnSys (property : Sys d → Prop) (s : StoreSys d) : Prop := property s.sys

/-- What every guarded step of the runtime keeps, every guarded run with its writes
keeps. -/
theorem run_onSys {invariant : Sys d → Prop} {guard : Sys d → Action d → Prop}
    (keeps : ∀ s action t, invariant s → guard s action → step s action = some t → invariant t)
    {s t : StoreSys d} {actions : List (StoreAction d)} (start : invariant s.sys)
    (guarded : Guarded storeStep (OnAct guard) s actions)
    (ran : run storeStep s actions = some t) : invariant t.sys := by
  have keeps' : ∀ (state : StoreSys d) label next, OnSys invariant state →
      OnAct guard state label → storeStep state label = some next → OnSys invariant next := by
    intro state label next holds admitted stepped
    cases label with
    | act action => exact keeps _ _ _ holds admitted (storeStep_act stepped).1
    | write =>
        obtain ⟨-, rfl⟩ := storeStep_write stepped
        exact holds
  have last : OnSys invariant t := run_invariant keeps' start guarded ran
  exact last

theorem run_storeInvariant {s t : StoreSys d} {actions : List (StoreAction d)}
    (start : StoreInvariant s) (ran : run storeStep s actions = some t) : StoreInvariant t :=
  run_invariant (fun _ _ _ holds _ => storeStep_invariant holds) start (guarded_true s actions) ran

/-! ## Loose writes -/

theorem signedSys_episodeInvariant (vowVals : List GeasValue) (signedAt : Int64) :
    EpisodeInvariant (signedSys d vowVals signedAt) :=
  (signedLineage_invariant vowVals signedAt).episodes

/-- Whichever pledge issues it, inside a transactional subcontract or outside all of
them, a write is durable from the moment it returns on exactly when no episode of
the instance is open at that moment. -/
theorem loose_write_durable_iff {vowVals : List GeasValue} {signedAt : Int64}
    {actions : List (StoreAction d)} {s t : StoreSys d}
    (refused : Guarded storeStep (OnAct BeginRefused) (signedStore d vowVals signedAt) actions)
    (reached : run storeStep (signedStore d vowVals signedAt) actions = some s)
    (wrote : storeStep s .write = some t) :
    (∀ back u, run storeStep t back = some u → s.count ∈ u.db.durable) ↔
      ∀ sub, s.sys.c.subTxn sub ≠ .txnOpen := by
  have episodes : EpisodeInvariant s.sys := run_onSys (fun _ _ _ => step_episodeInvariant)
    (signedSys_episodeInvariant vowVals signedAt) refused reached
  have writes := run_storeInvariant (signedStore_invariant vowVals signedAt) reached
  obtain ⟨store, rfl⟩ := storeStep_write wrote
  have conn := episodes.conn
  constructor
  · intro durable sub opened
    have inside : connOpen s.sys.log = true := conn.mpr ⟨store, sub, opened⟩
    have here : s.count ∈ (s.db.write (connOpen s.sys.log) s.count).durable := durable [] _ rfl
    rw [inside] at here
    exact Nat.lt_irrefl _ (writes.numbered _ (List.mem_append_left _ here))
  · intro none back u ran
    have outside : connOpen s.sys.log = false := by
      by_contra inside
      obtain ⟨-, sub, opened⟩ := conn.mp (by simpa using inside)
      exact none sub opened
    refine run_keepsDurable ran ?_
    dsimp only
    rw [outside]
    exact List.mem_append_right _ List.mem_cons_self

/-- The ledger with a pledge outside its transfer, whose `Err` breaks the contract. -/
def auditedDesc : GeasContractDesc :=
  { ledgerDesc with
    name := "Audited"
    pledges := [⟨"debit", 0, 0⟩, ⟨"credit", 0, 0⟩, ⟨"note", 0, -1⟩]
    atoms := [⟨atomBroken, -1, 2⟩]
    hasReqs := true
    reqBreak := [⟨reqAtom, 0⟩] }

/-- The pledge outside the transfer. -/
def note : Fin auditedDesc.npledges := ⟨2, by decide⟩

/-- A body is called; `begun` answers the `BEGIN` it may ask for. -/
def called (name : String) (begun : GeasStatus) : StoreAction auditedDesc :=
  .act (.inline ⟨name, 0, 0, false, false, .ok⟩ begun)

/-- The running body returns. -/
def returns (out : GeasValue) : StoreAction auditedDesc := .act (.finish .ok out .ok .ok)

/-- An `Ok` a body returns. -/
def consent : GeasValue := .result 0 (some (.unit 0))

theorem loose_write_durable_iff_note :
    ∃ s t : StoreSys auditedDesc,
      run storeStep (signedStore auditedDesc [] 0) [called "note" .ok] = some s ∧
      s.sys.running.map Thunk.pidx = [note] ∧ pledgeTxnSub auditedDesc note = none ∧
      storeStep s .write = some t ∧
      ∀ back u, run storeStep t back = some u → s.count ∈ u.db.durable := by
  obtain ⟨s, reached⟩ : ∃ s, run storeStep (signedStore auditedDesc [] 0) [called "note" .ok] =
      some s := ⟨_, rfl⟩
  obtain ⟨t, wrote⟩ : ∃ t, storeStep s .write = some t := by
    cases reached
    exact ⟨_, rfl⟩
  have refused : Guarded storeStep (OnAct BeginRefused) (signedStore auditedDesc [] 0)
      [called "note" .ok] := by
    refine ⟨fun _ opened => ?_, fun _ _ => trivial⟩
    cases opened
  have none : ∀ sub, s.sys.c.subTxn sub ≠ .txnOpen := by
    cases reached
    exact fun _ => nofun
  have running : s.sys.running.map Thunk.pidx = [note] := by
    cases reached
    rfl
  exact ⟨s, t, reached, running, rfl, wrote,
    (loose_write_durable_iff refused reached wrote).mpr none⟩

/-- A step that cannot open a transaction. -/
theorem onAct_beginRefused {s : StoreSys d} {action : Action d} (begun : action.begun ≠ some .ok) :
    OnAct BeginRefused s (.act action) := fun _ _ => begun

/-- The write of a pledge outside the transfer returns inside the open transaction
and vanishes with it when `credit` fails. -/
theorem loose_write_rolled_back :
    ∃ s t u : StoreSys auditedDesc,
      Guarded storeStep (OnAct BeginRefused) (signedStore auditedDesc [] 0)
        [called "debit" .ok, returns consent, called "note" .errStore] ∧
      run storeStep (signedStore auditedDesc [] 0)
        [called "debit" .ok, returns consent, called "note" .errStore] = some s ∧
      s.sys.running.map Thunk.pidx = [note] ∧ pledgeTxnSub auditedDesc note = none ∧
      storeStep s .write = some t ∧
      run storeStep t [returns consent, called "credit" .errStore, returns refusal] = some u ∧
      s.count ∉ u.db.durable ∧ u.db.buffered = [] := by
  have refused : Guarded storeStep (OnAct BeginRefused) (signedStore auditedDesc [] 0)
      [called "debit" .ok, returns consent, called "note" .errStore] := by
    refine ⟨fun _ opened => ?_, fun _ _ => ⟨onAct_beginRefused nofun, fun _ _ =>
      ⟨onAct_beginRefused (by simp [Action.begun]), fun _ _ => trivial⟩⟩⟩
    cases opened
  obtain ⟨s, reached⟩ : ∃ s, run storeStep (signedStore auditedDesc [] 0)
      [called "debit" .ok, returns consent, called "note" .errStore] = some s := ⟨_, rfl⟩
  obtain ⟨t, wrote⟩ : ∃ t, storeStep s .write = some t := by
    cases reached
    exact ⟨_, rfl⟩
  obtain ⟨u, later⟩ : ∃ u, run storeStep t
      [returns consent, called "credit" .errStore, returns refusal] = some u := by
    cases reached
    cases wrote
    exact ⟨_, rfl⟩
  cases reached
  cases wrote
  cases later
  exact ⟨_, _, _, refused, rfl, rfl, rfl, rfl, rfl, by decide, rfl⟩

/-! ## Breaks -/

/-- When the policy breaks the contract on an outcome, every open episode is the
returning pledge's own, and the outcome ends it: an `Err`, or the `Ok` that
completes the subcontract. -/
def BreaksCleanly (s : Sys d) : Action d → Prop
  | .finish .ok out _ _ => ∀ thunk rest, s.running = thunk :: rest → s.c.state ≠ .broken →
      evalPolicy d (latchPledge s.c thunk.pidx out).pledgeState s.c.state = .broken →
      ∀ sub, IsOpen s.c sub → pledgeTxnSub d thunk.pidx = some sub ∧ (isErr out = true ∨
        subAll d (latchPledge s.c thunk.pidx out).pledgeState (sub : Nat) .fulfilled = true)
  | _ => True

/-- A transaction belongs to an open episode, and a Broken instance has neither. -/
structure BreakInvariant (s : Sys d) : Prop where
  opened : connOpen s.log = true → s.c.store = true ∧ ∃ sub, IsOpen s.c sub
  closed : s.c.state = .broken →
    connOpen s.log = false ∧ (s.c.store = true → ∀ sub, ¬IsOpen s.c sub)

theorem signedSys_breakInvariant (vowVals : List GeasValue) (signedAt : Int64) :
    BreakInvariant (signedSys d vowVals signedAt) :=
  ⟨nofun, nofun⟩

/-- An instance without a transaction and without open episodes opens none once it
is Broken. -/
theorem step_stays_closed {s t : Sys d} {action : Action d} (broken : s.c.state = .broken)
    (conn : connOpen s.log = false) (none : s.c.store = true → ∀ sub, ¬IsOpen s.c sub)
    (stepped : step s action = some t) :
    connOpen t.log = false ∧ (t.c.store = true → ∀ sub, ¬IsOpen t.c sub) := by
  rcases step_episodes stepped with ⟨fates, store, same⟩ | ⟨_, gate, -⟩ |
    ⟨sub, store, -, opened, -⟩ | ⟨-, -, closed, conn'⟩
  · rw [same, store]
    simp only [IsOpen, fates]
    exact ⟨conn, none⟩
  · rw [broken] at gate
    cases gate
  · exact absurd opened (none store sub)
  · exact ⟨conn', fun store => absurd (closed.symm.trans store) Bool.false_ne_true⟩

/-- The outcome that breaks the contract leaves nothing open. -/
theorem leave_breaks_clean {s : Sys d} {thunk : Thunk d} {out : GeasValue}
    (holds : BreakInvariant s) (rest : List (Thunk d)) (commit writeBack : GeasStatus)
    (clean : ∀ sub, IsOpen s.c sub → pledgeTxnSub d thunk.pidx = some sub ∧ (isErr out = true ∨
      subAll d (latchPledge s.c thunk.pidx out).pledgeState (sub : Nat) .fulfilled = true)) :
    connOpen (leave s thunk rest .ok out commit writeBack).log = false ∧
      (s.c.store = true → ∀ sub, ¬IsOpen (leave s thunk rest .ok out commit writeBack).c sub) := by
  have latches : (settle s.c thunk.pidx .ok out commit).c.pledgeState =
      (latchPledge s.c thunk.pidx out).pledgeState := by
    rw [settle_pledgeState, if_pos rfl]
  rw [leave_connOpen]
  rcases settle_cases s.c thunk.pidx .ok commit out with ⟨events, -, fates, idle⟩ |
    ⟨own, inside, store, opened, fates, -⟩
  · have none : s.c.store = true → ∀ sub, ¬IsOpen s.c sub := by
      intro store sub opened
      obtain ⟨inside, ends⟩ := clean sub opened
      obtain ⟨-, fine, partly⟩ := idle sub inside store opened
      rw [latches] at partly
      rcases ends with failed | complete
      · exact Bool.false_ne_true (fine.symm.trans failed)
      · exact Bool.false_ne_true (partly.symm.trans complete)
    refine ⟨?_, ?_⟩
    · rw [events]
      by_contra inside
      obtain ⟨store, sub, opened⟩ := holds.opened (by simpa using inside)
      exact none store sub opened
    · intro store sub opened
      change (settle s.c thunk.pidx .ok out commit).c.subTxn sub = .txnOpen at opened
      rw [fates] at opened
      exact none store sub opened
  · rcases settle_closes s.c thunk.pidx .ok commit out (connOpen s.log) with ⟨same, -⟩ |
      ⟨_, -, -, -, -, conn⟩
    · have moved := congrFun (fates.symm.trans same) own
      rw [Function.update_self, opened] at moved
      cases moved
    · refine ⟨conn, fun _ sub still => ?_⟩
      change (settle s.c thunk.pidx .ok out commit).c.subTxn sub = .txnOpen at still
      rw [fates] at still
      by_cases same : sub = own
      · rw [same, Function.update_self] at still
        cases still
      · rw [Function.update_of_ne same] at still
        exact same (Option.some.inj ((clean sub still).1.symm.trans inside))

theorem step_breakInvariant {s t : Sys d} {action : Action d} (holds : BreakInvariant s)
    (clean : BreaksCleanly s action) (stepped : step s action = some t) : BreakInvariant t := by
  constructor
  · intro inside
    rcases step_episodes stepped with ⟨fates, store, same⟩ | ⟨sub, -, -, store, -, -, -, fates, -⟩ |
      ⟨_, -, -, -, -, conn⟩ | ⟨-, -, -, conn⟩
    · rw [store]
      simp only [IsOpen, fates]
      exact holds.opened (same.symm.trans inside)
    · exact ⟨store, sub, by rw [IsOpen, fates, Function.update_self]⟩
    · exact absurd (conn.symm.trans inside) Bool.false_ne_true
    · exact absurd (conn.symm.trans inside) Bool.false_ne_true
  · intro broken
    by_cases already : s.c.state = .broken
    · obtain ⟨conn, none⟩ := holds.closed already
      exact step_stays_closed already conn none stepped
    · rcases step_cases stepped with ⟨c, -, -⟩ | ⟨futures, thunk, begun, -, -, -, rfl⟩ |
        ⟨thunk, rest, status, out, commit, writeBack, rfl, running, rfl⟩ | ⟨-, -, rfl⟩
      · rw [c] at broken
        exact absurd broken already
      · rw [enter_state] at broken
        exact absurd broken already
      · change (settle s.c thunk.pidx status out commit).c.state = .broken at broken
        rw [settle_state] at broken
        split at broken
        · next ok =>
          subst ok
          obtain ⟨conn, none⟩ := leave_breaks_clean holds rest commit writeBack
            (clean thunk rest running already broken)
          refine ⟨conn, fun store => none ?_⟩
          exact (settle_store ..).symm.trans store
        · exact absurd broken already
      · refine ⟨?_, fun store => absurd store Bool.false_ne_true⟩
        rw [connOpen_append]
        rfl

/-- `u` comes after `t`, which was Broken with nothing open: it is so still, and what
became durable since was written since. -/
structure Sealed (t u : StoreSys d) : Prop where
  state : u.sys.c.state = .broken
  conn : connOpen u.sys.log = false
  none : u.sys.c.store = true → ∀ sub, ¬IsOpen u.sys.c sub
  drained : u.db.buffered = []
  later : t.count ≤ u.count
  durable : ∀ number ∈ u.db.durable, number ∈ t.db.durable ∨ t.count ≤ number

theorem storeStep_sealed {t u v : StoreSys d} {action : StoreAction d} (holds : Sealed t u)
    (stepped : storeStep u action = some v) : Sealed t v := by
  cases action with
  | act action =>
      obtain ⟨taken, count, more, log, db⟩ := storeStep_act stepped
      obtain ⟨conn, none⟩ := step_stays_closed holds.state holds.conn holds.none taken
      obtain ⟨_, -, stays⟩ := step_extends taken
      refine ⟨(stays holds.state).1, conn, none, ?_, count ▸ holds.later, ?_⟩
      · rw [db]
        rw [log, connOpen_append] at conn
        exact foldl_after_drained more (fun _ => holds.drained) conn
      · intro number durable
        rw [db] at durable
        have source := foldl_after_source more u.db (List.mem_append_left _ durable)
        rw [holds.drained, List.append_nil] at source
        exact holds.durable number source
  | write =>
      obtain ⟨-, rfl⟩ := storeStep_write stepped
      have later := holds.later
      refine ⟨holds.state, holds.conn, holds.none, ?_, Nat.le_succ_of_le later, ?_⟩
      · dsimp only
        rw [holds.conn]
        exact holds.drained
      · intro number written
        have source := u.db.write_source _ _ (List.mem_append_left _ written)
        rw [holds.drained, List.append_nil] at source
        rcases List.mem_cons.mp source with rfl | earlier
        · exact Or.inr later
        · exact holds.durable number earlier

/-- In every run in which the policy breaks the contract cleanly, a Broken instance
has no transaction and no open episode left, and none of the writes that were not
durable then ever become so. -/
theorem broken_leaves_nothing_open {vowVals : List GeasValue} {signedAt : Int64}
    {actions : List (StoreAction d)} {t : StoreSys d}
    (clean : Guarded storeStep (OnAct BreaksCleanly) (signedStore d vowVals signedAt) actions)
    (reached : run storeStep (signedStore d vowVals signedAt) actions = some t)
    (broken : t.sys.c.state = .broken) :
    connOpen t.sys.log = false ∧ (t.sys.c.store = true → ∀ sub, t.sys.c.subTxn sub ≠ .txnOpen) ∧
      ∀ back u, run storeStep t back = some u →
        ∀ number < t.count, number ∈ u.db.durable → number ∈ t.db.durable := by
  have breaks : BreakInvariant t.sys := run_onSys (fun _ _ _ => step_breakInvariant)
    (signedSys_breakInvariant vowVals signedAt) clean reached
  have writes := run_storeInvariant (signedStore_invariant vowVals signedAt) reached
  obtain ⟨conn, none⟩ := breaks.closed broken
  refine ⟨conn, none, fun back u ran number earlier durable => ?_⟩
  have start : Sealed t t :=
    ⟨broken, conn, none, writes.drained conn, le_refl _, fun _ => Or.inl⟩
  have after : Sealed t u :=
    run_invariant (fun _ _ _ holds _ => storeStep_sealed holds) start (guarded_true t back) ran
  rcases after.durable number durable with before | since
  · exact before
  · exact absurd earlier (Nat.not_lt.mpr since)

theorem broken_leaves_nothing_open_debit :
    ∃ t : StoreSys auditedDesc, run storeStep (signedStore auditedDesc [] 0)
        [called "debit" .ok, .write, returns consent, .act .brk] = some t ∧
      t.count = 1 ∧ connOpen t.sys.log = false ∧
      ∀ back u, run storeStep t back = some u → 0 ∉ u.db.durable := by
  obtain ⟨t, reached⟩ : ∃ t, run storeStep (signedStore auditedDesc [] 0)
      [called "debit" .ok, .write, returns consent, .act .brk] = some t := ⟨_, rfl⟩
  have clean : Guarded storeStep (OnAct BreaksCleanly) (signedStore auditedDesc [] 0)
      [called "debit" .ok, .write, returns consent, .act .brk] := by
    refine ⟨trivial, fun _ entered => ⟨trivial, fun _ wrote => ⟨?_, fun _ _ =>
      ⟨trivial, fun _ _ => trivial⟩⟩⟩⟩
    cases entered
    cases wrote
    intro thunk rest running _ breaks
    cases running
    exact absurd breaks (by decide)
  have reads : t.sys.c.state = .broken ∧ t.count = 1 ∧ t.db.durable = [] := by
    cases reached
    exact ⟨rfl, rfl, rfl⟩
  obtain ⟨broken, count, empty⟩ := reads
  obtain ⟨conn, -, kept⟩ := broken_leaves_nothing_open clean reached broken
  refine ⟨t, reached, count, conn, fun back u ran durable => ?_⟩
  have earlier := kept back u ran 0 (by rw [count]; decide) durable
  rw [empty] at earlier
  cases earlier

/-- The `Err` of a pledge outside the transfer breaks the contract and leaves the
transfer's transaction open, with its write in it. -/
theorem broken_with_open_transaction :
    ∃ t : StoreSys auditedDesc, run storeStep (signedStore auditedDesc [] 0)
        [called "debit" .ok, .write, returns consent, called "note" .errStore,
          returns refusal] = some t ∧
      t.sys.c.state = .broken ∧ connOpen t.sys.log = true ∧
      t.sys.c.subTxn ⟨0, by decide⟩ = .txnOpen ∧ t.db.buffered = [0] := by
  obtain ⟨t, reached⟩ : ∃ t, run storeStep (signedStore auditedDesc [] 0)
      [called "debit" .ok, .write, returns consent, called "note" .errStore,
        returns refusal] = some t := ⟨_, rfl⟩
  cases reached
  exact ⟨_, rfl, by decide, rfl, rfl, rfl⟩

end Geas.Runtime
