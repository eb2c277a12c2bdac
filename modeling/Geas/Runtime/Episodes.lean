import Geas.Runtime.ParkRoundTrip
import Geas.Runtime.Transactions
import Mathlib.Logic.Relation

/-!
# Episodes and their connection

All transactional subcontracts of an instance share one connection, and the
connection has at most one transaction.  What the connection is in follows from
the store operations in the log: a `BEGIN` the backend took opens a transaction,
a `COMMIT` it took, a `ROLLBACK` and a close end it.  The backend refuses a
`BEGIN` inside a transaction, which `BeginRefused` says of the answers of a step.

The invariant ties the fates the runtime keeps to the connection.  From it follow
the episode state machine over whole lineages, crossings of the park table
included, when a break leaves no transaction behind, and when a rolled back
subcontract reads broken.
-/

namespace Geas.Runtime

open Geas.Abi
open Geas.Lib.Transition

variable {d : GeasContractDesc}

/-- What an event makes of the connection, given whether a transaction was open. -/
def connAfter (isOpen : Bool) : Event d → Bool
  | .began _ answer => isOpen || answer == .ok
  | .committed _ answer => isOpen && answer != .ok
  | .rolledBack _ => false
  | .broke => false
  | .started _ | .returned _ _ _ _ | .refused _ _ => isOpen

/-- Whether the connection is inside a transaction. -/
def connOpen (log : List (Event d)) : Bool := log.foldl connAfter false

/-- The step is a call that asks the backend for a `BEGIN`. -/
def AsksBegin (s : Sys d) (action : Action d) : Prop :=
  ∃ p sub, Calls s action p ∧ pledgeTxnSub d p = some sub ∧ s.c.store = true ∧
    s.c.subTxn sub = .txnNone

/-- The backend takes no `BEGIN` inside a transaction. -/
def BeginRefused (s : Sys d) (action : Action d) : Prop :=
  AsksBegin s action → connOpen s.log = true → action.begun ≠ some .ok

/-- The episode of `sub` is open in the runtime's books. -/
abbrev IsOpen (c : GeasContract d) (sub : Fin d.nsubs) : Prop := c.subTxn sub = .txnOpen

/-- The connection is inside a transaction exactly when an instance with a
connection has an open episode, and it has at most one. -/
structure EpisodeInvariant (s : Sys d) : Prop where
  one : s.c.store = true → ∀ left right, IsOpen s.c left → IsOpen s.c right → left = right
  conn : connOpen s.log = true ↔ s.c.store = true ∧ ∃ sub, IsOpen s.c sub

theorem connOpen_append (log more : List (Event d)) :
    connOpen (log ++ more) = more.foldl connAfter (connOpen log) := List.foldl_append

/-! ## Fates move one way -/

/-- The fates one step may lead to. -/
def FateStep : TxnFate → TxnFate → Prop
  | .txnNone, after => after = .txnNone ∨ after = .txnOpen
  | .txnOpen, after => after = .txnOpen ∨ after = .txnDone
  | .txnDone, after => after = .txnDone

theorem FateStep.refl (fate : TxnFate) : FateStep fate fate := by
  cases fate
  · exact Or.inl rfl
  · exact Or.inl rfl
  · rfl

/-! ## What a step does to the books and the connection -/

/-- Before a thunk: the episodes and the connection stay as they were, or the
episode of the thunk's subcontract is opened with a `BEGIN`. -/
theorem txnBefore_opens (c : GeasContract d) (p : Fin d.npledges) (answer : GeasStatus)
    (isOpen : Bool) :
    ((txnBefore c p answer).c = c ∧
        (txnBefore c p answer).events.foldl connAfter isOpen = isOpen) ∨
      ∃ sub, pledgeTxnSub d p = some sub ∧ c.store = true ∧ c.subTxn sub = .txnNone ∧
        answer = .ok ∧ (txnBefore c p answer).events.foldl connAfter isOpen = true ∧
        (txnBefore c p answer).c =
          { c with subTxn := Function.update c.subTxn sub .txnOpen } := by
  unfold txnBefore
  cases inside : pledgeTxnSub d p with
  | none => exact Or.inl ⟨rfl, rfl⟩
  | some sub =>
      by_cases closed : c.store = false
      · simp only [if_pos closed]
        exact Or.inl ⟨trivial, rfl⟩
      · simp only [if_neg closed]
        cases fate : c.subTxn sub with
        | txnDone => exact Or.inl ⟨rfl, rfl⟩
        | txnOpen => exact Or.inl ⟨rfl, rfl⟩
        | txnNone =>
            by_cases granted : answer = .ok
            · refine Or.inr ⟨sub, rfl, by simpa using closed, fate, granted, ?_⟩
              simp [granted, connAfter]
            · refine Or.inl ?_
              simp [granted, connAfter]

/-- After a thunk: nothing, or the thunk's open episode is closed and the
connection with it. -/
theorem settle_closes (c : GeasContract d) (p : Fin d.npledges) (status answer : GeasStatus)
    (out : GeasValue) (isOpen : Bool) :
    ((settle c p status out answer).c.subTxn = c.subTxn ∧
        (settle c p status out answer).events.foldl connAfter isOpen = isOpen) ∨
      ∃ sub, pledgeTxnSub d p = some sub ∧ c.store = true ∧ IsOpen c sub ∧
        (settle c p status out answer).c.subTxn = Function.update c.subTxn sub .txnDone ∧
        (settle c p status out answer).events.foldl connAfter isOpen = false := by
  rcases settle_cases c p status answer out with ⟨events, -, subTxn, -⟩ |
    ⟨sub, inside, store, opened, subTxn, closing⟩
  · exact Or.inl ⟨subTxn, by rw [events]; rfl⟩
  · refine Or.inr ⟨sub, inside, store, opened, subTxn, ?_⟩
    rcases closing with ⟨events, -⟩ | ⟨-, -, -, ⟨-, events, -⟩ | ⟨-, events, -⟩⟩
    · rw [events]
      rfl
    · rw [events]
      simp [connAfter]
    · rw [events]
      rfl

theorem enter_connOpen (s : Sys d) (thunk : Thunk d) (begun : GeasStatus) :
    connOpen (enter s thunk begun).log =
      (txnBefore s.c thunk.pidx begun).events.foldl connAfter (connOpen s.log) := by
  unfold enter
  dsimp only
  split
  · rw [connOpen_append, connOpen_append]
    rfl
  · rw [connOpen_append, connOpen_append]
    rfl

theorem leave_connOpen (s : Sys d) (thunk : Thunk d) (rest : List (Thunk d))
    (status commit writeBack : GeasStatus) (out : GeasValue) :
    connOpen (leave s thunk rest status out commit writeBack).log =
      (settle s.c thunk.pidx status out commit).events.foldl connAfter (connOpen s.log) := by
  unfold leave
  rw [connOpen_append]
  rfl

/-- Everything a step does to the episodes, the connection and its transaction:
nothing, one `BEGIN`, one end of an open episode, or an explicit break. -/
theorem step_episodes {s t : Sys d} {action : Action d} (stepped : step s action = some t) :
    (t.c.subTxn = s.c.subTxn ∧ t.c.store = s.c.store ∧ connOpen t.log = connOpen s.log) ∨
    (∃ sub, gateOpen s.c.state = true ∧ s.c.store = true ∧ t.c.store = true ∧
      s.c.subTxn sub = .txnNone ∧ AsksBegin s action ∧ action.begun = some .ok ∧
      t.c.subTxn = Function.update s.c.subTxn sub .txnOpen ∧ connOpen t.log = true) ∨
    (∃ sub, s.c.store = true ∧ t.c.store = true ∧ IsOpen s.c sub ∧
      t.c.subTxn = Function.update s.c.subTxn sub .txnDone ∧ connOpen t.log = false) ∨
    (action = .brk ∧ t.c.subTxn = s.c.subTxn ∧ t.c.store = false ∧ connOpen t.log = false) := by
  rcases step_cases stepped with ⟨c, -, log⟩ | ⟨futures, thunk, begun, gate, calls, answer, rfl⟩ |
    ⟨thunk, rest, status, out, commit, writeBack, -, -, rfl⟩ | ⟨rfl, -, rfl⟩
  · exact Or.inl ⟨by rw [c], by rw [c], by rw [log]⟩
  · rw [enter_c, enter_connOpen]
    dsimp only
    rcases txnBefore_opens s.c thunk.pidx begun (connOpen s.log) with ⟨c, same⟩ |
      ⟨sub, inside, store, fate, rfl, opened, c⟩
    · exact Or.inl ⟨by rw [c], by rw [c], same⟩
    · have asks : AsksBegin s action := ⟨thunk.pidx, sub, calls, inside, store, fate⟩
      refine Or.inr (Or.inl ⟨sub, gate, store, ?_, fate, asks, answer, by rw [c], opened⟩)
      rw [c]
      exact store
  · rw [leave_connOpen]
    rcases settle_closes s.c thunk.pidx status commit out (connOpen s.log) with ⟨fates, same⟩ |
      ⟨sub, -, store, opened, fates, closed⟩
    · exact Or.inl ⟨fates, settle_store .., same⟩
    · have kept : (leave s thunk rest status out commit writeBack).c.store = true :=
        (settle_store ..).trans store
      exact Or.inr (Or.inr (Or.inl ⟨sub, store, kept, opened, fates, closed⟩))
  · refine Or.inr (Or.inr (Or.inr ⟨rfl, rfl, rfl, ?_⟩))
    rw [connOpen_append]
    rfl

/-- A step moves every fate one way. -/
theorem step_fateStep {s t : Sys d} {action : Action d} (stepped : step s action = some t)
    (sub : Fin d.nsubs) : FateStep (s.c.subTxn sub) (t.c.subTxn sub) := by
  rcases step_episodes stepped with ⟨fates, -, -⟩ | ⟨own, -, -, -, fate, -, -, fates, -⟩ |
    ⟨own, -, -, opened, fates, -⟩ | ⟨-, fates, -, -⟩
  · rw [fates]
    exact FateStep.refl _
  · rw [fates]
    by_cases same : sub = own
    · rw [same, fate, Function.update_self]
      exact Or.inr rfl
    · rw [Function.update_of_ne same]
      exact FateStep.refl _
  · rw [fates]
    by_cases same : sub = own
    · rw [same, opened, Function.update_self]
      exact Or.inr rfl
    · rw [Function.update_of_ne same]
      exact FateStep.refl _
  · rw [fates]
    exact FateStep.refl _

theorem step_episodeInvariant {s t : Sys d} {action : Action d} (holds : EpisodeInvariant s)
    (refused : BeginRefused s action) (stepped : step s action = some t) : EpisodeInvariant t := by
  rcases step_episodes stepped with ⟨fates, store, conn⟩ |
    ⟨own, -, store, kept, -, asks, answer, fates, conn⟩ |
    ⟨own, store, kept, opened, fates, conn⟩ | ⟨-, -, closed, conn⟩
  · constructor
    · rw [store]
      simpa only [IsOpen, fates] using holds.one
    · rw [store, conn]
      simpa only [IsOpen, fates] using holds.conn
  · have only : ∀ sub, IsOpen t.c sub → sub = own := by
      intro sub opened
      by_contra other
      rw [IsOpen, fates, Function.update_of_ne other] at opened
      exact refused asks (holds.conn.mpr ⟨store, sub, opened⟩) answer
    constructor
    · intro _ left right opened opened'
      rw [only left opened, only right opened']
    · rw [conn]
      exact iff_of_true rfl ⟨kept, own, by rw [IsOpen, fates, Function.update_self]⟩
  · have none : ∀ sub, ¬IsOpen t.c sub := by
      intro sub still
      rw [IsOpen, fates] at still
      by_cases same : sub = own
      · rw [same, Function.update_self] at still
        cases still
      · rw [Function.update_of_ne same] at still
        exact same (holds.one store sub own still opened)
    constructor
    · intro _ left right opened _
      exact absurd opened (none left)
    · rw [conn]
      exact iff_of_false Bool.false_ne_true fun ⟨_, sub, opened⟩ => none sub opened
  · constructor
    · intro store
      rw [closed] at store
      cases store
    · rw [conn, closed]
      exact iff_of_false Bool.false_ne_true fun ⟨store, _⟩ => Bool.false_ne_true store

/-! ## Whole lineages -/

/-- A call of a pledge whose episode is closed is turned away. -/
theorem txnBefore_done {c : GeasContract d} {p : Fin d.npledges} {sub : Fin d.nsubs}
    (inside : pledgeTxnSub d p = some sub) (store : c.store = true)
    (done : c.subTxn sub = .txnDone) (answer : GeasStatus) :
    (txnBefore c p answer).status = .errState := by
  simp [txnBefore, inside, store, done]

/-- A step starts no body of a closed episode. -/
theorem step_starts {s t : Sys d} {action : Action d} (stepped : step s action = some t) :
    ∃ more, t.log = s.log ++ more ∧ ∀ p sub, pledgeTxnSub d p = some sub → s.c.store = true →
      s.c.subTxn sub = .txnDone → .started p ∉ more := by
  rcases step_cases stepped with ⟨-, -, log⟩ | ⟨futures, thunk, begun, -, -, -, rfl⟩ |
    ⟨thunk, rest, status, out, commit, writeBack, -, -, rfl⟩ | ⟨-, -, rfl⟩
  · exact ⟨[], by rw [log, List.append_nil], fun _ _ _ _ _ => List.not_mem_nil⟩
  · obtain ⟨more, last, log, stores, ends⟩ := enter_log { s with futures := futures } thunk begun
    refine ⟨more ++ [last], by rw [log, List.append_assoc], ?_⟩
    intro p sub inside store done started
    rcases List.mem_append.mp started with earlier | here
    · cases stores _ earlier
    · obtain rfl := List.mem_singleton.mp here
      rcases ends with ⟨same, running⟩ | ⟨_, other, -⟩
      · obtain rfl : p = thunk.pidx := Event.started.inj same
        have refused := txnBefore_done inside store done begun
        simp [enter, refused] at running
      · cases other
  · refine ⟨_, rfl, ?_⟩
    intro p sub _ _ _ started
    rcases List.mem_cons.mp started with here | later
    · cases here
    · cases settle_events s.c thunk.pidx status commit out _ later
  · refine ⟨_, rfl, ?_⟩
    intro p sub _ _ _ started
    cases List.mem_singleton.mp started

/-- An instance with what the instances it was resumed from recorded. -/
structure Lineage (d : GeasContractDesc) where
  past : List (Event d)
  h : HeapSys d

/-- Everything the lineage recorded. -/
def Lineage.history (lineage : Lineage d) : List (Event d) := lineage.past ++ lineage.h.sys.log

/-- The fate of an episode in the current instance. -/
abbrev Lineage.fate (lineage : Lineage d) (sub : Fin d.nsubs) : TxnFate :=
  lineage.h.sys.c.subTxn sub

/-- One move of a lineage: anything but an explicit break, or a park and a resume
of the parked row, which puts a new instance with a new connection in the place
of the old one. -/
inductive LineageStep : Lineage d → Lineage d → Prop where
  | act {past : List (Event d)} {h h' : HeapSys d} {action : Action d} (fulfills : action ≠ .brk)
      (refused : BeginRefused h.sys action) (stepped : heapStep h (.act action) = some h') :
      LineageStep ⟨past, h⟩ ⟨past, h'⟩
  | allocate {past : List (Event d)} {h h' : HeapSys d} (stepped : heapStep h .allocate = some h') :
      LineageStep ⟨past, h⟩ ⟨past, h'⟩
  | cross {past : List (Event d)} {h : HeapSys d} {c : GeasContract d} {env : ParkEnv}
      {key : String} {table : ParkTable} {resumeEnv : ResumeEnv} {rt : GeasRuntime}
      {expectedHash : UInt64} (parked : (geasInstancePark env h key table).1 = .ok)
      (resumed : (geasInstanceResume resumeEnv rt (geasInstancePark env h key table).2 key
        expectedHash).out = some ⟨d, c⟩) :
      LineageStep ⟨past, h⟩ ⟨past ++ h.sys.log, publishedHeap c⟩

/-- The lineage of a freshly signed instance. -/
def signedLineage (d : GeasContractDesc) (vowVals : List GeasValue) (signedAt : Int64) :
    Lineage d :=
  ⟨[], signedHeap d vowVals signedAt⟩

/-- The fates cross the table, and no episode is open on either side. -/
theorem cross_fates {h : HeapSys d} {c : GeasContract d} {env : ParkEnv} {key : String}
    {table : ParkTable} {resumeEnv : ResumeEnv} {rt : GeasRuntime} {expectedHash : UInt64}
    (parked : (geasInstancePark env h key table).1 = .ok)
    (resumed : (geasInstanceResume resumeEnv rt (geasInstancePark env h key table).2 key
      expectedHash).out = some ⟨d, c⟩) :
    c.subTxn = h.sys.c.subTxn ∧ (∀ sub, ¬IsOpen c sub) ∧ c.store = decide (d.nschemas > 0) := by
  obtain ⟨row, wrote, present⟩ := row_of_parked parked
  have spelled : row.subtxn = (List.finRange d.nsubs).map fun s => (h.sys.c.subTxn s).code := by
    unfold parkedRow at wrote
    split at wrote
    · cases wrote
    · split at wrote
      · cases wrote
      · split at wrote
        · cases wrote
        · split at wrote
          · cases wrote
          · cases wrote
            rfl
  obtain ⟨state, done⟩ := resumeBuild_instance (build_of_out present resumed)
  obtain ⟨bytes, closed, store⟩ := resumeInstance_fates done
  refine ⟨?_, closed, store⟩
  funext sub
  have codes := (bytes (Nat.lt_of_le_of_lt (Nat.zero_le _) sub.isLt)).symm.trans spelled
  exact txnFate_code_injective (List.map_inj_left.mp codes sub (List.mem_finRange sub))

/-- The episode invariant over a lineage.  A contract without schemas never has a
connection, so its episodes never open. -/
structure LineageInvariant (lineage : Lineage d) : Prop where
  episodes : EpisodeInvariant lineage.h.sys
  store : lineage.h.sys.c.store = decide (d.nschemas > 0)
  quiet : lineage.h.sys.c.store = false → ∀ sub, lineage.fate sub = .txnNone

theorem signedLineage_invariant (vowVals : List GeasValue) (signedAt : Int64) :
    LineageInvariant (signedLineage d vowVals signedAt) := by
  have none : ∀ sub, ¬IsOpen (freshContract d vowVals signedAt) sub := fun _ opened => nomatch opened
  constructor
  · constructor
    · exact fun _ left _ opened _ => absurd opened (none left)
    · exact iff_of_false Bool.false_ne_true fun ⟨_, sub, opened⟩ => none sub opened
  · rfl
  · exact fun _ _ => rfl

/-- A step of the instance is a step of the runtime. -/
theorem heapStep_act {h h' : HeapSys d} {action : Action d}
    (stepped : heapStep h (.act action) = some h') : step h.sys action = some h'.sys := by
  obtain ⟨sys, taken, rfl⟩ := Option.map_eq_some_iff.mp stepped
  cases action with
  | brk =>
      dsimp only
      split <;> exact taken
  | fulfill | dequeue | inline | finish | wait => exact taken

theorem lineageStep_invariant {before after : Lineage d} (holds : LineageInvariant before)
    (moved : LineageStep before after) : LineageInvariant after := by
  cases moved with
  | act fulfills refused stepped =>
      have taken := heapStep_act stepped
      have store := (step_sameTerms fulfills taken).store
      refine ⟨step_episodeInvariant holds.episodes refused taken, store.trans holds.store, ?_⟩
      intro closed sub
      rw [store] at closed
      rcases step_episodes taken with ⟨fates, -, -⟩ | ⟨_, -, connected, -⟩ | ⟨_, connected, -⟩ |
        ⟨brk, -⟩
      · exact (congrFun fates sub).trans (holds.quiet closed sub)
      · exact absurd (closed.symm.trans connected) Bool.false_ne_true
      · exact absurd (closed.symm.trans connected) Bool.false_ne_true
      · exact absurd brk fulfills
  | allocate stepped =>
      cases stepped
      exact ⟨holds.episodes, holds.store, holds.quiet⟩
  | cross parked resumed =>
      obtain ⟨fates, closed, store⟩ := cross_fates parked resumed
      refine ⟨⟨?_, ?_⟩, store, ?_⟩
      · exact fun _ left _ opened _ => absurd opened (closed left)
      · exact iff_of_false Bool.false_ne_true fun ⟨_, sub, opened⟩ => closed sub opened
      · intro none sub
        have before := holds.quiet (holds.store.trans (store.symm.trans none)) sub
        exact (congrFun fates sub).trans before

/-- A move takes every fate one way. -/
theorem lineageStep_fateStep {before after : Lineage d} (moved : LineageStep before after)
    (sub : Fin d.nsubs) : FateStep (before.fate sub) (after.fate sub) := by
  cases moved with
  | act fulfills refused stepped => exact step_fateStep (heapStep_act stepped) sub
  | allocate stepped =>
      cases stepped
      exact FateStep.refl _
  | @cross _ h c _ _ _ _ _ _ parked resumed =>
      obtain ⟨fates, -, -⟩ := cross_fates parked resumed
      change FateStep (h.sys.c.subTxn sub) (c.subTxn sub)
      rw [fates]
      exact FateStep.refl _

/-- A move records no start of a closed episode's pledge. -/
theorem lineageStep_starts {before after : Lineage d} (holds : LineageInvariant before)
    (moved : LineageStep before after) :
    ∃ more, after.history = before.history ++ more ∧ ∀ p sub, pledgeTxnSub d p = some sub →
      before.fate sub = .txnDone → .started p ∉ more := by
  cases moved with
  | act fulfills refused stepped =>
      obtain ⟨more, log, none⟩ := step_starts (heapStep_act stepped)
      refine ⟨more, ?_, ?_⟩
      · simp only [Lineage.history, log, List.append_assoc]
      · intro p sub inside done
        refine none p sub inside ?_ done
        by_contra closed
        have fresh := holds.quiet (by simpa using closed) sub
        rw [done] at fresh
        cases fresh
  | allocate stepped =>
      cases stepped
      exact ⟨[], (List.append_nil _).symm, fun _ _ _ _ => List.not_mem_nil⟩
  | cross parked resumed =>
      refine ⟨[], ?_, fun _ _ _ _ => List.not_mem_nil⟩
      simp [Lineage.history, publishedHeap]

open Relation (ReflTransGen)

theorem reached_lineageInvariant {before after : Lineage d} (holds : LineageInvariant before)
    (reached : ReflTransGen LineageStep before after) : LineageInvariant after := by
  induction reached with
  | refl => exact holds
  | tail _ moved ih => exact lineageStep_invariant ih moved

/-- A closed episode stays closed and starts nothing. -/
theorem closed_for_good {before after : Lineage d} (holds : LineageInvariant before)
    (reached : ReflTransGen LineageStep before after) {sub : Fin d.nsubs}
    (done : before.fate sub = .txnDone) :
    after.fate sub = .txnDone ∧ ∃ more, after.history = before.history ++ more ∧
      ∀ p, pledgeTxnSub d p = some sub → .started p ∉ more := by
  induction reached with
  | refl => exact ⟨done, [], (List.append_nil _).symm, fun _ _ => List.not_mem_nil⟩
  | tail earlier moved ih =>
      obtain ⟨still, more, history, none⟩ := ih
      have moves := lineageStep_fateStep moved sub
      rw [still] at moves
      obtain ⟨added, history', none'⟩ :=
        lineageStep_starts (reached_lineageInvariant holds earlier) moved
      refine ⟨moves, more ++ added, by rw [history', history, List.append_assoc], ?_⟩
      intro p inside started
      rcases List.mem_append.mp started with before' | here
      · exact none p inside before'
      · exact none' p sub inside still here

/-- The steps a lineage takes without leaving its instance. -/
def StaysWhole (s : Sys d) (action : Action d) : Prop := action ≠ .brk ∧ BeginRefused s action

/-- A run of such steps is a lineage. -/
theorem lineage_of_run {past : List (Event d)} {h : HeapSys d} {actions : List (Action d)}
    {t : Sys d} (guarded : Guarded step StaysWhole h.sys actions)
    (ran : run step h.sys actions = some t) :
    ReflTransGen LineageStep ⟨past, h⟩ ⟨past, { h with sys := t }⟩ := by
  induction actions generalizing h with
  | nil =>
      cases ran
      exact .refl
  | cons action rest ih =>
      obtain ⟨next, stepped, ran⟩ := run_cons.mp ran
      obtain ⟨⟨fulfills, refused⟩, guarded⟩ := guarded
      have taken : heapStep h (.act action) = some { h with sys := next } := by
        rw [heapStep, stepped]
        cases action with
        | brk => exact absurd rfl fulfills
        | fulfill | dequeue | inline | finish | wait => rfl
      have later := ih (h := { h with sys := next }) (guarded next stepped) ran
      exact .head (.act fulfills refused taken) later

/-- Both pledges of the transfer land in one episode. -/
def transferRun : List (Action ledgerDesc) :=
  [.inline ⟨"debit", 0, 0, false, false, .ok⟩ .ok,
    .finish .ok (.result 0 (some (.unit 0))) .ok .ok,
    .inline ⟨"credit", 0, 0, false, false, .ok⟩ .errStore,
    .finish .ok (.result 0 (some (.unit 0))) .ok .ok]

theorem transferRun_staysWhole :
    Guarded step StaysWhole (signedSys ledgerDesc [] 0) transferRun := by
  have first : StaysWhole (signedSys ledgerDesc [] 0)
      (.inline ⟨"debit", 0, 0, false, false, .ok⟩ .ok) := ⟨nofun, fun _ opened => nomatch opened⟩
  have finish : ∀ s : Sys ledgerDesc,
      StaysWhole s (.finish .ok (.result 0 (some (.unit 0))) .ok .ok) :=
    fun _ => ⟨nofun, fun _ _ => nofun⟩
  have second : ∀ s : Sys ledgerDesc,
      StaysWhole s (.inline ⟨"credit", 0, 0, false, false, .ok⟩ .errStore) :=
    fun _ => ⟨nofun, fun _ _ => by simp [Action.begun]⟩
  exact ⟨first, fun _ _ => ⟨finish _, fun _ _ => ⟨second _, fun _ _ => ⟨finish _,
    fun _ _ => trivial⟩⟩⟩⟩

/-- Every latch that is decided in `s` reads the same in `t`. -/
def KeepsDecided (s t : Sys d) : Prop :=
  ∀ p, s.c.pledgeState p ≠ .pending → t.c.pledgeState p = s.c.pledgeState p

theorem KeepsDecided.trans {s t u : Sys d} (first : KeepsDecided s t) (second : KeepsDecided t u) :
    KeepsDecided s u := by
  intro p decided
  have same := first p decided
  exact (second p (same ▸ decided)).trans same

theorem step_keepsDecided {s t : Sys d} {action : Action d} (stepped : step s action = some t) :
    KeepsDecided s t := by
  intro p decided
  rcases step_cases stepped with ⟨c, -, -⟩ | ⟨futures, thunk, begun, -, -, -, rfl⟩ |
    ⟨thunk, rest, status, out, commit, writeBack, -, -, rfl⟩ | ⟨-, -, rfl⟩
  · rw [c]
  · rw [enter_pledgeState]
  · exact settle_pledgeState_of_latched s.c thunk.pidx status commit out fun _ => decided
  · rfl

theorem run_keepsDecided {s t : Sys d} {actions : List (Action d)}
    (ran : run step s actions = some t) : KeepsDecided s t :=
  run_relation (fun _ _ _ => rfl) (fun _ _ _ => KeepsDecided.trans)
    (fun _ _ _ (_ : True) _ stepped => ⟨trivial, step_keepsDecided stepped⟩) trivial
    (guarded_true s actions) ran

/-- The partial surface lists the subcontract, and under broken. -/
def ReportsBroken (c : GeasContract d) (sub : Fin d.nsubs) : Prop :=
  subItemState d c.pledgeState sub = .broken ∧
    ∃ name, d.subs.get sub = some name ∧ name ∈ (partialSurface c).broken

theorem subItemState_eq_broken {latches : Latches d} {sub : Fin d.nsubs} :
    subItemState d latches sub = .broken ↔
      subMembers d (sub : Nat) ≠ [] ∧ ∀ q ∈ subMembers d (sub : Nat), latches q = .broken := by
  rw [← subAll_iff]
  unfold subItemState
  constructor
  · intro broken
    split at broken
    · cases broken
    · split at broken
      · next all => exact all
      · cases broken
  · intro all
    have mixed : ¬subAll d latches (sub : Nat) .fulfilled = true := by
      intro fulfilled
      obtain ⟨nonempty, broken⟩ := subAll_iff.mp all
      obtain ⟨q, membership⟩ := List.exists_mem_of_ne_nil _ nonempty
      have both := ((subAll_iff.mp fulfilled).2 q membership).symm.trans (broken q membership)
      cases both
    rw [if_neg mixed, if_pos all]

theorem reportsBroken_iff {c : GeasContract d} {sub : Fin d.nsubs} :
    ReportsBroken c sub ↔ (d.subs.get sub).isSome = true ∧ subMembers d (sub : Nat) ≠ [] ∧
      ∀ q ∈ subMembers d (sub : Nat), c.pledgeState q = .broken := by
  unfold ReportsBroken
  rw [← subItemState_eq_broken]
  constructor
  · rintro ⟨broken, name, named, -⟩
    exact ⟨Option.isSome_iff_exists.mpr ⟨name, named⟩, broken⟩
  · rintro ⟨named, broken⟩
    obtain ⟨name, named⟩ := Option.isSome_iff_exists.mp named
    refine ⟨broken, name, named, List.mem_append_left _ (List.mem_filterMap.mpr ?_)⟩
    exact ⟨sub, List.mem_finRange sub, by rw [if_pos broken, named]⟩

/-- After a pledge's `Err` rolled its episode back, the subcontract reads broken in
every later state exactly when it has a name and the `Err` left every pledge of it
broken. -/
theorem rolled_back_reads_broken_iff {s t : Sys d} {thunk : Thunk d} {rest : List (Thunk d)}
    {sub : Fin d.nsubs} {out : GeasValue} {commit writeBack : GeasStatus}
    (running : s.running = thunk :: rest) (inside : pledgeTxnSub d thunk.pidx = some sub)
    (store : s.c.store = true) (opened : s.c.subTxn sub = .txnOpen) (err : isErr out = true)
    (stepped : step s (.finish .ok out commit writeBack) = some t) :
    .rolledBack sub ∈ t.log.drop s.log.length ∧
    ((∀ back u, run step t back = some u → ReportsBroken u.c sub) ↔
      (d.subs.get sub).isSome = true ∧ ∀ q ∈ subMembers d (sub : Nat),
        s.c.pledgeState q = .broken ∨ q = thunk.pidx ∧ s.c.pledgeState q = .pending) := by
  obtain ⟨_, _, same, rfl⟩ := step_finish stepped
  obtain ⟨rfl, rfl⟩ := List.cons.inj (running.symm.trans same)
  have latches : ∀ q, (leave s thunk rest .ok out commit writeBack).c.pledgeState q =
      if q = thunk.pidx ∧ s.c.pledgeState thunk.pidx = .pending then .broken
      else s.c.pledgeState q := by
    intro q
    change (settle s.c thunk.pidx .ok out commit).c.pledgeState q = _
    rw [settle_pledgeState, if_pos rfl, latchPledge_pledgeState, latchOf, err]
    rfl
  have reads : ∀ q, (leave s thunk rest .ok out commit writeBack).c.pledgeState q = .broken ↔
      s.c.pledgeState q = .broken ∨ q = thunk.pidx ∧ s.c.pledgeState q = .pending := by
    intro q
    rw [latches]
    split
    · next landed => exact iff_of_true rfl (Or.inr ⟨landed.1, landed.1 ▸ landed.2⟩)
    · next kept =>
      constructor
      · exact Or.inl
      · rintro (broken | ⟨rfl, pending⟩)
        · exact broken
        · exact absurd ⟨rfl, pending⟩ kept
  have nonempty : subMembers d (sub : Nat) ≠ [] :=
    List.ne_nil_of_mem (mem_subMembers.mpr (pledgeTxnSub_eq_some.mp inside).1)
  refine ⟨?_, ?_, ?_⟩
  · have rolled : (settle s.c thunk.pidx .ok out commit).events = [.rolledBack sub] := by
      simp [settle, txnAfter, inside, store, opened, err]
    simp [leave, rolled]
  · intro later
    obtain ⟨named, -, all⟩ := reportsBroken_iff.mp (later [] _ rfl)
    exact ⟨named, fun q membership => (reads q).mp (all q membership)⟩
  · rintro ⟨named, all⟩ back u ran
    refine reportsBroken_iff.mpr ⟨named, nonempty, fun q membership => ?_⟩
    have broken := (reads q).mpr (all q membership)
    exact (run_keepsDecided ran q (by simp [broken])).trans broken

/-- A store-backed contract whose one transactional subcontract has one pledge. -/
def postingDesc : GeasContractDesc :=
  { ledgerDesc with
    name := "Posting"
    pledges := [⟨"post", 0, 0⟩]
    subs := [some "Entry"] }

/-- An `Err` a body returns. -/
def refusal : GeasValue := .result 1 (some (.int 0 7))

theorem rolled_back_reads_broken_iff_posting :
    ∃ t, run step (signedSys postingDesc [] 0)
        [.inline ⟨"post", 0, 0, false, false, .ok⟩ .ok, .finish .ok refusal .ok .ok] = some t ∧
      ∀ back u, run step t back = some u → ReportsBroken u.c ⟨0, by decide⟩ := by
  obtain ⟨t, ran⟩ : ∃ t, run step (signedSys postingDesc [] 0)
      [.inline ⟨"post", 0, 0, false, false, .ok⟩ .ok, .finish .ok refusal .ok .ok] = some t :=
    ⟨_, rfl⟩
  obtain ⟨s, entered, finished⟩ := run_cons.mp ran
  obtain ⟨_, stepped, rest⟩ := run_cons.mp finished
  cases rest
  refine ⟨t, ran, ?_⟩
  cases entered
  refine (rolled_back_reads_broken_iff rfl rfl rfl rfl rfl stepped).2.mpr ⟨rfl, ?_⟩
  intro q _
  exact Or.inr ⟨Fin.ext (Nat.lt_one_iff.mp q.isLt), rfl⟩

/-- The transfer is rolled back and the surface lists it as pending. -/
theorem rolled_back_reads_pending :
    ∃ s t, run step (signedSys ledgerDesc [] 0) (okCall "debit" .ok ++
        [.inline ⟨"credit", 0, 0, false, false, .ok⟩ .ok]) = some s ∧
      s.c.subTxn transfer = .txnOpen ∧ step s (.finish .ok refusal .ok .ok) = some t ∧
      t.c.subTxn transfer = .txnDone ∧ (partialSurface t.c).pending = ["Transfer"] ∧
      ¬ReportsBroken t.c transfer := by
  obtain ⟨s, ran⟩ : ∃ s, run step (signedSys ledgerDesc [] 0) (okCall "debit" .ok ++
      [.inline ⟨"credit", 0, 0, false, false, .ok⟩ .ok]) = some s := ⟨_, rfl⟩
  obtain ⟨t, stepped⟩ : ∃ t, step s (.finish .ok refusal .ok .ok) = some t := by
    cases ran
    exact ⟨_, rfl⟩
  cases ran
  cases stepped
  refine ⟨_, _, rfl, rfl, rfl, rfl, by decide, fun reports => ?_⟩
  exact absurd reports.1 (by decide)

end Geas.Runtime
