import Geas.Runtime.Instance

/-!
# Latches, payloads and states over whole runs

What the log says is what the instance shows.  A pledge's latch is decided by
its first `GEAS_OK` outcome, its payload is the one that outcome carried until a
break takes it, and the contract state is the policy's reading of the latches
from the first outcome on.
-/

namespace Geas.Runtime

open Geas.Abi
open Geas.Lib.Transition

variable {d : GeasContractDesc}

/-- The value of a `GEAS_OK` outcome of pledge `p`. -/
def outcomeOf (p : Fin d.npledges) : Event d → Option GeasValue
  | .returned q .ok out _ => if q = p then some out else none
  | _ => none

/-- The value of the first `GEAS_OK` outcome of pledge `p`. -/
def firstOutcome (log : List (Event d)) (p : Fin d.npledges) : Option GeasValue :=
  log.findSome? (outcomeOf p)

/-- The latch a first outcome decides. -/
def latchOf : Option GeasValue → PledgeLatch
  | none => .pending
  | some out => if isErr out then .broken else .fulfilled

def Event.isBreak : Event d → Bool
  | .broke => true
  | _ => false

/-- The payload kept for pledge `p`: what the first outcome carried if it was an
`Err`, until an explicit break. -/
def payload (p : Fin d.npledges) : List (Event d) → GeasValue
  | [] => .zero
  | event :: later =>
      match outcomeOf p event with
      | none => payload p later
      | some out =>
          if isErr out && !later.any Event.isBreak then (boxed out).getD .zero else .zero

/-- The pledges whose bodies were started, in order. -/
def starts (log : List (Event d)) : List (Fin d.npledges) :=
  log.filterMap fun
    | .started p => some p
    | _ => none

/-- A store operation, which neither an outcome nor a break nor a start is. -/
def Event.isStore : Event d → Bool
  | .began _ _ | .committed _ _ | .rolledBack _ => true
  | _ => false

theorem firstOutcome_append (log more : List (Event d)) (p : Fin d.npledges) :
    firstOutcome (log ++ more) p = (firstOutcome log p).or (firstOutcome more p) :=
  List.findSome?_append

theorem payload_append_none {log : List (Event d)} {p : Fin d.npledges}
    (undecided : firstOutcome log p = none) (more : List (Event d)) :
    payload p (log ++ more) = payload p more := by
  induction log with
  | nil => rfl
  | cons event rest ih =>
      cases first : outcomeOf p event with
      | none =>
          simp only [firstOutcome, List.findSome?_cons, first] at undecided
          simp only [List.cons_append, payload, first]
          exact ih undecided
      | some out => simp [firstOutcome, first] at undecided

theorem payload_append_some {log : List (Event d)} {p : Fin d.npledges} {out : GeasValue}
    (decided : firstOutcome log p = some out) (more : List (Event d)) :
    payload p (log ++ more) = if more.any Event.isBreak then .zero else payload p log := by
  induction log with
  | nil => cases decided
  | cons event rest ih =>
      cases first : outcomeOf p event with
      | none =>
          simp only [firstOutcome, List.findSome?_cons, first] at decided
          simp only [List.cons_append, payload, first]
          exact ih decided
      | some value =>
          simp only [List.cons_append, payload, first, List.any_append]
          cases more.any Event.isBreak <;> simp

/-! ## Events that decide nothing -/

section Quiet

variable {more : List (Event d)}

theorem firstOutcome_store (stores : ∀ event ∈ more, event.isStore = true)
    (p : Fin d.npledges) : firstOutcome more p = none := by
  unfold firstOutcome
  rw [List.findSome?_eq_none_iff]
  intro event membership
  have store := stores event membership
  cases event <;> first | rfl | cases store

theorem isBreak_store (stores : ∀ event ∈ more, event.isStore = true) :
    more.any Event.isBreak = false := by
  rw [List.any_eq_false]
  intro event membership
  have store := stores event membership
  cases event <;> simp_all [Event.isStore, Event.isBreak]

theorem starts_store (stores : ∀ event ∈ more, event.isStore = true) : starts more = [] := by
  unfold starts
  rw [List.filterMap_eq_nil_iff]
  intro event membership
  have store := stores event membership
  cases event <;> first | rfl | cases store

end Quiet

theorem txnBefore_events (c : GeasContract d) (p : Fin d.npledges) (answer : GeasStatus) :
    ∀ event ∈ (txnBefore c p answer).events, event.isStore = true := by
  unfold txnBefore
  split
  · simp
  · split
    · simp
    · split
      · simp
      · simp
      · split <;> simp [Event.isStore]

theorem txnAfter_events (c : GeasContract d) (p : Fin d.npledges) (status answer : GeasStatus)
    (out : GeasValue) : ∀ event ∈ (txnAfter c p status out answer).events,
      event.isStore = true := by
  unfold txnAfter
  split
  · simp
  · split
    · simp
    · split
      · simp [Event.isStore]
      · split
        · split <;> simp [Event.isStore]
        · simp

theorem settle_events (c : GeasContract d) (p : Fin d.npledges) (status answer : GeasStatus)
    (out : GeasValue) : ∀ event ∈ (settle c p status out answer).events,
      event.isStore = true := by
  unfold settle
  split <;> exact txnAfter_events _ _ _ _ _

/-- What `enter` adds to the log: store operations, then one event that decides
nothing. -/
theorem enter_log (s : Sys d) (thunk : Thunk d) (begun : GeasStatus) :
    ∃ more last, (enter s thunk begun).log = s.log ++ more ++ [last] ∧
      (∀ event ∈ more, event.isStore = true) ∧
      ((last = .started thunk.pidx ∧ (enter s thunk begun).running = thunk :: s.running) ∨
        ∃ status, last = .refused thunk.pidx status ∧
          (enter s thunk begun).running = s.running) := by
  have stores := txnBefore_events s.c thunk.pidx begun
  unfold enter
  dsimp only
  split
  · exact ⟨_, _, rfl, stores, Or.inr ⟨_, rfl, rfl⟩⟩
  · exact ⟨_, _, rfl, stores, Or.inl ⟨rfl, rfl⟩⟩

@[simp] theorem enter_pledgeState (s : Sys d) (thunk : Thunk d) (begun : GeasStatus) :
    (enter s thunk begun).c.pledgeState = s.c.pledgeState := by
  rw [enter_c, txnBefore_pledgeState]

@[simp] theorem enter_pledgeErr (s : Sys d) (thunk : Thunk d) (begun : GeasStatus) :
    (enter s thunk begun).c.pledgeErr = s.c.pledgeErr := by
  rw [enter_c, txnBefore_pledgeErr]

@[simp] theorem enter_state (s : Sys d) (thunk : Thunk d) (begun : GeasStatus) :
    (enter s thunk begun).c.state = s.c.state := by
  rw [enter_c, txnBefore_state]

/-- The log after `enter` decides and keeps what it did before. -/
theorem enter_quiet (s : Sys d) (thunk : Thunk d) (begun : GeasStatus) (p : Fin d.npledges) :
    firstOutcome (enter s thunk begun).log p = firstOutcome s.log p ∧
      payload p (enter s thunk begun).log = payload p s.log := by
  obtain ⟨more, last, log, stores, ends⟩ := enter_log s thunk begun
  have undecided : firstOutcome (more ++ [last]) p = none := by
    rw [firstOutcome_append, firstOutcome_store stores]
    rcases ends with ⟨rfl, -⟩ | ⟨_, rfl, -⟩ <;> rfl
  have unbroken : (more ++ [last]).any Event.isBreak = false := by
    rw [List.any_append, isBreak_store stores]
    rcases ends with ⟨rfl, -⟩ | ⟨_, rfl, -⟩ <;> rfl
  rw [log, List.append_assoc]
  refine ⟨by rw [firstOutcome_append, undecided, Option.or_none], ?_⟩
  cases first : firstOutcome s.log p with
  | some out => rw [payload_append_some first, unbroken, if_neg Bool.false_ne_true]
  | none =>
      have nothing := payload_append_none first []
      rw [List.append_nil] at nothing
      have silent := payload_append_none undecided []
      rw [List.append_nil] at silent
      rw [payload_append_none first, nothing, silent]

/-! ## The latch and the payload after one outcome -/

theorem latchPledge_pledgeState (c : GeasContract d) (p : Fin d.npledges) (out : GeasValue)
    (q : Fin d.npledges) :
    (latchPledge c p out).pledgeState q =
      if q = p ∧ c.pledgeState p = .pending then latchOf (some out) else c.pledgeState q := by
  unfold latchPledge latchOf
  by_cases pending : c.pledgeState p = .pending
  · by_cases same : q = p
    · subst same
      cases failed : isErr out <;> simp [pending, failed]
    · cases isErr out <;> simp [pending, same]
  · simp [pending]

theorem latchPledge_pledgeErr (c : GeasContract d) (p : Fin d.npledges) (out : GeasValue)
    (q : Fin d.npledges) :
    (latchPledge c p out).pledgeErr q =
      if q = p ∧ c.pledgeState p = .pending ∧ isErr out = true then
        (boxed out).getD (c.pledgeErr q)
      else c.pledgeErr q := by
  unfold latchPledge
  by_cases pending : c.pledgeState p = .pending
  · by_cases same : q = p
    · subst same
      cases isErr out
      · simp [pending]
      · cases boxed out <;> simp [pending]
    · cases isErr out
      · simp [pending]
      · cases boxed out <;> simp [pending, same]
  · simp [pending]

/-! ## The invariant -/

/-- What the log says is what the instance shows. -/
structure LatchInvariant (s : Sys d) : Prop where
  latch : ∀ p, s.c.pledgeState p = latchOf (firstOutcome s.log p)
  payload : ∀ p, s.c.pledgeErr p = payload p s.log
  state : s.c.state ≠ .broken → (∃ p, firstOutcome s.log p ≠ none) →
    s.c.state = policyState d s.c.pledgeState
  fresh : s.c.state ≠ .broken → (∀ p, firstOutcome s.log p = none) → s.c.state = .signed

theorem signedSys_latchInvariant (vowVals : List GeasValue) (signedAt : Int64) :
    LatchInvariant (signedSys d vowVals signedAt) where
  latch _ := rfl
  payload _ := rfl
  state _ := fun ⟨_, decided⟩ => absurd rfl decided
  fresh _ _ := rfl

theorem latchOf_eq_pending {outcome : Option GeasValue} :
    latchOf outcome = .pending ↔ outcome = none := by
  cases outcome with
  | none => simp [latchOf]
  | some out => cases failed : isErr out <;> simp [latchOf, failed]

theorem payload_undecided {log : List (Event d)} {p : Fin d.npledges}
    (undecided : firstOutcome log p = none) : payload p log = .zero := by
  have nothing := payload_append_none undecided []
  rwa [List.append_nil] at nothing

section Leave

variable (s : Sys d) (thunk : Thunk d) (rest : List (Thunk d)) (status : GeasStatus)
variable (out : GeasValue) (commit writeBack : GeasStatus)

/-- A return adds one outcome to the log, of its own pledge and only on
`GEAS_OK`. -/
theorem leave_firstOutcome (q : Fin d.npledges) :
    firstOutcome (leave s thunk rest status out commit writeBack).log q =
      (firstOutcome s.log q).or
        (if q = thunk.pidx ∧ status = .ok then some out else none) := by
  have stores := settle_events s.c thunk.pidx status commit out
  simp only [leave, firstOutcome_append]
  congr 1
  have silent := firstOutcome_store stores q
  unfold firstOutcome at silent ⊢
  rw [List.findSome?_cons, silent]
  by_cases same : q = thunk.pidx
  · subst same
    cases status <;> simp [outcomeOf]
  · cases status <;> simp [outcomeOf, same, Ne.symm same]

theorem leave_payload (q : Fin d.npledges) :
    payload q (leave s thunk rest status out commit writeBack).log =
      if firstOutcome s.log q = none ∧ q = thunk.pidx ∧ status = .ok ∧ isErr out = true then
        (boxed out).getD .zero
      else payload q s.log := by
  have stores := settle_events s.c thunk.pidx status commit out
  have unbroken := isBreak_store stores
  have silent := payload_undecided (firstOutcome_store stores q)
  simp only [leave]
  cases first : firstOutcome s.log q with
  | some value =>
      rw [payload_append_some first, List.any_cons, unbroken]
      simp [Event.isBreak]
  | none =>
      rw [payload_append_none first, payload_undecided first]
      by_cases same : q = thunk.pidx
      · subst same
        cases status <;> simp [payload, outcomeOf, silent, unbroken]
      · cases status <;> simp [payload, outcomeOf, silent, same, Ne.symm same]

end Leave

theorem leave_latchInvariant {s : Sys d} (holds : LatchInvariant s) (thunk : Thunk d)
    (rest : List (Thunk d)) (status : GeasStatus) (out : GeasValue)
    (commit writeBack : GeasStatus) :
    LatchInvariant (leave s thunk rest status out commit writeBack) where
  latch q := by
    rw [leave_firstOutcome]
    simp only [leave, settle_pledgeState]
    by_cases ok : status = .ok
    · simp only [if_pos ok, latchPledge_pledgeState, holds.latch thunk.pidx, latchOf_eq_pending]
      by_cases same : q = thunk.pidx
      · subst same
        cases first : firstOutcome s.log thunk.pidx with
        | none => simp [ok]
        | some value => simp [holds.latch, first]
      · simp [same, holds.latch]
    · simp [ok, holds.latch]
  payload q := by
    rw [leave_payload]
    simp only [leave, settle_pledgeErr]
    by_cases ok : status = .ok
    · simp only [if_pos ok, latchPledge_pledgeErr, holds.latch thunk.pidx, latchOf_eq_pending,
        holds.payload]
      by_cases same : q = thunk.pidx
      · subst same
        by_cases undecided : firstOutcome s.log thunk.pidx = none
        · simp [undecided, ok, payload_undecided undecided]
        · simp [undecided]
      · simp [same]
    · simp [ok, holds.payload]
  state unbroken decided := by
    simp only [leave, settle_state, settle_pledgeState] at unbroken ⊢
    by_cases ok : status = .ok
    · simp only [if_pos ok, evalPolicy] at unbroken ⊢
      by_cases broken : s.c.state = .broken
      · exact absurd (by simp [broken]) unbroken
      · simp [broken]
    · simp only [if_neg ok] at unbroken ⊢
      refine holds.state unbroken ?_
      obtain ⟨q, some⟩ := decided
      refine ⟨q, ?_⟩
      rw [leave_firstOutcome] at some
      simpa [ok] using some
  fresh unbroken undecided := by
    simp only [leave, settle_state] at unbroken ⊢
    by_cases ok : status = .ok
    · have decided := undecided thunk.pidx
      rw [leave_firstOutcome] at decided
      simp [ok] at decided
    · simp only [if_neg ok] at unbroken ⊢
      refine holds.fresh unbroken ?_
      intro q
      have still := undecided q
      rw [leave_firstOutcome] at still
      simpa [ok] using still

theorem firstOutcome_broke (log : List (Event d)) (p : Fin d.npledges) :
    firstOutcome (log ++ [.broke]) p = firstOutcome log p := by
  rw [firstOutcome_append]
  exact Option.or_none

theorem payload_broke (log : List (Event d)) (p : Fin d.npledges) :
    payload p (log ++ [.broke]) = .zero := by
  cases first : firstOutcome log p with
  | none => rw [payload_append_none first]; rfl
  | some out => rw [payload_append_some first]; rfl

/-- Every step keeps the instance in agreement with the log. -/
theorem step_latchInvariant {s t : Sys d} {action : Action d} (holds : LatchInvariant s)
    (stepped : step s action = some t) : LatchInvariant t := by
  rcases step_cases stepped with ⟨c, -, log⟩ | ⟨futures, thunk, begun, -, -, -, rfl⟩ |
    ⟨thunk, rest, status, out, commit, writeBack, -, -, rfl⟩ | ⟨-, -, rfl⟩
  · refine ⟨?_, ?_, ?_, ?_⟩ <;> rw [c, log]
    exacts [holds.latch, holds.payload, holds.state, holds.fresh]
  · have quiet := enter_quiet { s with futures := futures } thunk begun
    refine ⟨?_, ?_, ?_, ?_⟩
    · intro p
      rw [enter_pledgeState, (quiet p).1]
      exact holds.latch p
    · intro p
      rw [enter_pledgeErr, (quiet p).2]
      exact holds.payload p
    · rw [enter_state, enter_pledgeState]
      rintro unbroken ⟨p, decided⟩
      rw [(quiet p).1] at decided
      exact holds.state unbroken ⟨p, decided⟩
    · rw [enter_state]
      intro unbroken undecided
      exact holds.fresh unbroken fun p => (quiet p).1 ▸ undecided p
  · exact leave_latchInvariant holds thunk rest status out commit writeBack
  · refine ⟨?_, ?_, ?_, ?_⟩
    · intro p
      rw [firstOutcome_broke]
      exact holds.latch p
    · intro p
      rw [payload_broke]
      rfl
    · exact fun unbroken => absurd rfl unbroken
    · exact fun unbroken => absurd rfl unbroken

/-! ## What later states keep -/

/-- The log only grows, and a broken instance stays broken and starts nothing. -/
def Extends (s t : Sys d) : Prop :=
  ∃ more, t.log = s.log ++ more ∧
    (s.c.state = .broken → t.c.state = .broken ∧ starts more = [])

theorem Extends.refl (s : Sys d) : Extends s s :=
  ⟨[], (List.append_nil _).symm, fun broken => ⟨broken, rfl⟩⟩

theorem Extends.trans {s t u : Sys d} (first : Extends s t) (second : Extends t u) :
    Extends s u := by
  obtain ⟨more, log, keeps⟩ := first
  obtain ⟨more', log', keeps'⟩ := second
  refine ⟨more ++ more', by rw [log', log, List.append_assoc], ?_⟩
  intro broken
  obtain ⟨broken', none⟩ := keeps broken
  obtain ⟨broken'', none'⟩ := keeps' broken'
  refine ⟨broken'', ?_⟩
  unfold starts at none none' ⊢
  rw [List.filterMap_append, none, none', List.append_nil]

theorem step_extends {s t : Sys d} {action : Action d} (stepped : step s action = some t) :
    Extends s t := by
  rcases step_cases stepped with ⟨c, -, log⟩ | ⟨futures, thunk, begun, gate, -, -, rfl⟩ |
    ⟨thunk, rest, status, out, commit, writeBack, -, -, rfl⟩ | ⟨-, -, rfl⟩
  · exact ⟨[], by rw [log, List.append_nil], fun broken => ⟨by rw [c, broken], rfl⟩⟩
  · obtain ⟨more, last, log, -, -⟩ := enter_log { s with futures := futures } thunk begun
    refine ⟨more ++ [last], by rw [log, List.append_assoc], ?_⟩
    intro broken
    rw [broken] at gate
    cases gate
  · refine ⟨_, rfl, ?_⟩
    intro broken
    refine ⟨by simp [leave, evalPolicy, broken], ?_⟩
    have none := starts_store (settle_events s.c thunk.pidx status commit out)
    exact none
  · exact ⟨_, rfl, fun _ => ⟨rfl, rfl⟩⟩

theorem run_extends {s t : Sys d} {actions : List (Action d)}
    (ran : run step s actions = some t) : Extends s t :=
  run_relation Extends.refl (fun _ _ _ => Extends.trans)
    (fun _ _ _ (_ : True) _ stepped => ⟨trivial, step_extends stepped⟩) trivial
    (guarded_true s actions) ran

theorem reached_latchInvariant {vowVals : List GeasValue} {signedAt : Int64}
    {actions : List (Action d)} {s : Sys d}
    (reached : run step (signedSys d vowVals signedAt) actions = some s) : LatchInvariant s :=
  run_invariant (fun _ _ _ holds _ stepped => step_latchInvariant holds stepped)
    (signedSys_latchInvariant vowVals signedAt) (guarded_true _ actions) reached

/-- In every state of every run the latches and payloads are what the first
outcomes decided, a latch that left `PENDING` never moves again, the state after
an outcome is the policy's reading of the latches, and a broken instance stays
broken and starts no further body. -/
theorem run_lifecycle {vowVals : List GeasValue} {signedAt : Int64}
    {front back : List (Action d)} {s t : Sys d}
    (reached : run step (signedSys d vowVals signedAt) front = some s)
    (later : run step s back = some t) :
    (∀ p, s.c.pledgeState p = latchOf (firstOutcome s.log p)) ∧
    (∀ p, s.c.pledgeState p ≠ .pending → t.c.pledgeState p = s.c.pledgeState p) ∧
    (∀ p, s.c.pledgeErr p = payload p s.log) ∧
    (∀ out commit writeBack u, step s (.finish .ok out commit writeBack) = some u →
      s.c.state ≠ .broken → u.c.state = policyState d u.c.pledgeState) ∧
    (s.c.state ≠ .broken → (∃ p, firstOutcome s.log p ≠ none) →
      s.c.state = policyState d s.c.pledgeState) ∧
    (s.c.state = .broken → t.c.state = .broken ∧ starts t.log = starts s.log) := by
  have holds := reached_latchInvariant reached
  have holds' := reached_latchInvariant (run_append.mpr ⟨s, reached, later⟩)
  obtain ⟨more, log, broken⟩ := run_extends later
  refine ⟨holds.latch, ?_, holds.payload, ?_, holds.state, ?_⟩
  · intro p latched
    have decided : firstOutcome s.log p ≠ none := by
      rw [holds.latch, ne_eq, latchOf_eq_pending] at latched
      exact latched
    obtain ⟨out, first⟩ := Option.ne_none_iff_exists'.mp decided
    rw [holds.latch, holds'.latch, log, firstOutcome_append, first, Option.some_or]
  · intro out commit writeBack u stepped unbroken
    obtain ⟨thunk, rest, -, rfl⟩ := step_finish stepped
    simp [leave, evalPolicy, unbroken]
  · intro isBroken
    obtain ⟨still, none⟩ := broken isBroken
    refine ⟨still, ?_⟩
    unfold starts at none ⊢
    rw [log, List.filterMap_append, none, List.append_nil]

/-- A contract of one pledge outside any subcontract. -/
def soloDesc : GeasContractDesc where
  name := "Solo"
  shapeHash := 1
  version := 1
  pledges := [⟨"act", 0, -1⟩]
  vows := []
  subs := []
  atoms := []
  hasReqs := false
  reqFulfill := []
  reqPartial := []
  reqBreak := []
  nschemas := 0
  subFlags := none

/-- A queued fulfillment whose body returns `Err`, which breaks the contract. -/
def soloRun : List (Action soloDesc) :=
  [.fulfill ⟨"act", 0, 0, false, false, .ok⟩, .dequeue 0 .ok,
    .finish .ok (.result 1 (some (.int 0 7))) .ok .ok]

theorem run_lifecycle_solo :
    ∃ s t, run step (signedSys soloDesc [] 0) soloRun = some s ∧
      run step s [.inline ⟨"act", 0, 0, false, false, .ok⟩ .ok] = some t ∧
      s.c.state = .broken ∧ t.c.state = .broken ∧ starts t.log = starts s.log := by
  obtain ⟨t, whole⟩ : ∃ t, run step (signedSys soloDesc [] 0)
      (soloRun ++ [.inline ⟨"act", 0, 0, false, false, .ok⟩ .ok]) = some t :=
    Option.isSome_iff_exists.mp (by decide)
  obtain ⟨s, reached, later⟩ := run_append.mp whole
  have broken : s.c.state = .broken := by
    have reads : (run step (signedSys soloDesc [] 0) soloRun).map (·.c.state) = some .broken := by
      decide
    rw [reached] at reads
    exact Option.some.inj reads
  exact ⟨s, t, reached, later, broken, (run_lifecycle reached later).2.2.2.2.2 broken⟩

end Geas.Runtime
