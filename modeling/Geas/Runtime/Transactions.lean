import Geas.Runtime.Lifecycle

/-!
# Transactional subcontracts over whole runs

A transactional subcontract buffers the writes of its pledges in one episode
that a commit or a rollback closes.  This module says once what the episode
machinery can do around a thunk, and derives from it when the latches of a
subcontract agree with the durable outcome, and how often a body may run to an
`Ok`.
-/

namespace Geas.Runtime

open Geas.Abi
open Geas.Lib.Transition

variable {d : GeasContractDesc}

/-- Whether a subcontract carries the transactional flag. -/
def isTransactional (d : GeasContractDesc) (sub : Fin d.nsubs) : Bool :=
  match d.subFlags with
  | none => false
  | some flags => flags.getD sub 0 &&& subTransactional != 0

theorem pledgeTxnSub_eq_some {p : Fin d.npledges} {sub : Fin d.nsubs} :
    pledgeTxnSub d p = some sub ↔ d.subOf p = some sub ∧ isTransactional d sub = true := by
  unfold pledgeTxnSub isTransactional
  rw [Option.bind_eq_some_iff]
  cases d.subFlags with
  | none => simp
  | some flags =>
      simp only
      constructor
      · rintro ⟨other, inside, flagged⟩
        split at flagged
        · cases flagged
        · next nonzero =>
          cases flagged
          exact ⟨inside, by simpa using nonzero⟩
      · rintro ⟨inside, flagged⟩
        exact ⟨sub, inside, by simpa using flagged⟩

theorem mem_subMembers {p : Fin d.npledges} {sub : Fin d.nsubs} :
    p ∈ subMembers d (sub : Nat) ↔ d.subOf p = some sub := by
  have bound := sub.isLt
  unfold subMembers GeasContractDesc.pledgeIsLoose GeasContractDesc.subOf
  simp only [List.mem_filter, List.mem_finRange, true_and, Bool.and_eq_true, beq_iff_eq,
    Bool.not_eq_true', Bool.or_eq_false_iff, decide_eq_false_iff_not]
  split
  · next inside =>
    simp only [Option.some.injEq, Fin.ext_iff]
    omega
  · next outside =>
    simp only [reduceCtorEq, iff_false]
    omega

/-- The members of a transactional subcontract are the pledges its episode
covers. -/
theorem mem_subMembers_iff_pledgeTxnSub {p : Fin d.npledges} {sub : Fin d.nsubs}
    (transactional : isTransactional d sub = true) :
    p ∈ subMembers d (sub : Nat) ↔ pledgeTxnSub d p = some sub := by
  rw [mem_subMembers, pledgeTxnSub_eq_some]
  simp [transactional]

theorem subAll_iff {latches : Latches d} {s : Int} {want : PledgeLatch} :
    subAll d latches s want = true ↔
      subMembers d s ≠ [] ∧ ∀ p ∈ subMembers d s, latches p = want := by
  simp [subAll]

theorem subAll_congr {latches latches' : Latches d} {s : Int} (want : PledgeLatch)
    (same : ∀ p ∈ subMembers d s, latches p = latches' p) :
    subAll d latches s want = subAll d latches' s want := by
  rw [Bool.eq_iff_iff, subAll_iff, subAll_iff]
  refine and_congr_right fun _ => forall₂_congr fun p membership => ?_
  rw [same p membership]

/-! ## What the episode machinery does around a thunk -/

/-- Before the thunk: the call is turned away with the episodes as they were, or
it goes ahead, and then the episode of its own subcontract is open if there is a
connection. -/
theorem txnBefore_cases (c : GeasContract d) (p : Fin d.npledges) (answer : GeasStatus) :
    ((txnBefore c p answer).status ≠ .ok ∧ (txnBefore c p answer).c = c) ∨
    ((txnBefore c p answer).status = .ok ∧ (txnBefore c p answer).c = c ∧
      (pledgeTxnSub d p = none ∨ c.store = false)) ∨
    ∃ sub, pledgeTxnSub d p = some sub ∧ c.store = true ∧ c.subTxn sub ≠ .txnDone ∧
      (txnBefore c p answer).status = .ok ∧
      (txnBefore c p answer).c = { c with subTxn := Function.update c.subTxn sub .txnOpen } := by
  unfold txnBefore
  cases inside : pledgeTxnSub d p with
  | none => exact Or.inr (Or.inl ⟨rfl, rfl, Or.inl rfl⟩)
  | some sub =>
      by_cases closed : c.store = false
      · simp only [if_pos closed]
        exact Or.inr (Or.inl ⟨trivial, trivial, Or.inr closed⟩)
      · have connected : c.store = true := by simpa using closed
        simp only [if_neg closed]
        cases fate : c.subTxn sub with
        | txnDone => exact Or.inl ⟨nofun, rfl⟩
        | txnOpen =>
            refine Or.inr (Or.inr ⟨sub, rfl, connected, by simp [fate], rfl, ?_⟩)
            have unchanged : Function.update c.subTxn sub .txnOpen = c.subTxn := by
              rw [← fate, Function.update_eq_self]
            rw [unchanged]
        | txnNone =>
            by_cases granted : answer = .ok
            · refine Or.inr (Or.inr ⟨sub, rfl, connected, by simp [fate], ?_⟩)
              simp [granted]
            · exact Or.inl (by simp [granted])

/-- The instance after the latch and the policy, before the episode is looked
at. -/
def latched (c : GeasContract d) (p : Fin d.npledges) (status : GeasStatus) (out : GeasValue) :
    GeasContract d :=
  if status = .ok then
    { latchPledge c p out with
      state := evalPolicy d (latchPledge c p out).pledgeState (latchPledge c p out).state }
  else c

theorem settle_eq (c : GeasContract d) (p : Fin d.npledges) (status answer : GeasStatus)
    (out : GeasValue) :
    settle c p status out answer = txnAfter (latched c p status out) p status out answer := by
  unfold settle latched
  split <;> rfl

@[simp] theorem latched_store (c : GeasContract d) (p : Fin d.npledges) (status : GeasStatus)
    (out : GeasValue) : (latched c p status out).store = c.store := by
  unfold latched
  split <;> simp

@[simp] theorem latched_subTxn (c : GeasContract d) (p : Fin d.npledges) (status : GeasStatus)
    (out : GeasValue) : (latched c p status out).subTxn = c.subTxn := by
  unfold latched
  split <;> simp

/-- After the thunk: nothing to do, the episode stays open, it is rolled back,
or it is committed, and the backend takes the commit or refuses it. -/
theorem settle_cases (c : GeasContract d) (p : Fin d.npledges) (status answer : GeasStatus)
    (out : GeasValue) :
    ((settle c p status out answer).events = [] ∧
      (settle c p status out answer).status = status ∧
      (settle c p status out answer).c.subTxn = c.subTxn ∧
      ∀ sub, pledgeTxnSub d p = some sub → c.store = true → c.subTxn sub = .txnOpen →
        status = .ok ∧ isErr out = false ∧
          subAll d (settle c p status out answer).c.pledgeState (sub : Nat) .fulfilled = false) ∨
    ∃ sub, pledgeTxnSub d p = some sub ∧ c.store = true ∧ c.subTxn sub = .txnOpen ∧
      (settle c p status out answer).c.subTxn = Function.update c.subTxn sub .txnDone ∧
      (((settle c p status out answer).events = [.rolledBack sub] ∧
          (settle c p status out answer).status = status ∧
          (status ≠ .ok ∨ isErr out = true)) ∨
        (status = .ok ∧ isErr out = false ∧
          subAll d (settle c p status out answer).c.pledgeState (sub : Nat) .fulfilled = true ∧
          ((answer = .ok ∧ (settle c p status out answer).events = [.committed sub .ok] ∧
              (settle c p status out answer).status = .ok) ∨
            (answer ≠ .ok ∧
              (settle c p status out answer).events = [.committed sub answer, .rolledBack sub] ∧
              (settle c p status out answer).status = .errStore)))) := by
  rw [settle_eq]
  generalize state : latched c p status out = e
  have store : e.store = c.store := by rw [← state, latched_store]
  have subTxn : e.subTxn = c.subTxn := by rw [← state, latched_subTxn]
  rw [← store, ← subTxn]
  unfold txnAfter closeEpisode
  cases inside : pledgeTxnSub d p with
  | none => exact Or.inl ⟨rfl, rfl, rfl, nofun⟩
  | some sub =>
      by_cases closed : e.store = false ∨ e.subTxn sub ≠ .txnOpen
      · simp only [if_pos closed]
        refine Or.inl ⟨trivial, trivial, trivial, ?_⟩
        rintro _ ⟨⟩ connected opened
        simp [connected, opened] at closed
      · have opened : e.store = true ∧ e.subTxn sub = .txnOpen := by simpa using closed
        simp only [if_neg closed]
        by_cases failed : status ≠ .ok ∨ isErr out = true
        · simp only [if_pos failed]
          exact Or.inr ⟨sub, rfl, opened.1, opened.2, rfl, Or.inl ⟨rfl, trivial, failed⟩⟩
        · have fine : status = .ok ∧ isErr out = false := by simpa using failed
          simp only [if_neg failed]
          cases complete : subAll d e.pledgeState (sub : Nat) .fulfilled with
          | false =>
              refine Or.inl ⟨by simp, by simp, by simp, ?_⟩
              rintro _ ⟨⟩ _ _
              exact ⟨fine.1, fine.2, by simpa using complete⟩
          | true =>
              refine Or.inr ⟨sub, rfl, opened.1, opened.2, ?_⟩
              by_cases granted : answer = .ok
              · simp [granted, fine.1, fine.2, complete]
              · simp [granted, fine.1, fine.2, complete]

/-- Only the returning pledge's latch can move, and only from `PENDING`. -/
theorem settle_pledgeState_of_latched (c : GeasContract d) (p : Fin d.npledges)
    (status answer : GeasStatus) (out : GeasValue) {q : Fin d.npledges}
    (still : q = p → c.pledgeState q ≠ .pending) :
    (settle c p status out answer).c.pledgeState q = c.pledgeState q := by
  rw [settle_pledgeState]
  split
  · rw [latchPledge_pledgeState, if_neg]
    rintro ⟨rfl, pending⟩
    exact still rfl pending
  · rfl

/-! ## Fulfilled means committed -/

/-- Whether a commit of the episode of `sub` succeeded. -/
def commitSucceeded (log : List (Event d)) (sub : Fin d.nsubs) : Bool :=
  log.any fun
    | .committed s answer => s == sub && answer == .ok
    | _ => false

/-- A pledge of the episode of `sub` is in flight. -/
def InFlight (running : List (Thunk d)) (sub : Fin d.nsubs) : Prop :=
  ∃ thunk ∈ running, pledgeTxnSub d thunk.pidx = some sub

theorem commitSucceeded_append (log more : List (Event d)) (sub : Fin d.nsubs) :
    commitSucceeded (log ++ more) sub = (commitSucceeded log sub || commitSucceeded more sub) :=
  List.any_append

theorem enter_commitSucceeded (s : Sys d) (thunk : Thunk d) (begun : GeasStatus)
    (sub : Fin d.nsubs) :
    commitSucceeded (enter s thunk begun).log sub = commitSucceeded s.log sub := by
  have silent : commitSucceeded (txnBefore s.c thunk.pidx begun).events sub = false := by
    unfold txnBefore
    split
    · rfl
    · split
      · rfl
      · split
        · rfl
        · rfl
        · split <;> rfl
  unfold enter
  dsimp only
  split <;> simp only [commitSucceeded_append, silent, Bool.or_false] <;> exact Bool.or_false _

/-- The steps that keep latches and database together: every `COMMIT` the
backend is asked for succeeds, an inline call's refs can be written back, a call
nested in a thunk of its own episode ends `Ok`, and no break arrives while a
thunk of an episode runs. -/
def KeepsEpisodes (s : Sys d) : Action d → Prop
  | .finish status out commit writeBack => commit = .ok ∧ writeBack = .ok ∧
      ∀ thunk rest sub, s.running = thunk :: rest → pledgeTxnSub d thunk.pidx = some sub →
        InFlight rest sub → status = .ok ∧ isErr out = false
  | .brk => ∀ sub, ¬InFlight s.running sub
  | _ => True

/-- The latches of `sub` agree with its episode. -/
structure EpisodeAgrees (s : Sys d) (sub : Fin d.nsubs) : Prop where
  agrees : subAll d s.c.pledgeState (sub : Nat) .fulfilled = commitSucceeded s.log sub
  flight : InFlight s.running sub → s.c.store = true ∧ (s.c.subTxn sub = .txnOpen ∨
    s.c.subTxn sub = .txnDone ∧ commitSucceeded s.log sub = true)
  unresolved : s.c.store = true → s.c.subTxn sub ≠ .txnDone → commitSucceeded s.log sub = false

/-- Without its connection a store-backed instance is Broken. -/
def StoreKept (s : Sys d) : Prop := s.c.store = false → s.c.state = .broken

theorem step_storeKept {s t : Sys d} {action : Action d} (holds : StoreKept s)
    (stepped : step s action = some t) : StoreKept t := by
  unfold StoreKept at holds ⊢
  rcases step_cases stepped with ⟨c, -, -⟩ | ⟨futures, thunk, begun, -, -, -, rfl⟩ |
    ⟨thunk, rest, status, out, commit, writeBack, -, -, rfl⟩ | ⟨-, -, rfl⟩
  · rw [c]
    exact holds
  · rw [enter_state, enter_c, txnBefore_store]
    exact holds
  · simp only [leave, settle_store, settle_state]
    intro closed
    simp [evalPolicy, holds closed]
  · exact fun _ => rfl

theorem signedSys_storeKept (vowVals : List GeasValue) (signedAt : Int64)
    (backed : 0 < d.nschemas) : StoreKept (signedSys d vowVals signedAt) := by
  intro closed
  have connected : (signedSys d vowVals signedAt).c.store = true := decide_eq_true backed
  rw [connected] at closed
  cases closed

theorem enter_episodeAgrees {s : Sys d} {sub : Fin d.nsubs} (holds : EpisodeAgrees s sub)
    (kept : StoreKept s) (gate : gateOpen s.c.state = true) (thunk : Thunk d)
    (begun : GeasStatus) : EpisodeAgrees (enter s thunk begun) sub := by
  have commits := enter_commitSucceeded s thunk begun sub
  have connected : s.c.store = true := by
    by_contra closed
    rw [kept (by simpa using closed)] at gate
    cases gate
  rcases txnBefore_cases s.c thunk.pidx begun with ⟨refused, c⟩ | ⟨started, c, outside⟩ |
    ⟨own, inside, -, unresolved, started, c⟩
  · have result : (enter s thunk begun).c = s.c ∧ (enter s thunk begun).running = s.running := by
      simp [enter, refused, c]
    refine ⟨?_, ?_, ?_⟩ <;> rw [result.1, commits]
    exacts [holds.agrees, result.2 ▸ holds.flight, holds.unresolved]
  · have result : (enter s thunk begun).c = s.c ∧
        (enter s thunk begun).running = thunk :: s.running := by
      simp [enter, started, c]
    have loose : pledgeTxnSub d thunk.pidx = none := by simpa [connected] using outside
    refine ⟨?_, ?_, ?_⟩ <;> rw [result.1, commits]
    · exact holds.agrees
    · rw [result.2]
      rintro ⟨other, membership, inside⟩
      rcases List.mem_cons.mp membership with rfl | earlier
      · rw [loose] at inside
        cases inside
      · exact holds.flight ⟨other, earlier, inside⟩
    · exact holds.unresolved
  · have result : (enter s thunk begun).c =
          { s.c with subTxn := Function.update s.c.subTxn own .txnOpen } ∧
        (enter s thunk begun).running = thunk :: s.running := by
      simp [enter, started, c]
    refine ⟨?_, ?_, ?_⟩ <;> rw [result.1, commits]
    · exact holds.agrees
    · rw [result.2]
      rintro ⟨other, membership, covers⟩
      refine ⟨connected, ?_⟩
      by_cases same : sub = own
      · subst same
        exact Or.inl (Function.update_self ..)
      · rcases List.mem_cons.mp membership with rfl | earlier
        · rw [inside] at covers
          exact absurd (Option.some.inj covers).symm same
        · simpa [Function.update_of_ne same] using
            (holds.flight ⟨other, earlier, covers⟩).2
    · intro _ open'
      by_cases same : sub = own
      · subst same
        exact holds.unresolved connected unresolved
      · exact holds.unresolved connected (by simpa [Function.update_of_ne same] using open')

section Leave

variable {s : Sys d} {sub : Fin d.nsubs} {thunk : Thunk d} {rest : List (Thunk d)}
variable {status : GeasStatus} {out : GeasValue} {commit writeBack : GeasStatus}

/-- A return adds to the commits of `sub` what its store operations hold. -/
theorem leave_commitSucceeded {events : List (Event d)}
    (settled : (settle s.c thunk.pidx status out commit).events = events) :
    commitSucceeded (leave s thunk rest status out commit writeBack).log sub =
      (commitSucceeded s.log sub || commitSucceeded events sub) := by
  subst settled
  exact commitSucceeded_append _ _ _

/-- A return outside the subcontract leaves its latches alone. -/
theorem settle_subAll_of_outside (transactional : isTransactional d sub = true)
    (outside : pledgeTxnSub d thunk.pidx ≠ some sub) :
    subAll d (settle s.c thunk.pidx status out commit).c.pledgeState (sub : Nat) .fulfilled =
      subAll d s.c.pledgeState (sub : Nat) .fulfilled := by
  apply subAll_congr
  intro q membership
  apply settle_pledgeState_of_latched
  rintro rfl
  exact absurd ((mem_subMembers_iff_pledgeTxnSub transactional).mp membership) outside

/-- A failed or `Err` return never completes its subcontract. -/
theorem settle_subAll_of_failed (inside : thunk.pidx ∈ subMembers d (sub : Nat))
    (failed : status ≠ .ok ∨ isErr out = true)
    (incomplete : subAll d s.c.pledgeState (sub : Nat) .fulfilled = false) :
    subAll d (settle s.c thunk.pidx status out commit).c.pledgeState (sub : Nat) .fulfilled =
      false := by
  by_cases moves : status = .ok ∧ s.c.pledgeState thunk.pidx = .pending
  · obtain ⟨rfl, pending⟩ := moves
    have err : isErr out = true := by simpa using failed
    rw [← Bool.not_eq_true, subAll_iff]
    rintro ⟨-, all⟩
    have latched := all thunk.pidx inside
    rw [settle_pledgeState, if_pos rfl, latchPledge_pledgeState, if_pos ⟨rfl, pending⟩,
      latchOf, if_pos err] at latched
    cases latched
  · rw [← incomplete]
    apply subAll_congr
    intro q _
    by_cases ok : status = .ok
    · apply settle_pledgeState_of_latched
      rintro rfl pending
      exact moves ⟨ok, pending⟩
    · rw [settle_pledgeState, if_neg ok]

theorem leave_episodeAgrees (transactional : isTransactional d sub = true)
    (holds : EpisodeAgrees s sub) (running : s.running = thunk :: rest)
    (granted : commit = .ok)
    (nested : ∀ own, pledgeTxnSub d thunk.pidx = some own → InFlight rest own →
      status = .ok ∧ isErr out = false) :
    EpisodeAgrees (leave s thunk rest status out commit writeBack) sub := by
  have earlier : InFlight rest sub → InFlight s.running sub := by
    rintro ⟨other, membership, covers⟩
    exact ⟨other, running ▸ List.mem_cons_of_mem _ membership, covers⟩
  have own : pledgeTxnSub d thunk.pidx = some sub → InFlight s.running sub := fun covers =>
    ⟨thunk, running ▸ List.mem_cons_self, covers⟩
  rcases settle_cases s.c thunk.pidx status commit out with
    ⟨events, -, subTxn, pending⟩ | ⟨other, covers, connected, opened, subTxn, outcome⟩
  · have commits : commitSucceeded (leave s thunk rest status out commit writeBack).log sub =
        commitSucceeded s.log sub := by
      rw [leave_commitSucceeded events]
      exact Bool.or_false _
    refine ⟨?_, ?_, ?_⟩ <;> rw [commits]
    · by_cases covers : pledgeTxnSub d thunk.pidx = some sub
      · obtain ⟨connected, opened | ⟨-, committed⟩⟩ := holds.flight (own covers)
        · rw [holds.unresolved connected (by rw [opened]; decide)]
          exact (pending sub covers connected opened).2.2
        · have complete := holds.agrees.trans committed
          rw [committed, ← complete]
          apply subAll_congr
          intro q membership
          apply settle_pledgeState_of_latched
          rw [(subAll_iff.mp complete).2 q membership]
          exact fun _ => nofun
      · exact (settle_subAll_of_outside transactional covers).trans holds.agrees
    · intro flight
      simpa [leave, subTxn] using holds.flight (earlier flight)
    · simpa [leave, subTxn] using holds.unresolved
  · by_cases same : sub = other
    · subst same
      have notYet := holds.unresolved connected (by rw [opened]; decide)
      have inside := (mem_subMembers_iff_pledgeTxnSub transactional).mpr covers
      have resolved : (leave s thunk rest status out commit writeBack).c.subTxn sub = .txnDone := by
        simp [leave, subTxn]
      rcases outcome with ⟨events, -, failed⟩ | ⟨-, -, complete, ⟨-, events, -⟩ | ⟨refused, -⟩⟩
      · have commits : commitSucceeded (leave s thunk rest status out commit writeBack).log sub =
            false := by
          rw [leave_commitSucceeded events, notYet]
          rfl
        refine ⟨?_, ?_, ?_⟩ <;> rw [commits]
        · exact settle_subAll_of_failed inside failed (holds.agrees.trans notYet)
        · intro flight
          obtain ⟨ok, fine⟩ := nested sub covers flight
          rw [ok, fine] at failed
          simp at failed
        · exact fun _ _ => rfl
      · have commits : commitSucceeded (leave s thunk rest status out commit writeBack).log sub =
            true := by
          rw [leave_commitSucceeded events]
          simp [commitSucceeded]
        refine ⟨?_, ?_, ?_⟩ <;> rw [commits]
        · exact complete
        · exact fun _ => ⟨by simpa [leave] using connected, Or.inr ⟨resolved, rfl⟩⟩
        · exact fun _ unresolved => absurd resolved unresolved
      · exact absurd granted refused
    · have untouched : (settle s.c thunk.pidx status out commit).c.subTxn sub = s.c.subTxn sub := by
        rw [subTxn, Function.update_of_ne same]
      have commits : commitSucceeded (leave s thunk rest status out commit writeBack).log sub =
          commitSucceeded s.log sub := by
        rcases outcome with ⟨events, -⟩ | ⟨-, -, -, ⟨-, events, -⟩ | ⟨-, events, -⟩⟩ <;>
          rw [leave_commitSucceeded events] <;> simp [commitSucceeded, Ne.symm same]
      have outside : pledgeTxnSub d thunk.pidx ≠ some sub := by
        rw [covers]
        exact fun equal => same (Option.some.inj equal).symm
      refine ⟨?_, ?_, ?_⟩ <;> rw [commits]
      · exact (settle_subAll_of_outside transactional outside).trans holds.agrees
      · intro flight
        simpa [leave, untouched] using holds.flight (earlier flight)
      · simpa [leave, untouched] using holds.unresolved

end Leave

/-- A step that keeps episodes keeps every subcontract in agreement. -/
theorem step_episodeAgrees {s t : Sys d} {action : Action d} {sub : Fin d.nsubs}
    (transactional : isTransactional d sub = true) (kept : StoreKept s)
    (holds : EpisodeAgrees s sub) (guard : KeepsEpisodes s action)
    (stepped : step s action = some t) : EpisodeAgrees t sub := by
  rcases step_cases stepped with ⟨c, running, log⟩ | ⟨futures, thunk, begun, gate, -, -, rfl⟩ |
    ⟨thunk, rest, status, out, commit, writeBack, rfl, running, rfl⟩ | ⟨rfl, -, rfl⟩
  · refine ⟨?_, ?_, ?_⟩ <;> rw [c, log]
    exacts [holds.agrees, running ▸ holds.flight, holds.unresolved]
  · have same : EpisodeAgrees { s with futures := futures } sub :=
      ⟨holds.agrees, holds.flight, holds.unresolved⟩
    exact enter_episodeAgrees same kept gate thunk begun
  · obtain ⟨granted, -, nested⟩ := guard
    exact leave_episodeAgrees transactional holds running granted fun own covers =>
      nested thunk rest own running covers
  · have commits : commitSucceeded (s.log ++ [.broke]) sub = commitSucceeded s.log sub := by
      rw [commitSucceeded_append]
      exact Bool.or_false _
    refine ⟨?_, ?_, ?_⟩
    · rw [commits]
      exact holds.agrees
    · exact fun flight => absurd flight (guard sub)
    · exact fun connected => absurd connected Bool.false_ne_true

theorem signedSys_episodeAgrees (vowVals : List GeasValue) (signedAt : Int64)
    (sub : Fin d.nsubs) : EpisodeAgrees (signedSys d vowVals signedAt) sub := by
  refine ⟨?_, ?_, fun _ _ => rfl⟩
  · change subAll d (fun _ => .pending) (sub : Nat) .fulfilled = false
    rw [← Bool.not_eq_true, subAll_iff]
    rintro ⟨nonempty, all⟩
    obtain ⟨p, membership⟩ := List.exists_mem_of_ne_nil _ nonempty
    cases all p membership
  · rintro ⟨_, membership, -⟩
    cases membership

/-- The status a fulfillment answers with. -/
def Event.answer : Event d → Option GeasStatus
  | .returned _ _ _ delivered => some delivered
  | .refused _ status => some status
  | _ => none

/-- An answer other than `GEAS_OK` never comes with a commit. -/
theorem leave_answer {s : Sys d} {thunk : Thunk d} {rest : List (Thunk d)}
    {status : GeasStatus} {out : GeasValue} {commit : GeasStatus} {sub : Fin d.nsubs}
    (granted : commit = .ok) {event : Event d} {answer : GeasStatus}
    (recorded : event ∈ (leave s thunk rest status out commit .ok).log.drop s.log.length)
    (answered : event.answer = some answer) (failed : answer ≠ .ok) :
    commitSucceeded (leave s thunk rest status out commit .ok).log sub =
      commitSucceeded s.log sub := by
  have silent : ∀ other ∈ (settle s.c thunk.pidx status out commit).events,
      other.answer = none := by
    intro other membership
    have store := settle_events s.c thunk.pidx status commit out other membership
    cases other <;> first | rfl | cases store
  have delivers : delivered thunk (settle s.c thunk.pidx status out commit).status .ok ≠ .ok := by
    simp only [leave, List.drop_left] at recorded
    rcases List.mem_cons.mp recorded with rfl | later
    · cases answered
      exact failed
    · rw [silent event later] at answered
      cases answered
  rcases settle_cases s.c thunk.pidx status commit out with
    ⟨events, -⟩ | ⟨other, -, -, -, -, ⟨events, -⟩ | ⟨-, -, -, ⟨-, -, ok⟩ | ⟨refused, -⟩⟩⟩
  · rw [leave_commitSucceeded events]
    exact Bool.or_false _
  · rw [leave_commitSucceeded events]
    exact Bool.or_false _
  · rw [ok] at delivers
    exact absurd (by simp [delivered]) delivers
  · exact absurd granted refused

/-- A store-backed contract with one transactional subcontract of two pledges. -/
def ledgerDesc : GeasContractDesc where
  name := "Ledger"
  shapeHash := 1
  version := 1
  pledges := [⟨"debit", 0, 0⟩, ⟨"credit", 0, 0⟩]
  vows := []
  subs := [some "Transfer"]
  atoms := []
  hasReqs := false
  reqFulfill := []
  reqPartial := []
  reqBreak := []
  nschemas := 1
  subFlags := some [1]

/-- One inline call whose body returns `Ok(())`; `commit` answers the `COMMIT`
it may ask for. -/
def okCall (name : String) (commit : GeasStatus) : List (Action ledgerDesc) :=
  [.inline ⟨name, 0, 0, false, false, .ok⟩ .ok,
    .finish .ok (.result 0 (some (.unit 0))) commit .ok]

/-- The one subcontract of `ledgerDesc`. -/
def transfer : Fin ledgerDesc.nsubs := ⟨0, by decide⟩

theorem okCall_keepsEpisodes (name : String) :
    ∀ action ∈ okCall name .ok, ∀ s : Sys ledgerDesc, KeepsEpisodes s action := by
  intro action membership s
  simp only [okCall, List.mem_cons, List.not_mem_nil, or_false] at membership
  rcases membership with rfl | rfl
  · trivial
  · exact ⟨rfl, rfl, fun _ _ _ _ _ _ => ⟨rfl, rfl⟩⟩

/-- An outcome of pledge `p` with `GEAS_OK` and no `Err`. -/
def Event.isOkOf (p : Fin d.npledges) (event : Event d) : Bool :=
  match outcomeOf p event with
  | some out => !isErr out
  | none => false

/-- How often the body of `p` ran to an `Ok`. -/
def okCount (log : List (Event d)) (p : Fin d.npledges) : Nat :=
  log.countP (Event.isOkOf p)

/-- How many thunks of `p` are in flight. -/
def flights (running : List (Thunk d)) (p : Fin d.npledges) : Nat :=
  running.countP fun thunk => thunk.pidx = p

/-- A call of a transactional pledge that would get past its episode finds the
pledge neither fulfilled nor in flight. -/
def CallsOnce (s : Sys d) (p : Fin d.npledges) : Prop :=
  ∀ sub, pledgeTxnSub d p = some sub → s.c.subTxn sub ≠ .txnDone →
    s.c.pledgeState p ≠ .fulfilled ∧ flights s.running p = 0

/-- The steps that call each transactional pledge once. -/
def CallsEachOnce (s : Sys d) (action : Action d) : Prop :=
  ∀ p, Calls s action p → CallsOnce s p

/-- Nothing more of `p` can start: it is fulfilled, its episode is closed, or
the instance lost its connection. -/
def Spent (s : Sys d) (p : Fin d.npledges) (sub : Fin d.nsubs) : Prop :=
  s.c.pledgeState p = .fulfilled ∨ s.c.subTxn sub = .txnDone ∨ s.c.store = false

/-- The invariant that counts the `Ok` outcomes of `p`. -/
structure RunsOnce (s : Sys d) (p : Fin d.npledges) (sub : Fin d.nsubs) : Prop where
  once : okCount s.log p + flights s.running p ≤ 1
  spent : 0 < okCount s.log p → Spent s p sub
  errs : s.c.pledgeState p = .broken → s.c.subTxn sub = .txnDone ∨ s.c.store = false
  opened : 0 < flights s.running p → s.c.subTxn sub ≠ .txnNone ∨ s.c.store = false

theorem okCount_append (log more : List (Event d)) (p : Fin d.npledges) :
    okCount (log ++ more) p = okCount log p + okCount more p :=
  List.countP_append

theorem okCount_store {more : List (Event d)} (stores : ∀ event ∈ more, event.isStore = true)
    (p : Fin d.npledges) : okCount more p = 0 := by
  unfold okCount
  rw [List.countP_eq_zero]
  intro event membership
  have store := stores event membership
  cases event <;> simp_all [Event.isStore, Event.isOkOf, outcomeOf]

theorem okCount_enter (s : Sys d) (thunk : Thunk d) (begun : GeasStatus) (p : Fin d.npledges) :
    okCount (enter s thunk begun).log p = okCount s.log p := by
  obtain ⟨more, last, log, stores, ends⟩ := enter_log s thunk begun
  rw [log, okCount_append, okCount_append, okCount_store stores]
  rcases ends with ⟨rfl, -⟩ | ⟨_, rfl, -⟩ <;> rfl

theorem flights_cons (thunk : Thunk d) (running : List (Thunk d)) (p : Fin d.npledges) :
    flights (thunk :: running) p =
      flights running p + if thunk.pidx = p then 1 else 0 := by
  unfold flights
  rw [List.countP_cons]
  simp

theorem okCount_leave (s : Sys d) (thunk : Thunk d) (rest : List (Thunk d)) (status : GeasStatus)
    (out : GeasValue) (commit writeBack : GeasStatus) (p : Fin d.npledges) :
    okCount (leave s thunk rest status out commit writeBack).log p =
      okCount s.log p +
        if thunk.pidx = p ∧ status = .ok ∧ isErr out = false then 1 else 0 := by
  have stores := settle_events s.c thunk.pidx status commit out
  simp only [leave, okCount_append]
  congr 1
  have silent := okCount_store stores p
  unfold okCount at silent ⊢
  rw [List.countP_cons, silent, Nat.zero_add]
  by_cases same : thunk.pidx = p
  · cases status <;> simp [Event.isOkOf, outcomeOf, same]
  · cases status <;> simp [Event.isOkOf, outcomeOf, same]

/-- An episode stays as it is across a return, or is closed. -/
theorem settle_subTxn (c : GeasContract d) (p : Fin d.npledges) (status answer : GeasStatus)
    (out : GeasValue) (sub : Fin d.nsubs) :
    (settle c p status out answer).c.subTxn sub = c.subTxn sub ∨
      (settle c p status out answer).c.subTxn sub = .txnDone := by
  rcases settle_cases c p status answer out with ⟨-, -, subTxn, -⟩ | ⟨other, -, -, -, subTxn, -⟩
  · exact Or.inl (by rw [subTxn])
  · by_cases same : sub = other
    · subst same
      exact Or.inr (by rw [subTxn, Function.update_self])
    · exact Or.inl (by rw [subTxn, Function.update_of_ne same])

/-- A latch that breaks across a return broke on an `Err`. -/
theorem isErr_of_breaks {c : GeasContract d} {p : Fin d.npledges} {status answer : GeasStatus}
    {out : GeasValue} (was : c.pledgeState p ≠ .broken)
    (broken : (settle c p status out answer).c.pledgeState p = .broken) : isErr out = true := by
  rw [settle_pledgeState] at broken
  split at broken
  · rw [latchPledge_pledgeState] at broken
    split at broken
    · by_contra fine
      simp [latchOf, fine] at broken
    · exact absurd broken was
  · exact absurd broken was

section RunsOnce

variable {s : Sys d} {p : Fin d.npledges} {sub : Fin d.nsubs}

theorem enter_runsOnce (inside : pledgeTxnSub d p = some sub) (holds : RunsOnce s p sub)
    (connected : s.c.store = true) (thunk : Thunk d) (begun : GeasStatus)
    (calls : thunk.pidx = p → CallsOnce s p) : RunsOnce (enter s thunk begun) p sub := by
  have count := okCount_enter s thunk begun p
  rcases txnBefore_cases s.c thunk.pidx begun with ⟨refused, c⟩ | ⟨started, c, outside⟩ |
    ⟨own, covers, -, unresolved, started, c⟩
  · have result : (enter s thunk begun).c = s.c ∧ (enter s thunk begun).running = s.running := by
      simp [enter, refused, c]
    refine ⟨?_, ?_, ?_, ?_⟩ <;> simp only [count, Spent, result.1, result.2]
    exacts [holds.once, holds.spent, holds.errs, holds.opened]
  · have result : (enter s thunk begun).c = s.c ∧
        (enter s thunk begun).running = thunk :: s.running := by
      simp [enter, started, c]
    have other : thunk.pidx ≠ p := by
      rintro rfl
      simp [inside, connected] at outside
    refine ⟨?_, ?_, ?_, ?_⟩ <;>
      simp only [count, Spent, result.1, result.2, flights_cons, if_neg other, Nat.add_zero]
    exacts [holds.once, holds.spent, holds.errs, holds.opened]
  · have result : (enter s thunk begun).c =
          { s.c with subTxn := Function.update s.c.subTxn own .txnOpen } ∧
        (enter s thunk begun).running = thunk :: s.running := by
      simp [enter, started, c]
    by_cases same : thunk.pidx = p
    · obtain rfl : own = sub := Option.some.inj (covers.symm.trans (same ▸ inside))
      obtain ⟨unfulfilled, idle⟩ := calls same own inside unresolved
      have unspent : ¬Spent s p own := by
        rintro (fulfilled | done | closed)
        · exact unfulfilled fulfilled
        · exact unresolved done
        · rw [connected] at closed
          cases closed
      have none : okCount s.log p = 0 := by
        by_contra some
        exact unspent (holds.spent (Nat.pos_of_ne_zero some))
      refine ⟨?_, ?_, ?_, ?_⟩ <;> simp only [count, result.1, result.2, flights_cons, if_pos same]
      · omega
      · omega
      · exact fun broken => absurd (Or.inr (holds.errs broken)) unspent
      · exact fun _ => Or.inl (by simp)
    · have fate : Function.update s.c.subTxn own .txnOpen sub = s.c.subTxn sub ∨
          s.c.subTxn sub ≠ .txnDone ∧ Function.update s.c.subTxn own .txnOpen sub = .txnOpen := by
        by_cases own' : sub = own
        · subst own'
          exact Or.inr ⟨unresolved, Function.update_self ..⟩
        · exact Or.inl (Function.update_of_ne own' ..)
      have once := holds.once
      have spent := holds.spent
      have errs := holds.errs
      have opened := holds.opened
      refine ⟨?_, ?_, ?_, ?_⟩ <;>
        simp only [count, Spent, result.1, result.2, flights_cons, if_neg same, Nat.add_zero]
      · exact once
      · intro some
        rcases fate with fate | ⟨notDone, -⟩
        · rw [fate]
          exact spent some
        · rcases spent some with fulfilled | done | closed
          exacts [Or.inl fulfilled, absurd done notDone, Or.inr (Or.inr closed)]
      · intro broken
        rcases fate with fate | ⟨notDone, -⟩
        · rw [fate]
          exact errs broken
        · exact Or.inr ((errs broken).resolve_left notDone)
      · intro some
        rcases fate with fate | ⟨-, isOpen⟩
        · rw [fate]
          exact opened some
        · exact Or.inl (by rw [isOpen]; decide)

theorem leave_runsOnce (inside : pledgeTxnSub d p = some sub) (holds : RunsOnce s p sub)
    {thunk : Thunk d} {rest : List (Thunk d)} (running : s.running = thunk :: rest)
    (status : GeasStatus) (out : GeasValue) (commit writeBack : GeasStatus) :
    RunsOnce (leave s thunk rest status out commit writeBack) p sub := by
  have once := holds.once
  have spent := holds.spent
  have errs := holds.errs
  have opened := holds.opened
  rw [running, flights_cons] at once opened
  have fate := settle_subTxn s.c thunk.pidx status commit out sub
  have closes : s.c.subTxn sub = .txnDone ∨ s.c.store = false →
      (settle s.c thunk.pidx status out commit).c.subTxn sub = .txnDone ∨ s.c.store = false := by
    rintro (done | closed)
    · exact Or.inl (fate.elim (·.trans done) id)
    · exact Or.inr closed
  by_cases same : thunk.pidx = p
  · subst same
    rw [if_pos rfl] at once opened
    have reached := opened (by omega)
    refine ⟨?_, ?_, ?_, ?_⟩
    · rw [okCount_leave]
      simp only [leave]
      split <;> omega
    · rw [okCount_leave]
      intro some
      have ok : status = .ok ∧ isErr out = false := by
        by_contra failed
        rw [if_neg (by simpa using failed)] at some
        omega
      simp only [Spent, leave, settle_pledgeState, settle_store, if_pos ok.1,
        latchPledge_pledgeState]
      cases latch : s.c.pledgeState thunk.pidx with
      | pending => exact Or.inl (by simp [latchOf, ok.2])
      | fulfilled => exact Or.inl (by simp)
      | broken => exact Or.inr (closes (errs latch))
    · intro broken
      simp only [leave, settle_store]
      by_cases was : s.c.pledgeState thunk.pidx = .broken
      · exact closes (errs was)
      · have err := isErr_of_breaks was broken
        rcases settle_cases s.c thunk.pidx status commit out with
          ⟨-, -, subTxn, pending⟩ | ⟨own, covers, -, -, subTxn, -⟩
        · rw [subTxn]
          by_cases closed : s.c.store = false
          · exact Or.inr closed
          · have connected : s.c.store = true := by simpa using closed
            cases fate' : s.c.subTxn sub with
            | txnNone => exact absurd fate' (reached.resolve_right closed)
            | txnDone => exact Or.inl rfl
            | txnOpen =>
                rw [(pending sub inside connected fate').2.1] at err
                cases err
        · obtain rfl : own = sub := Option.some.inj (covers.symm.trans inside)
          exact Or.inl (by rw [subTxn, Function.update_self])
    · simp only [leave]
      omega
  · rw [if_neg same, Nat.add_zero] at once opened
    have latch : (settle s.c thunk.pidx status out commit).c.pledgeState p = s.c.pledgeState p :=
      settle_pledgeState_of_latched _ _ _ _ _ fun equal => absurd equal.symm same
    have count : okCount (leave s thunk rest status out commit writeBack).log p =
        okCount s.log p := by
      rw [okCount_leave, if_neg (fun both => same both.1), Nat.add_zero]
    refine ⟨?_, ?_, ?_, ?_⟩
    · rw [count]
      exact once
    · rw [count]
      simp only [Spent, leave, latch, settle_store]
      exact fun some => (spent some).imp id closes
    · simp only [leave, latch, settle_store]
      exact fun broken => closes (errs broken)
    · simp only [leave, settle_store]
      intro some
      rcases opened some with begun | closed
      · rcases fate with fate | done
        · exact Or.inl (by rw [fate]; exact begun)
        · exact Or.inl (by rw [done]; decide)
      · exact Or.inr closed

/-- A step that calls each transactional pledge once keeps the count. -/
theorem step_runsOnce {t : Sys d} {action : Action d} (inside : pledgeTxnSub d p = some sub)
    (kept : StoreKept s) (holds : RunsOnce s p sub) (guard : CallsEachOnce s action)
    (stepped : step s action = some t) : RunsOnce t p sub := by
  rcases step_cases stepped with ⟨c, running, log⟩ | ⟨futures, thunk, begun, gate, calls, -, rfl⟩ |
    ⟨thunk, rest, status, out, commit, writeBack, -, running, rfl⟩ | ⟨-, -, rfl⟩
  · refine ⟨?_, ?_, ?_, ?_⟩ <;> simp only [Spent, c, running, log]
    exacts [holds.once, holds.spent, holds.errs, holds.opened]
  · have connected : s.c.store = true := by
      by_contra closed
      rw [kept (by simpa using closed)] at gate
      cases gate
    have same : RunsOnce { s with futures := futures } p sub :=
      ⟨holds.once, holds.spent, holds.errs, holds.opened⟩
    exact enter_runsOnce inside same connected thunk begun fun equal =>
      guard p (equal ▸ calls)
  · exact leave_runsOnce inside holds running status out commit writeBack
  · have count : okCount (s.log ++ [.broke]) p = okCount s.log p := by
      rw [okCount_append]
      rfl
    refine ⟨?_, ?_, ?_, ?_⟩ <;> simp only [count]
    · exact holds.once
    · exact fun _ => Or.inr (Or.inr rfl)
    · exact fun _ => Or.inr rfl
    · exact fun _ => Or.inr rfl

end RunsOnce

/-- In every run of a store-backed instance whose calls find each transactional
pledge neither fulfilled nor in flight while its episode can still take it, the
body of every transactional pledge runs to an `Ok` at most once. -/
theorem ok_at_most_once {vowVals : List GeasValue} {signedAt : Int64}
    {actions : List (Action d)} {s : Sys d} {p : Fin d.npledges} {sub : Fin d.nsubs}
    (backed : 0 < d.nschemas) (inside : pledgeTxnSub d p = some sub)
    (guarded : Guarded step CallsEachOnce (signedSys d vowVals signedAt) actions)
    (reached : run step (signedSys d vowVals signedAt) actions = some s) :
    okCount s.log p ≤ 1 := by
  have keeps : ∀ (state : Sys d) label next, StoreKept state ∧ RunsOnce state p sub →
      CallsEachOnce state label → step state label = some next →
      StoreKept next ∧ RunsOnce next p sub := fun _ _ _ holds guard stepped =>
    ⟨step_storeKept holds.1 stepped, step_runsOnce inside holds.1 holds.2 guard stepped⟩
  have start : RunsOnce (signedSys d vowVals signedAt) p sub :=
    ⟨Nat.zero_le 1, nofun, nofun, nofun⟩
  obtain ⟨-, holds⟩ := run_invariant keeps
    ⟨signedSys_storeKept vowVals signedAt backed, start⟩ guarded reached
  have once := holds.once
  omega

/-- The first pledge of `ledgerDesc`. -/
def debit : Fin ledgerDesc.npledges := ⟨0, by decide⟩

theorem okCall_callsEachOnce (name : String) :
    Guarded step CallsEachOnce (signedSys ledgerDesc [] 0) (okCall name .ok) := by
  refine ⟨fun p _ sub _ _ => ⟨nofun, rfl⟩, fun t _ => ⟨?_, fun _ _ => trivial⟩⟩
  rintro p (⟨_, _, _, label, -⟩ | ⟨_, _, label, -⟩) <;> cases label

/-- One call of a pledge: it ran to an `Ok`, and it did so at most once. -/
theorem ok_at_most_once_debit :
    ∃ s, run step (signedSys ledgerDesc [] 0) (okCall "debit" .ok) = some s ∧
      0 < okCount s.log debit ∧ okCount s.log debit ≤ 1 := by
  obtain ⟨s, reached, ran⟩ : ∃ s, run step (signedSys ledgerDesc [] 0) (okCall "debit" .ok) =
      some s ∧ okCount s.log debit = 1 :=
    exists_run_of_map (by decide)
  exact ⟨s, reached, by omega, ok_at_most_once (by decide) (show _ = some transfer by decide)
    (okCall_callsEachOnce "debit") reached⟩

/-- The same pledge called twice while its episode is open runs to an `Ok`
twice, and the commit takes both. -/
theorem ok_twice_in_one_commit :
    ∃ s, run step (signedSys ledgerDesc [] 0)
        (okCall "debit" .ok ++ okCall "debit" .ok ++ okCall "credit" .ok) = some s ∧
      (okCount s.log debit, commitSucceeded s.log transfer) = (2, true) :=
  exists_run_of_map (by decide)

end Geas.Runtime
