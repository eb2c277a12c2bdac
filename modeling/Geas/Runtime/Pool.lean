import Geas.Lib.Transition
import Geas.Runtime.Lifecycle
import Geas.Runtime.Futures

/-!
# The future protocol

`poolStep` is the machine of an instance with all its futures, where any party may
take its turn at any future at any time.
-/

namespace Geas.Runtime.Pool

open Geas.Abi
open Geas.Lib.Transition

variable {d : GeasContractDesc} {H : Type}

/-- An inline call in flight. -/
structure Nested (d : GeasContractDesc) (H : Type) where
  pidx : Fin d.npledges
  refs : List (GeasRef H)

/-- The instance, host memory, the future whose thunk is in flight, the inline calls
above it, innermost first, and the bodies started so far. -/
structure Ground (d : GeasContractDesc) (H : Type) where
  c : GeasContract d
  host : H
  task : Option (Nat × Fin d.npledges)
  nested : List (Nested d H)
  starts : List (Fin d.npledges)

/-- With all futures made so far, by address. -/
structure PoolSys (d : GeasContractDesc) (H : Type) extends Ground d H where
  futures : Nat → Option (Entry d H)

/-- One critical section of the runtime. -/
inductive PoolAction (d : GeasContractDesc) (H : Type) where
  /-- `future_new` gets its block at the unused address `k`. -/
  | futureNew (k : Nat) (sync : Bool) (call : Call H)
  | check (k : Nat)
  | reject (k : Nat)
  | enqueue (k : Nat)
  | dequeue (k : Nat)
  /-- `run_task` of future `k` up to the thunk's start. -/
  | runTask (k : Nat) (begun : GeasStatus)
  /-- `fulfill_inline` up to the thunk's start. -/
  | inline (call : Call H) (begun : GeasStatus)
  /-- The innermost thunk returns, having left `slots` in the frame. -/
  | finish (status : GeasStatus) (out : GeasValue) (commit : GeasStatus) (slots : Nat → GeasValue)
  | unref (k : Nat)
  | brk
  | wait (k : Nat)
  | unlink (k : Nat)
  | drop (k : Nat)

/-- A party takes its turn at future `k`. -/
def PoolSys.turnAt (memory : HostMemory H) (s : PoolSys d H) (k : Nat) (label : Turn d H) :
    Option (PoolSys d H) :=
  ((s.futures k).bind fun e => turn memory e label).map fun e =>
    { s with futures := Function.update s.futures k (some e) }

/-- The status of building the frame of an inline call. -/
def frameStatus (memory : HostMemory H) (host : H) (call : Call H) : GeasStatus :=
  match prepareFrame memory host call with
  | .error status => status
  | .ok _ => .ok

theorem writable_of_frameStatus {memory : HostMemory H} {host : H} {call : Call H}
    (ok : frameStatus memory host call = .ok) : ∀ r ∈ call.refs, Writable r := by
  unfold frameStatus at ok
  split at ok
  · next status failed =>
    exact absurd (ok ▸ failed) (prepareFrame_honest memory host call)
  · next copied prepared => exact writable_of_prepareFrame prepared

/-- One step of the system. -/
def poolStep (memory : HostMemory H) (s : PoolSys d H) :
    PoolAction d H → Option (PoolSys d H)
  | .futureNew k sync call =>
      if (s.futures k).isSome then none
      else some { s with
        futures := Function.update s.futures k (some (Pool.futureNew sync call)) }
  | .check k => s.turnAt memory k (.check s.c s.host)
  | .reject k => s.turnAt memory k .reject
  | .enqueue k => s.turnAt memory k .enqueue
  | .dequeue k => s.turnAt memory k .dequeue
  | .runTask k begun =>
      if s.task.isSome ∨ s.nested ≠ [] then none
      else
        match (s.futures k).bind fun e => e.f.pidx with
        | none => none
        | some p =>
            let gate := txnBefore s.c p begun
            if gateOpen s.c.state = false then s.turnAt memory k (.refuse .errState)
            else if gate.status ≠ .ok then
              { s with c := gate.c }.turnAt memory k (.refuse gate.status)
            else
              { s with c := gate.c, task := some (k, p), starts := s.starts ++ [p] }.turnAt memory k
                .start
  | .inline call begun =>
      match validate s.c (call.request (frameStatus memory s.host call)) with
      | .error _ => some s
      | .ok p =>
          let gate := txnBefore s.c p begun
          if gate.status ≠ .ok then some { s with c := gate.c }
          else some { s with
            c := gate.c
            nested := ⟨p, call.refs⟩ :: s.nested
            starts := s.starts ++ [p] }
  | .finish status out commit slots =>
      match s.nested, s.task with
      | call :: rest, _ =>
          let settled := settle s.c call.pidx status out commit
          some { s with
            c := settled.c
            nested := rest
            host :=
              if settled.status = .ok ∧ call.refs ≠ [] then
                (writeBackRefs memory s.host call.refs slots).2
              else s.host }
      | [], some (k, p) =>
          let settled := settle s.c p status out commit
          { s with c := settled.c, task := none }.turnAt memory k
            (.finish settled.status out slots)
      | [], none => none
  | .unref k => s.turnAt memory k .unref
  | .brk =>
      if s.c.state = .unsigned then some s
      else some { s with
        c := breakInstance s.c
        futures := fun k => (s.futures k).bind fun e => turn memory e .forfeit }
  | .wait k =>
      match s.futures k with
      | none => none
      | some e =>
          { s with host := (geasFutureWait memory s.host e.f).2.2 }.turnAt memory k (.wait s.host)
  | .unlink k => s.turnAt memory k .unlink
  | .drop k => s.turnAt memory k .drop

/-- An instance without futures. -/
def idlePool (c : GeasContract d) (host : H) : PoolSys d H :=
  ⟨⟨c, host, none, [], []⟩, fun _ => none⟩

theorem validate_ok {c : GeasContract d} {request : Request} {p : Fin d.npledges}
    (accepted : validate c request = .ok p) :
    gateOpen c.state = true ∧ request.frame = .ok := by
  unfold validate at accepted
  split at accepted
  · cases accepted
  · split at accepted
    · cases accepted
    · next gate =>
      split at accepted
      · cases accepted
      · split at accepted
        · cases accepted
        · split at accepted
          · cases accepted
          · next frame => exact ⟨by simpa using gate, not_not.mp frame⟩

/-! ## All futures of an instance -/

section System

variable {memory : HostMemory H} {s t : PoolSys d H} {action : PoolAction d H}

theorem turnAt_cases {k : Nat} {label : Turn d H} (stepped : s.turnAt memory k label = some t) :
    ∃ e e', s.futures k = some e ∧ turn memory e label = some e' ∧
      t = { s with futures := Function.update s.futures k (some e') } := by
  obtain ⟨e', bound, rfl⟩ := Option.map_eq_some_iff.mp stepped
  obtain ⟨e, present, turned⟩ := Option.bind_eq_some_iff.mp bound
  exact ⟨e, e', present, turned, rfl⟩

/-- Each future is as it was, new, or took one turn; what a validation looks at is
the instance. -/
def Changes (memory : HostMemory H) (s t : PoolSys d H) (k : Nat) : Prop :=
  t.futures k = s.futures k ∨
    (s.futures k = none ∧ ∃ sync call, t.futures k = some (futureNew sync call)) ∨
    ∃ e e' label, s.futures k = some e ∧ t.futures k = some e' ∧ turn memory e label = some e' ∧
      ∀ c host, label = .check c host → c = s.c

theorem changes_of_turnAt {s' : PoolSys d H} {k : Nat} {label : Turn d H}
    (stepped : s'.turnAt memory k label = some t) (futures : s'.futures = s.futures)
    (checks : ∀ c host, label = .check c host → c = s.c) (j : Nat) : Changes memory s t j := by
  obtain ⟨e, e', present, turned, rfl⟩ := turnAt_cases stepped
  rw [futures] at present
  by_cases here : j = k
  · refine Or.inr (Or.inr ⟨e, e', label, here ▸ present, ?_, turned, checks⟩)
    rw [here]
    exact Function.update_self ..
  · refine Or.inl ?_
    dsimp only
    rw [Function.update_of_ne here, futures]

theorem poolStep_changes (stepped : poolStep memory s action = some t) (k : Nat) :
    Changes memory s t k := by
  cases action with
  | futureNew j sync call =>
      simp only [poolStep] at stepped
      split at stepped
      · cases stepped
      · next unused =>
        cases stepped
        by_cases here : k = j
        · refine Or.inr (Or.inl ⟨here ▸ by simpa using unused, sync, call, ?_⟩)
          rw [here]
          exact Function.update_self ..
        · exact Or.inl (Function.update_of_ne here ..)
  | check j =>
      refine changes_of_turnAt stepped rfl ?_ k
      intro c host same
      cases same
      rfl
  | reject j | enqueue j | dequeue j | unref j | unlink j | drop j =>
      exact changes_of_turnAt (s := s) stepped rfl nofun k
  | runTask j begun =>
      simp only [poolStep] at stepped
      split at stepped
      · cases stepped
      · split at stepped
        · cases stepped
        · split at stepped
          · exact changes_of_turnAt (s := s) stepped rfl nofun k
          · split at stepped
            · exact changes_of_turnAt (s := s) stepped rfl nofun k
            · exact changes_of_turnAt (s := s) stepped rfl nofun k
  | inline call begun =>
      simp only [poolStep] at stepped
      split at stepped
      · cases stepped
        exact Or.inl rfl
      · split at stepped
        · cases stepped
          exact Or.inl rfl
        · cases stepped
          exact Or.inl rfl
  | finish status out commit slots =>
      simp only [poolStep] at stepped
      split at stepped
      · cases stepped
        exact Or.inl rfl
      · exact changes_of_turnAt (s := s) stepped rfl nofun k
      · cases stepped
  | brk =>
      simp only [poolStep] at stepped
      split at stepped
      · cases stepped
        exact Or.inl rfl
      · cases stepped
        cases present : s.futures k with
        | none =>
            refine Or.inl ?_
            dsimp only
            rw [present]
            rfl
        | some e =>
            refine Or.inr (Or.inr ⟨e, _, .forfeit, present, ?_, rfl, nofun⟩)
            dsimp only
            rw [present]
            rfl
  | wait j =>
      simp only [poolStep] at stepped
      split at stepped
      · cases stepped
      · exact changes_of_turnAt (s := s) stepped rfl nofun k

/-- Everything a step does around the futures. -/
inductive GroundStep (memory : HostMemory H) (s t : PoolSys d H) : PoolAction d H → Prop where
  | kept {action : PoolAction d H} (ground : t.toGround = s.toGround) :
      GroundStep memory s t action
  /-- The gate of a call turns it away. -/
  | gated {action : PoolAction d H} (p : Fin d.npledges) (begun : GeasStatus)
      (opened : gateOpen s.c.state = true)
      (ground : t.toGround = { s.toGround with c := (txnBefore s.c p begun).c }) :
      GroundStep memory s t action
  | started (k : Nat) (begun : GeasStatus) (p : Fin d.npledges)
      (opened : gateOpen s.c.state = true) (idle : s.task = none)
      (ground : t.toGround = { s.toGround with
        c := (txnBefore s.c p begun).c
        task := some (k, p)
        starts := s.starts ++ [p] }) :
      GroundStep memory s t (.runTask k begun)
  | entered (call : Call H) (begun : GeasStatus) (p : Fin d.npledges)
      (opened : gateOpen s.c.state = true) (writable : ∀ r ∈ call.refs, Writable r)
      (ground : t.toGround = { s.toGround with
        c := (txnBefore s.c p begun).c
        nested := ⟨p, call.refs⟩ :: s.nested
        starts := s.starts ++ [p] }) :
      GroundStep memory s t (.inline call begun)
  | left (call : Nested d H) (rest : List (Nested d H)) (status : GeasStatus) (out : GeasValue)
      (commit : GeasStatus) (slots : Nat → GeasValue) (nested : s.nested = call :: rest)
      (ground : t.toGround = { s.toGround with
        c := (settle s.c call.pidx status out commit).c
        nested := rest
        host :=
          if (settle s.c call.pidx status out commit).status = .ok ∧ call.refs ≠ [] then
            (writeBackRefs memory s.host call.refs slots).2
          else s.host }) :
      GroundStep memory s t (.finish status out commit slots)
  | finished (k : Nat) (p : Fin d.npledges) (status : GeasStatus) (out : GeasValue)
      (commit : GeasStatus) (slots : Nat → GeasValue) (flight : s.task = some (k, p))
      (ground : t.toGround = { s.toGround with
        c := (settle s.c p status out commit).c
        task := none }) :
      GroundStep memory s t (.finish status out commit slots)
  | broke (signed : s.c.state ≠ .unsigned)
      (ground : t.toGround = { s.toGround with c := breakInstance s.c }) :
      GroundStep memory s t .brk
  | delivered (k : Nat) (e e' : Entry d H) (present : s.futures k = some e)
      (made : t.futures k = some e') (turned : turn memory e (.wait s.host) = some e')
      (ground : t.toGround = { s.toGround with
        host := (geasFutureWait memory s.host e.f).2.2 }) :
      GroundStep memory s t (.wait k)

theorem poolStep_ground (stepped : poolStep memory s action = some t) :
    GroundStep memory s t action := by
  cases action with
  | futureNew j sync call =>
      simp only [poolStep] at stepped
      split at stepped
      · cases stepped
      · cases stepped
        exact .kept rfl
  | check j | reject j | enqueue j | dequeue j | unref j | unlink j | drop j =>
      obtain ⟨_, _, -, -, rfl⟩ := turnAt_cases stepped
      exact .kept rfl
  | runTask j begun =>
      simp only [poolStep] at stepped
      split at stepped
      · cases stepped
      · next free =>
        have idle : s.task = none := by simpa using (not_or.mp free).1
        split at stepped
        · cases stepped
        · next p _ =>
          split at stepped
          · obtain ⟨_, _, -, -, rfl⟩ := turnAt_cases stepped
            exact .kept rfl
          · next closed =>
            have opened : gateOpen s.c.state = true := by simpa using closed
            split at stepped
            · obtain ⟨_, _, -, -, rfl⟩ := turnAt_cases stepped
              exact .gated p begun opened rfl
            · obtain ⟨_, _, -, -, rfl⟩ := turnAt_cases stepped
              exact .started j begun p opened idle rfl
  | inline call begun =>
      simp only [poolStep] at stepped
      split at stepped
      · cases stepped
        exact .kept rfl
      · next p valid =>
        obtain ⟨opened, frame⟩ := validate_ok valid
        split at stepped
        · cases stepped
          exact .gated p begun opened rfl
        · cases stepped
          exact .entered call begun p opened (writable_of_frameStatus frame) rfl
  | finish status out commit slots =>
      simp only [poolStep] at stepped
      split at stepped
      · next call rest nested =>
        cases stepped
        exact .left call rest status out commit slots nested rfl
      · next k p _ flight =>
        obtain ⟨_, _, -, -, rfl⟩ := turnAt_cases stepped
        exact .finished k p status out commit slots flight rfl
      · cases stepped
  | brk =>
      simp only [poolStep] at stepped
      split at stepped
      · cases stepped
        exact .kept rfl
      · next signed =>
        cases stepped
        exact .broke signed rfl
  | wait j =>
      simp only [poolStep] at stepped
      split at stepped
      · cases stepped
      · next e present =>
        obtain ⟨e₁, e', present', turned, rfl⟩ := turnAt_cases stepped
        obtain rfl : e = e₁ := Option.some.inj (present.symm.trans present')
        exact .delivered j e e' present (Function.update_self ..) turned rfl

/-- A step of a Broken instance leaves it Broken and starts no body. -/
theorem poolStep_broken (stepped : poolStep memory s action = some t)
    (broken : s.c.state = .broken) : t.c.state = .broken ∧ t.starts = s.starts := by
  have closed : gateOpen s.c.state ≠ true := by
    rw [broken]
    exact Bool.false_ne_true
  have stays : ∀ p status out commit, (settle s.c p status out commit).c.state = .broken := by
    intro p status out commit
    rw [settle_state, broken]
    split <;> rfl
  cases poolStep_ground stepped with
  | kept ground =>
      rw [ground]
      exact ⟨broken, rfl⟩
  | gated p begun opened ground => exact absurd opened closed
  | started k begun p opened idle ground => exact absurd opened closed
  | entered call begun p opened writable ground => exact absurd opened closed
  | left call rest status out commit slots nested ground =>
      rw [ground]
      exact ⟨stays .., rfl⟩
  | finished k p status out commit slots flight ground =>
      rw [ground]
      exact ⟨stays .., rfl⟩
  | broke signed ground =>
      rw [ground]
      exact ⟨rfl, rfl⟩
  | delivered k e e' present made turned ground =>
      rw [ground]
      exact ⟨broken, rfl⟩

/-- The invariant of the system. -/
structure PoolInvariant (s : PoolSys d H) : Prop where
  entries : ∀ k e, s.futures k = some e → EntryInvariant e
  nested : ∀ call ∈ s.nested, ∀ r ∈ call.refs, Writable r

theorem idlePool_invariant (c : GeasContract d) (host : H) : PoolInvariant (idlePool c host) := by
  constructor
  · intro k e present
    cases present
  · intro call membership
    cases membership

theorem poolStep_nested (holds : ∀ call ∈ s.nested, ∀ r ∈ call.refs, Writable r)
    (stepped : poolStep memory s action = some t) :
    ∀ call ∈ t.nested, ∀ r ∈ call.refs, Writable r := by
  cases poolStep_ground stepped with
  | entered call begun p opened writable ground =>
      rw [ground]
      exact List.forall_mem_cons.mpr ⟨writable, holds⟩
  | left call rest status out commit slots nested ground =>
      rw [ground]
      rw [nested] at holds
      exact (List.forall_mem_cons.mp holds).2
  | kept ground | gated _ _ _ ground | started _ _ _ _ _ ground | finished _ _ _ _ _ _ _ ground
  | broke _ ground | delivered _ _ _ _ _ _ ground =>
      rw [ground]
      exact holds

theorem poolStep_invariant (holds : PoolInvariant s) (stepped : poolStep memory s action = some t) :
    PoolInvariant t := by
  refine ⟨?_, poolStep_nested holds.nested stepped⟩
  intro k e present
  rcases poolStep_changes stepped k with same | ⟨-, sync, call, made⟩ |
    ⟨before, after, label, present', made, turned, -⟩
  · exact holds.entries k e (same.symm.trans present)
  · obtain rfl := Option.some.inj (present.symm.trans made)
    exact futureNew_invariant sync call
  · obtain rfl := Option.some.inj (present.symm.trans made)
    exact turn_invariant (holds.entries k before present') turned

/-- Every future of `s` is one of `t`, and evolved. -/
def AllEvolve (s t : PoolSys d H) : Prop :=
  ∀ k e, s.futures k = some e → ∃ e', t.futures k = some e' ∧ Evolves e e'

theorem AllEvolve.trans {s t u : PoolSys d H} (first : AllEvolve s t) (second : AllEvolve t u) :
    AllEvolve s u := by
  intro k e present
  obtain ⟨e', present', evolves⟩ := first k e present
  obtain ⟨e'', present'', evolves'⟩ := second k e' present'
  exact ⟨e'', present'', evolves.trans evolves'⟩

theorem poolStep_allEvolve (stepped : poolStep memory s action = some t) : AllEvolve s t := by
  intro k e present
  rcases poolStep_changes stepped k with same | ⟨unused, -⟩ |
    ⟨before, after, label, present', made, turned, -⟩
  · exact ⟨e, same.trans present, .refl e⟩
  · rw [unused] at present
    cases present
  · obtain rfl := Option.some.inj (present.symm.trans present')
    exact ⟨after, made, turn_evolves turned⟩

/-- Host memory changes only where an outcome is delivered, and then as a whole. -/
def HostKept (memory : HostMemory H) (s : PoolSys d H) (action : PoolAction d H)
    (t : PoolSys d H) : Prop :=
  t.host = s.host ∨
    (∃ k e e' slots, action = .wait k ∧ s.futures k = some e ∧ t.futures k = some e' ∧
      e.f.waited = false ∧ e.f.status = .ok ∧ e'.returns = [⟨.ok, some e.f.value⟩] ∧
      e.f.refSlots = some slots ∧ t.host = written memory s.host (slotted e.f.refs slots)) ∨
    ∃ call rest status out commit slots, action = .finish status out commit slots ∧
      s.nested = call :: rest ∧ t.nested = rest ∧
      (settle s.c call.pidx status out commit).status = .ok ∧
      t.host = written memory s.host (slotted call.refs slots)

theorem poolStep_hostKept (holds : PoolInvariant s) (stepped : poolStep memory s action = some t) :
    HostKept memory s action t := by
  cases poolStep_ground stepped with
  | left call rest status out commit slots nested ground =>
      rw [HostKept, ground]
      dsimp only
      split
      · next settled =>
        have writable := holds.nested call (by rw [nested]; exact List.mem_cons_self)
        rcases writeBackRefs_all_or_none memory s.host slots writable with none | all
        · exact Or.inl (by rw [none])
        · exact Or.inr (Or.inr ⟨call, rest, status, out, commit, slots, rfl, nested, rfl,
            settled.1, by rw [all]⟩)
      · exact Or.inl rfl
  | delivered k e e' present made turned ground =>
      rw [HostKept, ground]
      have entry := holds.entries k e present
      rcases geasFutureWait_host memory s.host entry.writable with same |
        ⟨unwaited, ok, returned, slots, set, all⟩
      · exact Or.inl same
      · refine Or.inr (Or.inl ⟨k, e, e', slots, rfl, present, made, unwaited, ok, ?_, set, all⟩)
        rw [wait_returns turned, delivered_of_unwaited entry.delivered unwaited, returned,
          List.nil_append]
  | kept ground | gated _ _ _ ground | started _ _ _ _ _ ground | entered _ _ _ _ _ ground
  | finished _ _ _ _ _ _ _ ground | broke _ ground => exact Or.inl (by rw [ground])

/-- `t` comes after an explicit break of `s`: nothing started since, every future
that was unwaited at the break is forfeited, and those made since are barred. -/
structure Reclaimed (s t : PoolSys d H) : Prop where
  state : t.c.state = .broken
  starts : t.starts = s.starts
  forfeited : ∀ k e, s.futures k = some e → e.f.waited = false →
    ∃ e', t.futures k = some e' ∧ Forfeited e'.f
  barred : ∀ k e', s.futures k = none → t.futures k = some e' → Barred e'

theorem brk_reclaimed (holds : PoolInvariant s) (signed : s.c.state ≠ .unsigned)
    (stepped : poolStep memory s .brk = some t) : Reclaimed s t := by
  rw [poolStep, if_neg signed] at stepped
  cases stepped
  refine ⟨rfl, rfl, fun k e present unwaited => ?_, fun k e' unused present => ?_⟩
  · have linked := (holds.entries k e present).linked_of_unwaited unwaited
    refine ⟨{ e with f := futureForfeit e.f }, ?_, futureForfeit_forfeited unwaited⟩
    dsimp only
    rw [present]
    simp only [Option.bind_some, turn, if_pos linked]
  · dsimp only at present
    rw [unused] at present
    cases present

theorem poolStep_keepsReclaimed {u : PoolSys d H} (holds : Reclaimed s t)
    (stepped : poolStep memory t action = some u) : Reclaimed s u := by
  obtain ⟨broken, starts⟩ := poolStep_broken stepped holds.state
  have closed : gateOpen t.c.state = false := by
    rw [holds.state]
    rfl
  refine ⟨broken, starts.trans holds.starts, ?_, ?_⟩
  · intro k e present unwaited
    obtain ⟨e', present', forfeited⟩ := holds.forfeited k e present unwaited
    rcases poolStep_changes stepped k with same | ⟨unused, -⟩ |
      ⟨before, after, label, there, made, turned, checks⟩
    · exact ⟨e', same.trans present', forfeited⟩
    · rw [unused] at present'
      cases present'
    · obtain rfl := Option.some.inj (present'.symm.trans there)
      refine ⟨after, made, turn_forfeited forfeited (fun c host check => ?_) turned⟩
      rw [checks c host check]
      exact closed
  · intro k e' unused present
    rcases poolStep_changes stepped k with same | ⟨-, sync, call, made⟩ |
      ⟨before, after, label, there, made, turned, checks⟩
    · exact holds.barred k e' unused (same.symm.trans present)
    · obtain rfl := Option.some.inj (present.symm.trans made)
      exact futureNew_barred sync call
    · obtain rfl := Option.some.inj (present.symm.trans made)
      refine turn_barred (holds.barred k before unused there) (fun c host check => ?_) turned
      rw [checks c host check]
      exact closed

end System

theorem reached_poolInvariant {memory : HostMemory H} {c : GeasContract d} {host : H}
    {actions : List (PoolAction d H)} {s : PoolSys d H}
    (reached : run (poolStep memory) (idlePool c host) actions = some s) : PoolInvariant s :=
  run_invariant (fun _ _ _ holds _ stepped => poolStep_invariant holds stepped)
    (idlePool_invariant c host) (guarded_true _ actions) reached

/-- In every run of the parties every future keeps the promises of the protocol and
its outcome, once published, unless a break forfeits it unwaited; host memory
changes only where an outcome is delivered with `GEAS_OK`, and then as a whole;
and from an explicit break on nothing starts, every future that was unwaited
delivers `GEAS_ERR_STATE` and points nowhere, and so do those made since, as far
as their arguments are not refused for their type. -/
theorem future_protocol {memory : HostMemory H} {c : GeasContract d} {host : H}
    {actions : List (PoolAction d H)} {s : PoolSys d H}
    (reached : run (poolStep memory) (idlePool c host) actions = some s) :
    (∀ k e, s.futures k = some e → Promised memory e) ∧
    (∀ back t, run (poolStep memory) s back = some t → AllEvolve s t) ∧
    (∀ action t, poolStep memory s action = some t → HostKept memory s action t) ∧
    ∀ t, s.c.state ≠ .unsigned → poolStep memory s .brk = some t →
      ∀ back u, run (poolStep memory) t back = some u → Reclaimed s u ∧
        ∀ k e e', s.futures k = some e → e.f.waited = false → u.futures k = some e' →
          ∀ result ∈ e'.returns, result.status = .errState := by
  have holds := reached_poolInvariant reached
  refine ⟨?_, ?_, ?_, ?_⟩
  · exact fun k e present => (holds.entries k e present).promised memory s.c s.host
  · intro back t ran
    refine run_relation (fun _ k e present => ⟨e, present, .refl e⟩) (fun _ _ _ => AllEvolve.trans)
      (fun _ _ _ (_ : True) _ stepped => ⟨trivial, poolStep_allEvolve stepped⟩) trivial
      (guarded_true s back) ran
  · exact fun action t stepped => poolStep_hostKept holds stepped
  · intro t signed broke back u ran
    have reclaimed : Reclaimed s u :=
      run_invariant (fun _ _ _ holds _ stepped => poolStep_keepsReclaimed holds stepped)
        (brk_reclaimed holds signed broke) (guarded_true t back) ran
    have last : PoolInvariant u :=
      run_invariant (fun _ _ _ holds _ stepped => poolStep_invariant holds stepped)
        (poolStep_invariant holds broke) (guarded_true t back) ran
    refine ⟨reclaimed, fun k e e' present unwaited present' result returned => ?_⟩
    obtain ⟨_, there, forfeited⟩ := reclaimed.forfeited k e present unwaited
    obtain rfl := Option.some.inj (present'.symm.trans there)
    rcases (last.entries k e' present').delivered with ⟨-, none⟩ |
      ⟨-, -, first, rest, all, head, tail⟩
    · rw [none] at returned
      cases returned
    · rw [all] at returned
      rcases List.mem_cons.mp returned with rfl | later
      · rcases head with rfl | ⟨ok, -⟩
        · exact forfeited.status
        · exact absurd (forfeited.status.symm.trans ok) (by decide)
      · rw [tail result later]

/-- A contract of one pledge with one argument. -/
def tallyDesc : GeasContractDesc :=
  { soloDesc with
    name := "Tally"
    pledges := [⟨"count", 1, -1⟩] }

/-- Host memory of one word. -/
def wordMemory : HostMemory Int64 where
  load host _ tag :=
    match tag with
    | .unit => .unit 0
    | .int => .int 0 host
    | .uint => .uint 0 host.toUInt64
    | .float => .float 0 host.toUInt64
    | .bool => .bool 0 host.toUInt64.toUInt8
    | .byte => .byte 0 host.toUInt64.toUInt8
    | .char => .char 0 host.toUInt64.toUInt32
    | .string => .string 0 none
    | .list => .list 0 0 none
    | .map => .map 0 0 none
    | .tuple => .tuple 0 none
    | .option => .option 0 none
    | .result => .result 0 none
    | .record => .record 0 none
    | .pledgeRef => .pledgeRef 0
    | .sum => .sum 0 none
    | .inst => .inst 0 0
  load_ty _ _ tag := by cases tag <;> rfl
  store host _ value :=
    match value with
    | .int _ i => i
    | _ => host

/-- A call of `count` on the word at cell 0. -/
def countCall : Call Int64 :=
  ⟨"count", 0, false, [⟨some 0, GeasTypeTag.int.code, none⟩], false, .ok, true, fun _ => true⟩

/-- The pool runs the call and its body leaves 9 in the slot. -/
def countRun : List (PoolAction tallyDesc Int64) :=
  [.futureNew 0 false countCall, .check 0, .enqueue 0, .dequeue 0, .runTask 0 .ok,
    .finish .ok (.unit 0) .ok fun _ => .int 0 9]

example :
    (run (poolStep wordMemory) (idlePool (freshContract tallyDesc [] 0) 5)
      (countRun ++ [.wait 0])).map (·.host) = some 9 := by
  decide +kernel

theorem future_protocol_count :
    ∃ s t u e e', run (poolStep wordMemory) (idlePool (freshContract tallyDesc [] 0) 5) countRun =
        some s ∧
      poolStep wordMemory s .brk = some t ∧ run (poolStep wordMemory) t [.wait 0, .wait 0] = some u ∧
      s.futures 0 = some e ∧ u.futures 0 = some e' ∧ Promised wordMemory e ∧ Reclaimed s u ∧
      e'.returns.length = 2 ∧ ∀ result ∈ e'.returns, result.status = .errState := by
  obtain ⟨s, reached⟩ : ∃ s, run (poolStep wordMemory)
      (idlePool (freshContract tallyDesc [] 0) 5) countRun = some s := ⟨_, rfl⟩
  obtain ⟨t, broke⟩ : ∃ t, poolStep wordMemory s .brk = some t := by
    cases reached
    exact ⟨_, rfl⟩
  obtain ⟨u, waited⟩ : ∃ u, run (poolStep wordMemory) t [.wait 0, .wait 0] = some u := by
    cases reached
    cases broke
    exact ⟨_, rfl⟩
  obtain ⟨promised, -, -, reclaims⟩ := future_protocol reached
  have signed : s.c.state ≠ .unsigned := by
    cases reached
    decide
  obtain ⟨reclaimed, states⟩ := reclaims t signed broke _ u waited
  obtain ⟨e, present, unwaited⟩ : ∃ e, s.futures 0 = some e ∧ e.f.waited = false := by
    cases reached
    exact ⟨_, rfl, rfl⟩
  obtain ⟨e', present', twice⟩ : ∃ e', u.futures 0 = some e' ∧ e'.returns.length = 2 := by
    cases reached
    cases broke
    cases waited
    exact ⟨_, rfl, rfl⟩
  exact ⟨s, t, u, e, e', reached, broke, waited, present, present', promised 0 e present,
    reclaimed, twice, states 0 e e' present unwaited present'⟩

end Geas.Runtime.Pool
