import Geas.Compiler.DefaultPolicy
import Geas.Runtime.Steady

/-!
# Which accepted policies never take a state back

The checker rejects lines that contradict each other, not lines that turn false
as more is fulfilled, and `!` makes such lines easy to write.  This module finds
the accepted contracts whose emitted descriptors are steady: written blocks
whose lines survive one more fulfilled pledge, and defaults whose fulfill line
covers every pledge.
-/

namespace Geas.Compiler

open Geas.Lib
open Geas.Runtime
open Geas.Lib.Transition

/-- What the checker accepts: the names resolve, the satisfiability pass is
silent.  A name is an identifier token and never empty. -/
structure Accepted (c : ContractNode) : Prop where
  resolved : resolveRequirements c = []
  named : ∀ rb, c.reqs = some rb → "" ∉ blockAtoms rb
  solved : ∀ rb, c.reqs = some rb → solveBlock rb = []

theorem Accepted.few {c : ContractNode} (accepted : Accepted c) {rb : ReqBlock}
    (block : c.reqs = some rb) : (blockAtoms rb).length ≤ atomLimit := by
  have resolved := accepted.resolved
  rw [resolveRequirements, block] at resolved
  obtain ⟨-, counted⟩ := List.append_eq_nil_iff.mp resolved
  have every : (blockAtoms rb).filter (fun name => !name.isEmpty) = blockAtoms rb := by
    rw [List.filter_eq_self]
    intro name membership
    rw [Bool.not_eq_true', ← Bool.not_eq_true, String.isEmpty_iff]
    rintro rfl
    exact accepted.named rb block membership
  rw [every] at counted
  split at counted
  · cases counted
  · next small => exact Nat.le_of_not_lt small

/-! ## Written blocks -/

/-- A line under an assignment as the emitted policy reads it: an unwritten line
and one too deep for the evaluator's stack are false. -/
def lineHolds (line : Option ReqExpr) (value : String → Bool) : Bool :=
  match line with
  | none => false
  | some e => decide (e.room ≤ reqStackMax) && e.eval value

/-- Fulfilling one more pledge keeps a fulfill line true, and keeps a deciding
partial line true unless a stronger line takes over. -/
def BlockKeeps (base : GeasContractDesc) (c : ContractNode) (rb : ReqBlock) : Prop :=
  ∀ (latches : Latches (emitContract base c)) (p : Fin (emitContract base c).npledges),
    Attained latches → Callable (emitContract base c) p → latches p = .pending →
    let before := nameFulfilled c.members (emitContract base c) latches
    let after := nameFulfilled c.members (emitContract base c)
      (Function.update latches p .fulfilled)
    let isArmed := armed (emitContract base c) latches
    (lineHolds rb.fulfill before = true → lineHolds rb.fulfill after = true) ∧
    (lineHolds rb.partly before = true → lineHolds rb.fulfill before = false →
      (isArmed && lineHolds rb.brk before) = false →
      lineHolds rb.fulfill after = true ∨ lineHolds rb.partly after = true ∨
        (isArmed && lineHolds rb.brk after) = true)

section Block

variable (base : GeasContractDesc) {c : ContractNode} {rb : ReqBlock}

theorem evalLine_emitLine (block : c.reqs = some rb) (few : (blockAtoms rb).length ≤ atomLimit)
    {line : Option ReqExpr} (written : ∀ e, line = some e → e ∈ rb.lines)
    (latches : Latches (emitContract base c)) :
    evalLine (emitContract base c) latches (emitLine (blockAtoms rb) line) =
      lineHolds line (nameFulfilled c.members (emitContract base c) latches) := by
  cases line with
  | none => rfl
  | some e => exact evalLine_buildPostfix base block few (written e rfl) latches

/-- The lines of a written block at run time. -/
theorem block_lines (block : c.reqs = some rb) (few : (blockAtoms rb).length ≤ atomLimit)
    (latches : Latches (emitContract base c)) :
    let value := nameFulfilled c.members (emitContract base c) latches
    fulfillLine (emitContract base c) latches = lineHolds rb.fulfill value ∧
    partialLine (emitContract base c) latches = lineHolds rb.partly value ∧
    breakLine (emitContract base c) latches = lineHolds rb.brk value := by
  have trees : hasTrees (emitContract base c) = true := by
    simp [hasTrees, emitContract, emitReqs, block, emitSourceBlock]
  obtain ⟨fulfill, partly, brk⟩ := emitContract_lines base block
  simp only [breakLine, fulfillLine, partialLine, trees, if_true, fulfill, partly, brk]
  refine ⟨?_, ?_, ?_⟩ <;>
    exact evalLine_emitLine base block few (fun e line => by simp [ReqBlock.lines, line]) latches

/-- What an assignment reads of the latches is which pledges are fulfilled. -/
theorem nameFulfilled_congr (members : List Member) {d : GeasContractDesc}
    {latches other : Latches d}
    (same : ∀ i, (latches i == .fulfilled) = (other i == .fulfilled)) :
    nameFulfilled members d latches = nameFulfilled members d other := by
  funext name
  simp only [nameFulfilled, subAll, same]

theorem armed_update_fulfilled {d : GeasContractDesc} {latches : Latches d} {p : Fin d.npledges}
    (pending : latches p = .pending) :
    armed d (Function.update latches p .fulfilled) = armed d latches := by
  unfold armed
  congr 1
  funext i
  by_cases same : i = p
  · subst same
    rw [Function.update_self, pending]
    rfl
  · rw [Function.update_of_ne same]

/-- An accepted fulfill line that holds keeps the break line from holding. -/
theorem breakLine_of_fulfillLine (accepted : Accepted c) (block : c.reqs = some rb)
    {latches : Latches (emitContract base c)}
    (fulfills : fulfillLine (emitContract base c) latches = true) :
    breakLine (emitContract base c) latches = false := by
  have trees : hasTrees (emitContract base c) = true := by
    simp [hasTrees, emitContract, emitReqs, block, emitSourceBlock]
  rw [← Bool.not_eq_true]
  intro breaks
  simp only [fulfillLine, breakLine, trees, if_true] at fulfills breaks
  exact lines_exclusive base block (accepted.few block) (accepted.solved rb block) latches
    ⟨fulfills, breaks⟩

/-- A block whose lines survive fulfillments is steady. -/
theorem steady_of_block (accepted : Accepted c) (block : c.reqs = some rb)
    (keeps : BlockKeeps base c rb) : Steady (emitContract base c) := by
  intro latches p latch attained callable pending latched
  have lines := block_lines base block (accepted.few block)
  have fulfilled_of : ∀ {other : Latches (emitContract base c)},
      fulfillLine (emitContract base c) other = true →
        policyState (emitContract base c) other = .fulfilled := fun fulfills =>
    policyState_eq_fulfilled.mpr
      ⟨by rw [breakLine_of_fulfillLine base accepted block fulfills, Bool.and_false], fulfills⟩
  cases latch with
  | pending => exact absurd rfl latched
  | fulfilled =>
      obtain ⟨fulfill, partly⟩ := keeps latches p attained callable pending
      rw [← (lines latches).1, ← (lines _).1] at fulfill
      rw [← (lines latches).1, ← (lines latches).2.1, ← (lines latches).2.2, ← (lines _).1,
        ← (lines _).2.1, ← (lines _).2.2] at partly
      refine ⟨fun before => fulfilled_of (fulfill (policyState_eq_fulfilled.mp before).2), ?_⟩
      intro before after
      obtain ⟨unbroken, unfulfilled, holds⟩ := policyState_eq_partly.mp before
      obtain ⟨unbroken', unfulfilled', unheld⟩ := policyState_eq_signed.mp after
      rw [armed_update_fulfilled pending] at unbroken'
      rcases partly holds unfulfilled unbroken with still | still | still
      · exact absurd (unfulfilled'.symm.trans still) Bool.false_ne_true
      · exact absurd (unheld.symm.trans still) Bool.false_ne_true
      · exact absurd (unbroken'.symm.trans still) Bool.false_ne_true
  | broken =>
      have unread : nameFulfilled c.members (emitContract base c)
          (Function.update latches p .broken) =
            nameFulfilled c.members (emitContract base c) latches := by
        apply nameFulfilled_congr
        intro i
        by_cases same : i = p
        · subst same
          rw [Function.update_self, pending]
          rfl
        · rw [Function.update_of_ne same]
      have fulfill : fulfillLine (emitContract base c) (Function.update latches p .broken) =
          fulfillLine (emitContract base c) latches := by
        rw [(lines _).1, (lines latches).1, unread]
      have partly : partialLine (emitContract base c) (Function.update latches p .broken) =
          partialLine (emitContract base c) latches := by
        rw [(lines _).2.1, (lines latches).2.1, unread]
      refine ⟨fun before => fulfilled_of (fulfill ▸ (policyState_eq_fulfilled.mp before).2), ?_⟩
      intro before after
      have holds := (policyState_eq_partly.mp before).2.2
      have unheld := (policyState_eq_signed.mp after).2.2
      rw [partly] at unheld
      exact absurd (unheld.symm.trans holds) Bool.false_ne_true

end Block

/-! ## Synthesized defaults -/

/-- No callable pledge is left out of the first 256 items, which are what the
fulfill line can test, or one of those items can never be fulfilled. -/
def DefaultsKeep (d : GeasContractDesc) : Prop :=
  (∀ k, 256 ≤ k → ∀ p ∈ itemPledges d k, ¬Callable d p) ∨
    ∃ k < 256, k < itemCount d ∧
      (itemPledges d k = [] ∨ ∃ p ∈ itemPledges d k, ¬Callable d p)

section Defaults

variable (base : GeasContractDesc) {c : ContractNode} (noBlock : c.reqs = none)
include noBlock

theorem default_lines (p : Fin (emitContract base c).npledges)
    (latches : Latches (emitContract base c)) :
    (fulfillLine (emitContract base c) latches = true ↔
      itemCount (emitContract base c) ≠ 0 ∧ ∀ i < itemCount (emitContract base c),
        itemHolds (emitContract base c) latches .fulfilled (i % 256) = true) ∧
    (partialLine (emitContract base c) latches = true ↔
      ∃ i < (emitContract base c).nsubs,
        itemHolds (emitContract base c) latches .fulfilled (i % 256) = true) := by
  have trees : hasTrees (emitContract base c) = true := by
    obtain ⟨k, inside, -⟩ := exists_mem_itemPledges p
    have atoms : 0 < (emitContract base c).natoms := by
      rw [emitContract_natoms base noBlock]
      omega
    simp [hasTrees, atoms]
  simp only [fulfillLine, partialLine, trees, if_true]
  exact ⟨evalLine_reqFulfill base noBlock latches, evalLine_reqPartial base noBlock latches⟩

/-- Defaults that cover every pledge are steady: they are fulfilled only once
nothing is left to latch. -/
theorem steady_of_defaults (keeps : DefaultsKeep (emitContract base c)) :
    Steady (emitContract base c) := by
  intro latches p latch attained callable pending latched
  have lines := default_lines base noBlock p
  have unfulfilled : fulfillLine (emitContract base c) latches ≠ true := by
    rw [ne_eq, (lines latches).1]
    rintro ⟨-, all⟩
    have holds : ∀ k < 256, k < itemCount (emitContract base c) →
        itemHolds (emitContract base c) latches .fulfilled k = true := by
      intro k low inside
      have tested := all k inside
      rwa [Nat.mod_eq_of_lt low] at tested
    rcases keeps with covered | ⟨k, low, inside, stuck⟩
    · obtain ⟨k, inside, membership⟩ := exists_mem_itemPledges p
      have low : k < 256 := by
        by_contra high
        exact covered k (Nat.le_of_not_lt high) p membership callable
      have fulfilled := (itemHolds_iff.mp (holds k low inside)).2 p membership
      rw [pending] at fulfilled
      cases fulfilled
    · obtain ⟨nonempty, fulfilled⟩ := itemHolds_iff.mp (holds k low inside)
      rcases stuck with empty | ⟨q, membership, uncallable⟩
      · exact nonempty empty
      · refine uncallable (attained.callable q ?_)
        rw [fulfilled q membership]
        exact PledgeLatch.noConfusion
  refine ⟨fun before => absurd (policyState_eq_fulfilled.mp before).2 unfulfilled, ?_⟩
  intro before after
  obtain ⟨i, inside, holds⟩ := (lines latches).2.mp (policyState_eq_partly.mp before).2.2
  have still : partialLine (emitContract base c) (Function.update latches p latch) = true := by
    refine (lines _).2.mpr ⟨i, inside, ?_⟩
    obtain ⟨nonempty, fulfilled⟩ := itemHolds_iff.mp holds
    refine itemHolds_iff.mpr ⟨nonempty, fun q membership => ?_⟩
    have other : q ≠ p := by
      rintro rfl
      rw [fulfilled q membership] at pending
      cases pending
    rw [Function.update_of_ne other]
    exact fulfilled q membership
  have unheld := (policyState_eq_signed.mp after).2.2
  exact absurd (unheld.symm.trans still) Bool.false_ne_true

end Defaults

/-! ## Runs -/

/-- The accepted contracts whose state cannot move back. -/
def KeepsStates (base : GeasContractDesc) (c : ContractNode) : Prop :=
  match c.reqs with
  | some rb => BlockKeeps base c rb
  | none => DefaultsKeep (emitContract base c)

theorem steady_of_keepsStates (base : GeasContractDesc) {c : ContractNode}
    (accepted : Accepted c) (keeps : KeepsStates base c) : Steady (emitContract base c) := by
  cases block : c.reqs with
  | some rb =>
      rw [KeepsStates, block] at keeps
      exact steady_of_block base accepted block keeps
  | none =>
      rw [KeepsStates, block] at keeps
      exact steady_of_defaults base block keeps

/-- Along every run of fulfillments of an accepted contract whose lines survive
fulfillments, a fulfilled instance stays fulfilled and a partially fulfilled one
does not return to signed. -/
theorem state_never_regresses (base : GeasContractDesc) {c : ContractNode}
    (accepted : Accepted c) (keeps : KeepsStates base c) {vowVals : List Abi.GeasValue}
    {signedAt : Int64} {front back : List (Action (emitContract base c))}
    {s t : Sys (emitContract base c)}
    (reached : run step (signedSys (emitContract base c) vowVals signedAt) front = some s)
    (fulfills : .brk ∉ back) (later : run step s back = some t) :
    (s.c.state = .fulfilled → t.c.state = .fulfilled) ∧
      (s.c.state = .partly → t.c.state ≠ .signed) := by
  have forward := run_forward (steady_of_keepsStates base accepted keeps) reached fulfills later
  unfold Forward at forward
  refine ⟨?_, ?_⟩
  · intro before
    rw [before] at forward
    exact forward
  · intro before after
    rw [before, after] at forward
    rcases forward with same | same | same <;> cases same

theorem nameFulfilled_mono (members : List Member) {d : GeasContractDesc} (latches : Latches d)
    (p : Fin d.npledges) (name : String) (holds : nameFulfilled members d latches name = true) :
    nameFulfilled members d (Function.update latches p .fulfilled) name = true := by
  have grows : ∀ i, (latches i == .fulfilled) = true →
      (Function.update latches p .fulfilled i == .fulfilled) = true := by
    intro i fulfilled
    rw [beq_iff_eq] at fulfilled ⊢
    by_cases same : i = p
    · rw [same, Function.update_self]
    · rw [Function.update_of_ne same, fulfilled]
  unfold nameFulfilled at holds ⊢
  split at holds
  · rw [subAll, Bool.and_eq_true, List.all_eq_true] at holds ⊢
    exact ⟨holds.1, fun i membership => grows i (holds.2 i membership)⟩
  · split at holds
    · next inside =>
      rw [dif_pos inside]
      exact grows _ holds
    · cases holds
  · cases holds

/-- Lines written without `!` survive fulfillments. -/
theorem blockKeeps_of_positive (base : GeasContractDesc) (c : ContractNode) {rb : ReqBlock}
    (fulfill : ∀ e, rb.fulfill = some e → e.positive = true)
    (partly : ∀ e, rb.partly = some e → e.positive = true) : BlockKeeps base c rb := by
  have survives : ∀ {line : Option ReqExpr}, (∀ e, line = some e → e.positive = true) →
      ∀ {value more : String → Bool}, (∀ name, value name = true → more name = true) →
      lineHolds line value = true → lineHolds line more = true := by
    intro line positive value more grows holds
    cases line with
    | none => cases holds
    | some e =>
        rw [lineHolds, Bool.and_eq_true] at holds ⊢
        exact ⟨holds.1, Formula.eval_mono (positive e rfl) grows holds.2⟩
  intro latches p _ _ _
  have grows := nameFulfilled_mono c.members latches p
  exact ⟨survives fulfill grows, fun holds _ _ => Or.inr (Or.inl (survives partly grows holds))⟩

/-- Two loose pledges, either of which fulfills the contract in part. -/
def eitherContract : ContractNode where
  name := "Either"
  members := [.pledge ⟨"a", 0⟩, .pledge ⟨"b", 0⟩]
  reqs := some ⟨some (.and (.atom "a") (.atom "b")), some (.or (.atom "a") (.atom "b")),
    some (.and (.not (.atom "a")) (.not (.atom "b")))⟩

/-- A call without arguments whose body returns `Ok`. -/
def okRun (d : GeasContractDesc) (name : String) : List (Action d) :=
  [.inline ⟨name, 0, 0, false, false, .ok⟩ .ok, .finish .ok (.result 0 none) .ok .ok]

theorem eitherContract_accepted : Accepted eitherContract where
  resolved := by decide
  named rb block := by
    cases block
    decide
  solved rb block := by
    cases block
    decide

theorem state_never_regresses_either :
    ∃ s t, run step (signedSys (emitContract plainDesc eitherContract) [] 0) (okRun _ "a") =
        some s ∧
      run step s (okRun _ "b") = some t ∧ s.c.state = .partly ∧ t.c.state ≠ .signed := by
  obtain ⟨t, whole⟩ : ∃ t, run step (signedSys (emitContract plainDesc eitherContract) [] 0)
      (okRun _ "a" ++ okRun _ "b") = some t :=
    Option.isSome_iff_exists.mp (by decide)
  obtain ⟨s, reached, later⟩ := run_append.mp whole
  have partly : s.c.state = .partly := by
    have reads : (run step (signedSys (emitContract plainDesc eitherContract) [] 0)
        (okRun _ "a")).map (·.c.state) = some .partly := by decide
    rw [reached] at reads
    exact Option.some.inj reads
  have keeps : KeepsStates plainDesc eitherContract :=
    blockKeeps_of_positive plainDesc eitherContract (fun e line => by cases line; rfl)
      (fun e line => by cases line; rfl)
  have unregressed := state_never_regresses plainDesc eitherContract_accepted keeps reached
    (by simp [okRun]) later
  exact ⟨s, t, reached, later, partly, unregressed.2 partly⟩

/-- Three loose pledges with a partial line that the second one takes back. -/
def fickleContract : ContractNode where
  name := "Fickle"
  members := [.pledge ⟨"a", 0⟩, .pledge ⟨"b", 0⟩, .pledge ⟨"c", 0⟩]
  reqs := some ⟨some (.atom "c"), some (.and (.atom "a") (.not (.atom "b"))), none⟩

/-- The checker accepts `partial: a && !b`; fulfilling `a` and then `b` takes the
state from Partial back to Signed. -/
theorem partial_returns_to_signed :
    Accepted fickleContract ∧
    ∃ s t, run step (signedSys (emitContract plainDesc fickleContract) [] 0) (okRun _ "a") =
        some s ∧
      run step s (okRun _ "b") = some t ∧ s.c.state = .partly ∧ t.c.state = .signed := by
  refine ⟨⟨by decide, fun rb block => by cases block; decide,
    fun rb block => by cases block; decide⟩, ?_⟩
  have whole : (run step (signedSys (emitContract plainDesc fickleContract) [] 0)
      (okRun _ "a" ++ okRun _ "b")).map (·.c.state) = some .signed := by decide
  have first : (run step (signedSys (emitContract plainDesc fickleContract) [] 0)
      (okRun _ "a")).map (·.c.state) = some .partly := by decide
  obtain ⟨t, ran, signed⟩ := exists_run_of_map whole
  obtain ⟨s, reached, later⟩ := run_append.mp ran
  rw [reached] at first
  exact ⟨s, t, reached, later, Option.some.inj first, signed⟩

end Geas.Compiler
