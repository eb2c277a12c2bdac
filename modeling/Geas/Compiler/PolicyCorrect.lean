import Geas.Compiler.Emit

/-!
# A written policy means at run time what it says

The program serialized from a requirements line, read back by the runtime's
evaluator over the emitted atom table, computes the value of the source
expression under the assignment that makes a name true when its item is
fulfilled, as long as the evaluator's stack can hold the expression.  With the
satisfiability pass this rules out that a fulfill line and a break line hold at
once.
-/

namespace Geas.Compiler

open Geas.Lib
open Geas.Runtime

/-! ## The evaluator is the bounded machine -/

section Evaluator

variable (d : GeasContractDesc) (latches : Latches d)

/-- The truth of the atom an op refers to, read through the byte it is stored
in. -/
def atomValue (index : Nat) : Bool :=
  match d.atoms[index % 256]? with
  | some atom => atomTrue d latches atom
  | none => false

/-- Every push of the program refers to an atom of the table. -/
def AtomsInTable (ops : List (Formula.Op Nat)) : Prop :=
  ∀ index, .push index ∈ ops → index % 256 < d.natoms

theorem evalOps_emitOps (ops : List (Formula.Op Nat)) (inTable : AtomsInTable d ops)
    (stack : List Bool) :
    evalOps d latches (emitOps ops) stack =
      Formula.exec reqStackMax (atomValue d latches) ops stack := by
  induction ops generalizing stack with
  | nil => rfl
  | cons op rest ih =>
      have later : AtomsInTable d rest := fun index membership =>
        inTable index (List.mem_cons_of_mem _ membership)
      cases op with
      | push index =>
          have inside : index % 256 < d.atoms.length := inTable index List.mem_cons_self
          simp only [emitOps, List.map_cons, emitOp, evalOps, if_true, Formula.exec, atomValue,
            UInt8.toNat_ofNat', List.getElem?_eq_getElem inside]
          split
          · rfl
          · exact ih later _
      | not =>
          cases stack with
          | nil => rfl
          | cons top below => exact ih later _
      | and | or =>
          rcases stack with _ | ⟨right, _ | ⟨left, below⟩⟩
          · rfl
          · rfl
          · exact ih later _

/-- A line serialized from a formula is the value of the formula, false when the
stack cannot hold it. -/
theorem evalLine_program (e : Formula Nat) (inTable : ∀ index ∈ e.atoms, index % 256 < d.natoms) :
    evalLine d latches (emitOps e.program) =
      (decide (e.room ≤ reqStackMax) && e.eval (atomValue d latches)) := by
  have pushes : AtomsInTable d e.program := by
    intro index membership
    apply inTable
    clear inTable
    induction e with
    | atom a => simpa [Formula.program, Formula.atoms] using membership
    | not e ih =>
        simp only [Formula.program, List.mem_append, List.mem_singleton, reduceCtorEq,
          or_false] at membership
        exact ih membership
    | and left right ihl ihr | or left right ihl ihr =>
        simp only [Formula.program, List.mem_append, List.mem_singleton, reduceCtorEq,
          or_false] at membership
        exact List.mem_append.mpr (membership.imp ihl ihr)
  have nonempty : (emitOps e.program).isEmpty = false := by
    rw [List.isEmpty_eq_false_iff, emitOps, ne_eq, List.map_eq_nil_iff]
    exact e.program_ne_nil
  rw [evalLine, nonempty, evalOps_emitOps d latches _ pushes, Formula.exec_program_nil]
  by_cases fits : e.room ≤ reqStackMax <;> simp [fits]

end Evaluator

/-! ## Collected atoms -/

theorem mem_reqCollectAtoms (e : ReqExpr) (names : List String) (name : String) :
    name ∈ reqCollectAtoms e names ↔ name ∈ names ∨ name ∈ e.atoms := by
  induction e generalizing names with
  | atom a =>
      simp only [reqCollectAtoms, Formula.atoms, List.mem_singleton]
      split
      · next present =>
        exact ⟨Or.inl, fun either => either.elim id fun equal => equal ▸ present⟩
      · simp
  | not e ih => exact ih names
  | and left right ihl ihr | or left right ihl ihr =>
      simp only [reqCollectAtoms, Formula.atoms, ihl, ihr, List.mem_append, or_assoc]

/-- The atoms of a written line are in the block's table. -/
theorem mem_blockAtoms {rb : ReqBlock} {e : ReqExpr} (written : e ∈ rb.lines) {name : String}
    (membership : name ∈ e.atoms) : name ∈ blockAtoms rb := by
  have collects : ∀ (lines : List ReqExpr) (names : List String), (name ∈ names ∨ e ∈ lines) →
      name ∈ lines.foldl (fun names e => reqCollectAtoms e names) names := by
    intro lines
    induction lines with
    | nil => exact fun names found => found.resolve_right (List.not_mem_nil)
    | cons line rest ih =>
        intro names found
        apply ih
        rw [mem_reqCollectAtoms]
        rcases found with present | here
        · exact Or.inl (Or.inl present)
        · rcases List.mem_cons.mp here with rfl | later
          · exact Or.inl (Or.inr membership)
          · exact Or.inr later
  exact collects rb.lines [] (Or.inr written)

theorem atomIndex_lt {names : List String} {name : String} (membership : name ∈ names) :
    atomIndex names name < names.length := by
  rw [atomIndex, if_pos membership]
  exact List.idxOf_lt_length_of_mem membership

theorem buildPostfix_eq (names : List String) (e : ReqExpr) :
    buildPostfix names e = (e.map (atomIndex names)).program := by
  induction e with
  | atom a => rfl
  | not e ih => simp only [buildPostfix, Formula.map, Formula.program, ih]
  | and left right ihl ihr | or left right ihl ihr =>
      simp only [buildPostfix, Formula.map, Formula.program, ihl, ihr]

/-! ## Assignments -/

/-- The assignment of a mask over the collected atoms. -/
def maskOf (names : List String) (value : String → Bool) : Nat :=
  Nat.ofBits fun i : Fin names.length => value names[i]

theorem maskOf_lt (names : List String) (value : String → Bool) :
    maskOf names value < 2 ^ names.length :=
  Nat.ofBits_lt_two_pow _

/-- Bit `i` of the mask is the value of atom `i`. -/
theorem maskOf_bit {names : List String} (value : String → Bool) {name : String}
    (membership : name ∈ names) :
    (maskOf names value / 2 ^ atomIndex names name % 2 == 1) = value name := by
  have inside := atomIndex_lt membership
  have bit : (maskOf names value).testBit (atomIndex names name) =
      value names[atomIndex names name] := Nat.testBit_ofBits_lt _ _ inside
  have here : names[atomIndex names name] = name := by
    simp only [atomIndex, if_pos membership]
    exact List.getElem_idxOf _
  rw [here, Nat.testBit_eq_decide_div_mod_eq] at bit
  rw [← bit]
  rfl

/-- A line under a mask is the line under the assignment the mask spells. -/
theorem evalReq_maskOf {names : List String} (value : String → Bool) (e : ReqExpr)
    (collected : ∀ name ∈ e.atoms, name ∈ names) :
    evalReq names (maskOf names value) e = e.eval value :=
  e.eval_congr fun name membership => maskOf_bit value (collected name membership)

/-- The item a name stands for is fulfilled: every pledge of the subcontract, or
the loose pledge itself, has latched `FULFILLED`. -/
def nameFulfilled (members : List Member) (d : GeasContractDesc) (latches : Latches d)
    (name : String) : Bool :=
  match rsMember members name with
  | some ⟨.sub, id, _⟩ => subAll d latches id .fulfilled
  | some ⟨.pledge, id, none⟩ =>
      if inside : id < d.npledges then latches ⟨id, inside⟩ == .fulfilled else false
  | _ => false

theorem atomTrue_atomIndices (members : List Member) (d : GeasContractDesc) (latches : Latches d)
    (name : String) :
    atomTrue d latches ⟨atomFulfilled, (atomIndices members name).1, (atomIndices members name).2⟩ =
      nameFulfilled members d latches name := by
  unfold atomTrue atomIndices nameFulfilled
  rcases rsMember members name with _ | ⟨kind, id, sub⟩
  · simp
  · cases kind with
    | vow | clause => simp
    | sub => simp [atomFulfilled, atomBroken]
    | pledge =>
        cases sub with
        | some owner => simp
        | none => by_cases inside : id < d.npledges <;> simp [inside, atomFulfilled, atomBroken]

section SourceBlock

variable (base : GeasContractDesc) {c : ContractNode} {rb : ReqBlock}

theorem emitContract_atoms (block : c.reqs = some rb) :
    (emitContract base c).atoms = (blockAtoms rb).map fun name =>
      ⟨atomFulfilled, (atomIndices c.members name).1, (atomIndices c.members name).2⟩ := by
  simp only [emitContract, emitReqs, block, emitSourceBlock]

/-- An atom of the table reads as its name. -/
theorem atomValue_atomIndex (block : c.reqs = some rb)
    (few : (blockAtoms rb).length ≤ atomLimit) (latches : Latches (emitContract base c))
    {name : String} (membership : name ∈ blockAtoms rb) :
    atomValue (emitContract base c) latches (atomIndex (blockAtoms rb) name) =
      nameFulfilled c.members (emitContract base c) latches name := by
  have inside := atomIndex_lt membership
  have small : atomIndex (blockAtoms rb) name % 256 = atomIndex (blockAtoms rb) name :=
    Nat.mod_eq_of_lt (by unfold atomLimit at few; omega)
  have here : (blockAtoms rb)[atomIndex (blockAtoms rb) name]? = some name := by
    rw [List.getElem?_eq_getElem inside]
    simp only [atomIndex, if_pos membership, List.getElem_idxOf]
  unfold atomValue
  rw [small, emitContract_atoms base block, List.getElem?_map, here]
  exact atomTrue_atomIndices c.members _ latches name

/-- The serialized line is the source value, false where the evaluator's stack
cannot hold the expression. -/
theorem evalLine_buildPostfix (block : c.reqs = some rb)
    (few : (blockAtoms rb).length ≤ atomLimit) {e : ReqExpr} (written : e ∈ rb.lines)
    (latches : Latches (emitContract base c)) :
    evalLine (emitContract base c) latches (emitOps (buildPostfix (blockAtoms rb) e)) =
      (decide (e.room ≤ reqStackMax) &&
        e.eval (nameFulfilled c.members (emitContract base c) latches)) := by
  rw [buildPostfix_eq, evalLine_program, Formula.room_map, Formula.eval_map]
  · congr 1
    exact e.eval_congr fun name membership =>
      atomValue_atomIndex base block few latches (mem_blockAtoms written membership)
  · intro index membership
    rw [Formula.atoms_map] at membership
    obtain ⟨name, inLine, rfl⟩ := List.mem_map.mp membership
    have inside := atomIndex_lt (mem_blockAtoms written inLine)
    have tableLength : (emitContract base c).natoms = (blockAtoms rb).length := by
      simp [GeasContractDesc.natoms, emitContract_atoms base block]
    rw [tableLength]
    exact Nat.lt_of_le_of_lt (Nat.mod_le _ _) inside

end SourceBlock

/-- The serialized line agrees with the source line exactly where the evaluator
has stack for the expression or the source value is false anyway. -/
theorem evalLine_eq_evalReq_iff (base : GeasContractDesc) {c : ContractNode} {rb : ReqBlock}
    (block : c.reqs = some rb) (few : (blockAtoms rb).length ≤ atomLimit) {e : ReqExpr}
    (written : e ∈ rb.lines) (latches : Latches (emitContract base c)) :
    evalLine (emitContract base c) latches (emitOps (buildPostfix (blockAtoms rb) e)) =
        evalReq (blockAtoms rb)
          (maskOf (blockAtoms rb) (nameFulfilled c.members (emitContract base c) latches)) e ↔
      e.room ≤ reqStackMax ∨
        evalReq (blockAtoms rb)
          (maskOf (blockAtoms rb) (nameFulfilled c.members (emitContract base c) latches)) e =
          false := by
  rw [evalLine_buildPostfix base block few written,
    evalReq_maskOf _ e fun name membership => mem_blockAtoms written membership]
  by_cases fits : e.room ≤ reqStackMax
  · simp [fits]
  · cases e.eval (nameFulfilled c.members (emitContract base c) latches) <;> simp [fits]

/-- The chain `a && (a && (... && a))` with `n` operators. -/
def rightNested : Nat → ReqExpr
  | 0 => .atom "a"
  | n + 1 => .and (.atom "a") (rightNested n)

/-- How the chain is written. -/
def rightTokens : Nat → List ReqToken
  | 0 => [.ident "a"]
  | n + 1 => [.ident "a", .andAnd, .lparen] ++ rightTokens n ++ [.rparen]

/-- A contract with one loose pledge and the chain as its fulfill line. -/
def chainContract (n : Nat) : ContractNode where
  name := "Chain"
  members := [.pledge ⟨"a", 0⟩]
  reqs := some ⟨some (rightNested n), none, none⟩

/-- A descriptor without policy, for the fields outside it. -/
def plainDesc : GeasContractDesc where
  name := ""
  shapeHash := 1
  version := 1
  pledges := []
  vows := []
  subs := []
  atoms := []
  hasReqs := false
  reqFulfill := []
  reqPartial := []
  reqBreak := []
  nschemas := 0
  subFlags := none

theorem rightNested_room (n : Nat) : (rightNested n).room = n + 1 := by
  induction n with
  | zero => rfl
  | succ n ih =>
      simp only [rightNested, Formula.room, ih]
      omega

theorem rightNested_collect (n : Nat) : reqCollectAtoms (rightNested n) ["a"] = ["a"] := by
  induction n with
  | zero => rfl
  | succ n ih => simpa [rightNested, reqCollectAtoms] using ih

theorem rightNested_eval (n : Nat) (value : String → Bool) :
    (rightNested n).eval value = value "a" := by
  induction n with
  | zero => rfl
  | succ n ih => simp [rightNested, Formula.eval, ih]

theorem chainContract_atoms (n : Nat) :
    blockAtoms ⟨some (rightNested n), none, none⟩ = ["a"] := by
  cases n with
  | zero => rfl
  | succ n =>
      change reqCollectAtoms (rightNested n) (reqCollectAtoms (.atom "a") []) = ["a"]
      exact rightNested_collect n

theorem rightNested_written (n : Nat) :
    rightNested n ∈ (⟨some (rightNested n), none, none⟩ : ReqBlock).lines :=
  List.mem_singleton.mpr rfl

theorem chainContract_few (n : Nat) :
    (blockAtoms ⟨some (rightNested n), none, none⟩).length ≤ atomLimit := by
  rw [chainContract_atoms]
  decide

/-- A chain of two atoms reads at run time as it is written. -/
theorem evalLine_eq_evalReq_pair :
    evalLine (emitContract plainDesc (chainContract 1)) (fun _ => .fulfilled)
        (emitOps (buildPostfix (blockAtoms ⟨some (rightNested 1), none, none⟩) (rightNested 1))) =
      evalReq (blockAtoms ⟨some (rightNested 1), none, none⟩)
        (maskOf (blockAtoms ⟨some (rightNested 1), none, none⟩)
          (nameFulfilled (chainContract 1).members (emitContract plainDesc (chainContract 1))
            fun _ => .fulfilled)) (rightNested 1) :=
  (evalLine_eq_evalReq_iff plainDesc rfl (chainContract_few 1) (rightNested_written 1) _).mpr
    (Or.inl (by decide))

/-- A chain of 129 atoms is parsed and resolved without a fault, is true when its
one atom is fulfilled, and evaluates false. -/
theorem deep_line_misread :
    parseReqLine (rightTokens 128) = some (rightNested 128) ∧
    resolveRequirements (chainContract 128) = [] ∧
    evalLine (emitContract plainDesc (chainContract 128)) (fun _ => .fulfilled)
        (emitOps (buildPostfix (blockAtoms ⟨some (rightNested 128), none, none⟩)
          (rightNested 128))) = false ∧
    evalReq (blockAtoms ⟨some (rightNested 128), none, none⟩)
        (maskOf (blockAtoms ⟨some (rightNested 128), none, none⟩)
          (nameFulfilled (chainContract 128).members (emitContract plainDesc (chainContract 128))
            fun _ => .fulfilled)) (rightNested 128) = true := by
  refine ⟨by decide +kernel, by decide +kernel, ?_, ?_⟩
  · rw [evalLine_buildPostfix plainDesc rfl (chainContract_few 128) (rightNested_written 128),
      rightNested_room]
    rfl
  · rw [evalReq_maskOf _ _ fun name membership => mem_blockAtoms (rightNested_written 128) membership,
      rightNested_eval]
    rfl

/-! ## The satisfiability pass -/

/-- The pass reports the contradiction exactly when some mask satisfies both
lines. -/
theorem bothHold_mem_iff_mask {rb : ReqBlock} (few : (blockAtoms rb).length ≤ atomLimit) :
    (∃ mask, .bothHold mask ∈ solveBlock rb) ↔
      ∃ f b, rb.fulfill = some f ∧ rb.brk = some b ∧ ∃ mask < 2 ^ (blockAtoms rb).length,
        evalReq (blockAtoms rb) mask f = true ∧ evalReq (blockAtoms rb) mask b = true := by
  simp only [solveBlock, if_neg (Nat.not_lt.mpr few), List.mem_append, List.mem_ite_nil_right,
    List.mem_singleton, reduceCtorEq, and_false, or_false]
  cases fulfill : rb.fulfill with
  | none => simp
  | some f =>
      cases brk : rb.brk with
      | none => simp
      | some b =>
          simp only [evalOptional, Option.some.injEq, ← Bool.and_eq_true]
          cases first : (List.range (2 ^ (blockAtoms rb).length)).find? fun mask =>
              evalReq (blockAtoms rb) mask f && evalReq (blockAtoms rb) mask b with
          | none =>
              rw [List.find?_eq_none] at first
              simp only [List.mem_range] at first
              simpa using first
          | some both =>
              have holds := List.find?_some first
              have inside := List.mem_range.mp (List.mem_of_find?_eq_some first)
              simp only [List.mem_singleton, SolveFault.bothHold.injEq, exists_eq, true_iff]
              exact ⟨f, b, rfl, rfl, both, inside, holds⟩

/-- The pass reports the contradiction exactly when some assignment satisfies
both lines. -/
theorem bothHold_mem_solveBlock {rb : ReqBlock} (few : (blockAtoms rb).length ≤ atomLimit) :
    (∃ mask, .bothHold mask ∈ solveBlock rb) ↔
      ∃ f b, rb.fulfill = some f ∧ rb.brk = some b ∧
        ∃ value, f.eval value = true ∧ b.eval value = true := by
  rw [bothHold_mem_iff_mask few]
  constructor
  · rintro ⟨f, b, fulfill, brk, mask, -, holds⟩
    exact ⟨f, b, fulfill, brk, _, holds⟩
  · rintro ⟨f, b, fulfill, brk, value, fulfills, breaks⟩
    have written : f ∈ rb.lines ∧ b ∈ rb.lines := by simp [ReqBlock.lines, fulfill, brk]
    refine ⟨f, b, fulfill, brk, maskOf _ value, maskOf_lt _ value, ?_, ?_⟩
    · rw [evalReq_maskOf value f fun name membership => mem_blockAtoms written.1 membership]
      exact fulfills
    · rw [evalReq_maskOf value b fun name membership => mem_blockAtoms written.2 membership]
      exact breaks

theorem emitContract_lines (base : GeasContractDesc) {c : ContractNode} {rb : ReqBlock}
    (block : c.reqs = some rb) :
    (emitContract base c).reqFulfill = emitLine (blockAtoms rb) rb.fulfill ∧
    (emitContract base c).reqPartial = emitLine (blockAtoms rb) rb.partly ∧
    (emitContract base c).reqBreak = emitLine (blockAtoms rb) rb.brk := by
  simp only [emitContract, emitReqs, block, emitSourceBlock, and_self]

/-- A serialized line that evaluates true was written and holds of the fulfilled
names. -/
theorem eval_of_emitLine (base : GeasContractDesc) {c : ContractNode} {rb : ReqBlock}
    (block : c.reqs = some rb) (few : (blockAtoms rb).length ≤ atomLimit)
    {line : Option ReqExpr} (written : ∀ e, line = some e → e ∈ rb.lines)
    {latches : Latches (emitContract base c)}
    (holds : evalLine (emitContract base c) latches (emitLine (blockAtoms rb) line) = true) :
    ∃ e, line = some e ∧
      e.eval (nameFulfilled c.members (emitContract base c) latches) = true := by
  cases line with
  | none => cases holds
  | some e =>
      rw [emitLine, evalLine_buildPostfix base block few (written e rfl), Bool.and_eq_true] at holds
      exact ⟨e, rfl, holds.2⟩

/-- The lines of an accepted block never hold at once at run time. -/
theorem lines_exclusive (base : GeasContractDesc) {c : ContractNode} {rb : ReqBlock}
    (block : c.reqs = some rb) (few : (blockAtoms rb).length ≤ atomLimit)
    (accepted : solveBlock rb = []) (latches : Latches (emitContract base c)) :
    ¬(evalLine (emitContract base c) latches (emitContract base c).reqFulfill = true ∧
      evalLine (emitContract base c) latches (emitContract base c).reqBreak = true) := by
  rintro ⟨fulfills, breaks⟩
  rw [(emitContract_lines base block).1] at fulfills
  rw [(emitContract_lines base block).2.2] at breaks
  obtain ⟨f, fulfill, fHolds⟩ := eval_of_emitLine base block few
    (fun e line => by simp [ReqBlock.lines, line]) fulfills
  obtain ⟨b, brk, bHolds⟩ := eval_of_emitLine base block few
    (fun e line => by simp [ReqBlock.lines, line]) breaks
  obtain ⟨mask, reported⟩ := (bothHold_mem_solveBlock few).mpr
    ⟨f, b, fulfill, brk, _, fHolds, bHolds⟩
  rw [accepted] at reported
  cases reported

/-- The pass reports a contradiction exactly when some assignment satisfies both
lines, and what it accepts never has both serialized lines true at run time. -/
theorem solveBlock_sound_and_complete (base : GeasContractDesc) {c : ContractNode}
    {rb : ReqBlock} (block : c.reqs = some rb) (few : (blockAtoms rb).length ≤ atomLimit) :
    ((∃ mask, .bothHold mask ∈ solveBlock rb) ↔
      ∃ f b, rb.fulfill = some f ∧ rb.brk = some b ∧
        ∃ value, f.eval value = true ∧ b.eval value = true) ∧
    (solveBlock rb = [] → ∀ latches : Latches (emitContract base c),
      ¬(evalLine (emitContract base c) latches (emitContract base c).reqFulfill = true ∧
        evalLine (emitContract base c) latches (emitContract base c).reqBreak = true)) :=
  ⟨bothHold_mem_solveBlock few, fun accepted latches =>
    lines_exclusive base block few accepted latches⟩

/-- Two loose pledges; the contract is fulfilled by both and broken by one
without the other. -/
def pairContract : ContractNode where
  name := "Pair"
  members := [.pledge ⟨"a", 0⟩, .pledge ⟨"b", 0⟩]
  reqs := some ⟨some (.and (.atom "a") (.atom "b")), none,
    some (.and (.atom "a") (.not (.atom "b")))⟩

theorem solveBlock_sound_and_complete_pair :
    ¬(evalLine (emitContract plainDesc pairContract) (fun _ => .fulfilled)
        (emitContract plainDesc pairContract).reqFulfill = true ∧
      evalLine (emitContract plainDesc pairContract) (fun _ => .fulfilled)
        (emitContract plainDesc pairContract).reqBreak = true) :=
  (solveBlock_sound_and_complete plainDesc (c := pairContract) rfl (by decide)).2 (by decide) _

end Geas.Compiler
