import Geas.Compiler.PolicyCorrect
import Mathlib.Data.List.Range
import Mathlib.Data.List.FinRange

/-!
# The synthesized defaults

A contract without a requirements block gets the default policy as chains over
an atom table of `2n` rows for its `n` items, subcontracts first and loose
pledges after them.  An op stores its atom index in one byte.  This module
compares the chains with the structural default of the runtime over every latch
vector, and finds for which contracts they agree.
-/

namespace Geas.Compiler

open Geas.Lib
open Geas.Runtime

/-! ## Chains -/

/-- The left fold a chain spells. -/
def chainFormula (op : Formula Nat → Formula Nat → Formula Nat) (first : Nat)
    (rest : List Nat) : Formula Nat :=
  rest.foldl (fun e index => op e (.atom index)) (.atom first)

theorem foldl_program {op : Formula Nat → Formula Nat → Formula Nat} {code : Formula.Op Nat}
    (spells : ∀ left right, (op left right).program = left.program ++ right.program ++ [code])
    (e : Formula Nat) (rest : List Nat) :
    (rest.foldl (fun e index => op e (.atom index)) e).program =
      e.program ++ rest.flatMap fun index => [.push index, code] := by
  induction rest generalizing e with
  | nil => simp
  | cons index rest ih => simp [ih, spells, Formula.program]

theorem foldl_room {op : Formula Nat → Formula Nat → Formula Nat}
    (costs : ∀ left right, (op left right).room = max left.room (right.room + 1))
    {e : Formula Nat} (low : e.room ≤ 2) (rest : List Nat) :
    (rest.foldl (fun e index => op e (.atom index)) e).room ≤ 2 := by
  induction rest generalizing e with
  | nil => exact low
  | cons index rest ih =>
      refine ih ?_
      rw [costs, Formula.room]
      omega

theorem foldl_atoms {op : Formula Nat → Formula Nat → Formula Nat}
    (joins : ∀ left right, (op left right).atoms = left.atoms ++ right.atoms)
    (e : Formula Nat) (rest : List Nat) :
    (rest.foldl (fun e index => op e (.atom index)) e).atoms = e.atoms ++ rest := by
  induction rest generalizing e with
  | nil => simp
  | cons index rest ih => simp [ih, joins, Formula.atoms]

theorem foldl_and_eval (value : Nat → Bool) (e : Formula Nat) (rest : List Nat) :
    (rest.foldl (fun e index => Formula.and e (.atom index)) e).eval value =
      (e.eval value && rest.all value) := by
  induction rest generalizing e with
  | nil => simp
  | cons index rest ih => simp [ih, Formula.eval, Bool.and_assoc]

theorem foldl_or_eval (value : Nat → Bool) (e : Formula Nat) (rest : List Nat) :
    (rest.foldl (fun e index => Formula.or e (.atom index)) e).eval value =
      (e.eval value || rest.any value) := by
  induction rest generalizing e with
  | nil => simp
  | cons index rest ih => simp [ih, Formula.eval, Bool.or_assoc]

section Chain

variable {d : GeasContractDesc} (latches : Latches d)

/-- An `&&` chain is true when every atom is, and an empty one is not written. -/
theorem evalLine_andChain {indices : List Nat}
    (inTable : ∀ index ∈ indices, index % 256 < d.natoms) :
    evalLine d latches (emitOps (pushChain .and indices)) =
      (!indices.isEmpty && indices.all (atomValue d latches)) := by
  cases indices with
  | nil => rfl
  | cons first rest =>
      have spelled : pushChain .and (first :: rest) = (chainFormula .and first rest).program :=
        (foldl_program (fun _ _ => rfl) (.atom first) rest).symm
      have fits : (chainFormula .and first rest).room ≤ reqStackMax :=
        (foldl_room (fun _ _ => rfl) (by simp [Formula.room]) rest).trans (by decide)
      rw [spelled, evalLine_program d latches _ (by
        rw [chainFormula, foldl_atoms fun _ _ => rfl]
        exact inTable), decide_eq_true fits, chainFormula, foldl_and_eval]
      simp [Formula.eval]

/-- An `||` chain is true when some atom is. -/
theorem evalLine_orChain {indices : List Nat}
    (inTable : ∀ index ∈ indices, index % 256 < d.natoms) :
    evalLine d latches (emitOps (pushChain .or indices)) = indices.any (atomValue d latches) := by
  cases indices with
  | nil => rfl
  | cons first rest =>
      have spelled : pushChain .or (first :: rest) = (chainFormula .or first rest).program :=
        (foldl_program (fun _ _ => rfl) (.atom first) rest).symm
      have fits : (chainFormula .or first rest).room ≤ reqStackMax :=
        (foldl_room (fun _ _ => rfl) (by simp [Formula.room]) rest).trans (by decide)
      rw [spelled, evalLine_program d latches _ (by
        rw [chainFormula, foldl_atoms fun _ _ => rfl]
        exact inTable), decide_eq_true fits, chainFormula, foldl_or_eval]
      simp [Formula.eval]

end Chain

/-! ## Items -/

/-- The loose pledges in declaration order. -/
def looseList (d : GeasContractDesc) : List (Fin d.npledges) :=
  (List.finRange d.npledges).filter fun i => d.pledgeIsLoose i

/-- The number of items: subcontracts and loose pledges. -/
def itemCount (d : GeasContractDesc) : Nat := d.nsubs + (looseList d).length

/-- The pledges of item `k`, those of a subcontract or the one loose pledge. -/
def itemPledges (d : GeasContractDesc) (k : Nat) : List (Fin d.npledges) :=
  if k < d.nsubs then subMembers d k else ((looseList d)[k - d.nsubs]?).toList

/-- Item `k` has latched `want`. -/
def itemHolds (d : GeasContractDesc) (latches : Latches d) (want : PledgeLatch) (k : Nat) : Bool :=
  !(itemPledges d k).isEmpty && (itemPledges d k).all fun p => latches p == want

theorem itemHolds_iff {d : GeasContractDesc} {latches : Latches d} {want : PledgeLatch} {k : Nat} :
    itemHolds d latches want k = true ↔
      itemPledges d k ≠ [] ∧ ∀ p ∈ itemPledges d k, latches p = want := by
  simp [itemHolds]

section Items

variable {d : GeasContractDesc} (latches : Latches d) (want : PledgeLatch)

theorem itemHolds_sub {k : Nat} (isSub : k < d.nsubs) :
    itemHolds d latches want k = subAll d latches k want := by
  simp only [itemHolds, itemPledges, if_pos isSub, subAll]

theorem itemPledges_loose {l : Nat} (inside : l < (looseList d).length) :
    itemPledges d (d.nsubs + l) = [(looseList d)[l]] := by
  simp [itemPledges, inside]

theorem itemHolds_loose {l : Nat} (inside : l < (looseList d).length) :
    itemHolds d latches want (d.nsubs + l) = (latches (looseList d)[l] == want) := by
  simp [itemHolds, itemPledges_loose inside]

/-- Every item in turn: the subcontracts, then the loose pledges. -/
theorem all_items :
    (List.range (itemCount d)).all (itemHolds d latches want) =
      ((List.range d.nsubs).all (fun s => subAll d latches s want) &&
        (looseList d).all fun p => latches p == want) := by
  rw [Bool.eq_iff_iff, Bool.and_eq_true, List.all_eq_true, List.all_eq_true, List.all_eq_true]
  simp only [List.mem_range]
  constructor
  · intro all
    refine ⟨?_, ?_⟩
    · intro s isSub
      rw [← itemHolds_sub latches want isSub]
      exact all s (Nat.lt_add_right _ isSub)
    · intro p membership
      obtain ⟨l, inside, rfl⟩ := List.getElem_of_mem membership
      rw [← itemHolds_loose latches want inside]
      exact all _ (Nat.add_lt_add_left inside _)
  · rintro ⟨subs, loose⟩ k bound
    by_cases isSub : k < d.nsubs
    · rw [itemHolds_sub latches want isSub]
      exact subs k isSub
    · obtain ⟨l, rfl⟩ : ∃ l, k = d.nsubs + l := ⟨k - d.nsubs, by omega⟩
      have inside : l < (looseList d).length := by
        unfold itemCount at bound
        omega
      rw [itemHolds_loose latches want inside]
      exact loose _ (List.getElem_mem inside)

/-- The structural default holds when there are items and each has latched. -/
theorem defaultLine_iff :
    defaultLine d latches want = true ↔
      itemCount d ≠ 0 ∧ ∀ k < itemCount d, itemHolds d latches want k = true := by
  have each : (∀ k < itemCount d, itemHolds d latches want k = true) ↔
      (List.range (itemCount d)).all (itemHolds d latches want) = true := by
    simp only [List.all_eq_true, List.mem_range]
  rw [each, ← decide_eq_true_iff (p := itemCount d ≠ 0), ← Bool.and_eq_true, ← Bool.eq_iff_iff,
    all_items]
  change (d.npledges != 0 && (d.nsubs != 0 || !(looseList d).isEmpty) &&
    (List.range d.nsubs).all (fun s => subAll d latches s want) &&
    (looseList d).all fun p => latches p == want) = _
  have counted : (d.nsubs != 0 || !(looseList d).isEmpty) = decide (itemCount d ≠ 0) := by
    rw [Bool.eq_iff_iff, Bool.or_eq_true, bne_iff_ne, decide_eq_true_eq, itemCount]
    cases looseList d with
    | nil => simp only [List.isEmpty_nil, Bool.not_true, Bool.false_eq_true, or_false,
        List.length_nil, Nat.add_zero]
    | cons first rest => simp
  rw [counted]
  by_cases none : d.npledges = 0
  · have unseen : ∀ s, subAll d latches s want = false := by
      intro s
      have empty : subMembers d s = [] := by
        apply List.eq_nil_iff_forall_not_mem.mpr
        intro p _
        exact absurd p.isLt (by omega)
      simp [subAll, empty]
    have loose : looseList d = [] := by
      apply List.eq_nil_iff_forall_not_mem.mpr
      intro p _
      exact absurd p.isLt (by omega)
    have nothing : (d.npledges != 0) = false := by simp [none]
    have refused : (decide (itemCount d ≠ 0) &&
        ((List.range d.nsubs).all (fun s => subAll d latches s want) &&
          (looseList d).all fun p => latches p == want)) = false := by
      rw [Bool.eq_false_iff]
      intro holds
      simp only [Bool.and_eq_true, decide_eq_true_eq, List.all_eq_true, List.mem_range] at holds
      obtain ⟨counts, subs, -⟩ := holds
      have some : 0 < d.nsubs := by
        rw [itemCount, loose] at counts
        exact Nat.pos_of_ne_zero counts
      exact absurd (subs 0 some) (by rw [unseen]; exact Bool.false_ne_true)
    rw [refused, nothing]
    simp only [Bool.false_and]
  · simp [none, Bool.and_assoc]

theorem defaultPartial_iff :
    defaultPartial d latches = true ↔
      ∃ k < d.nsubs, itemHolds d latches .fulfilled k = true := by
  simp only [defaultPartial, List.any_eq_true, List.mem_range]
  refine exists_congr fun s => and_congr_right fun isSub => ?_
  rw [itemHolds_sub latches .fulfilled isSub]

end Items

/-- No two items share a pledge. -/
theorem itemPledges_disjoint {d : GeasContractDesc} {k l : Nat} {p : Fin d.npledges}
    (first : p ∈ itemPledges d k) (second : p ∈ itemPledges d l) : k = l := by
  have nodup : (looseList d).Nodup := (List.nodup_finRange _).filter _
  have loose : ∀ j, ¬j < d.nsubs → p ∈ itemPledges d j →
      d.pledgeIsLoose p = true ∧ (looseList d)[j - d.nsubs]? = some p := by
    intro j notSub membership
    simp only [itemPledges, if_neg notSub, Option.mem_toList] at membership
    exact ⟨(List.mem_filter.mp (List.mem_of_getElem? membership)).2, membership⟩
  have grouped : ∀ j, j < d.nsubs → p ∈ itemPledges d j →
      d.pledgeIsLoose p = false ∧ (d.pledge p).sub = j := by
    intro j isSub membership
    simp only [itemPledges, if_pos isSub, subMembers, List.mem_filter, Bool.and_eq_true,
      beq_iff_eq, Bool.not_eq_true'] at membership
    exact ⟨membership.2.2, membership.2.1⟩
  by_cases kSub : k < d.nsubs <;> by_cases lSub : l < d.nsubs
  · have equal := (grouped k kSub first).2.symm.trans (grouped l lSub second).2
    exact_mod_cast equal
  · have clash := (grouped k kSub first).1.symm.trans (loose l lSub second).1
    cases clash
  · have clash := (grouped l lSub second).1.symm.trans (loose k kSub first).1
    cases clash
  · have inside : k - d.nsubs < (looseList d).length := by
      by_contra outside
      have missing := List.getElem?_eq_none (Nat.le_of_not_lt outside)
      rw [(loose k kSub first).2] at missing
      cases missing
    have equal := (List.getElem?_inj inside nodup).mp
      ((loose k kSub first).2.trans (loose l lSub second).2.symm)
    omega

/-- Every pledge belongs to an item. -/
theorem exists_mem_itemPledges {d : GeasContractDesc} (p : Fin d.npledges) :
    ∃ k < itemCount d, p ∈ itemPledges d k := by
  cases grouped : d.pledgeIsLoose p with
  | true =>
      have listed : p ∈ looseList d := List.mem_filter.mpr ⟨List.mem_finRange p, grouped⟩
      obtain ⟨l, inside, rfl⟩ := List.getElem_of_mem listed
      refine ⟨d.nsubs + l, Nat.add_lt_add_left inside _, ?_⟩
      rw [itemPledges_loose inside]
      exact List.mem_singleton.mpr rfl
  | false =>
      have bounds : 0 ≤ (d.pledge p).sub ∧ (d.pledge p).sub < d.nsubs := by
        simp only [GeasContractDesc.pledgeIsLoose, Bool.or_eq_false_iff,
          decide_eq_false_iff_not] at grouped
        omega
      refine ⟨(d.pledge p).sub.toNat, Nat.lt_add_right _ (by omega), ?_⟩
      rw [itemPledges, if_pos (by omega), subMembers, List.mem_filter]
      refine ⟨List.mem_finRange p, ?_⟩
      rw [Int.toNat_of_nonneg bounds.1, grouped, beq_self_eq_true]
      rfl

/-! ## Painting the items -/

/-- The latches that give every pledge of item `k` the latch `colour k`. -/
def paint (d : GeasContractDesc) (colour : Nat → PledgeLatch) : Latches d := fun p =>
  match (List.range (itemCount d)).find? fun k => p ∈ itemPledges d k with
  | some k => colour k
  | none => .pending

theorem paint_apply {d : GeasContractDesc} (colour : Nat → PledgeLatch) {k : Nat}
    (inside : k < itemCount d) {p : Fin d.npledges} (membership : p ∈ itemPledges d k) :
    paint d colour p = colour k := by
  unfold paint
  split
  · next l found =>
    have owner : p ∈ itemPledges d l := by simpa using List.find?_some found
    rw [itemPledges_disjoint owner membership]
  · next missing =>
    have absent := List.find?_eq_none.mp missing k (List.mem_range.mpr inside)
    exact absurd (decide_eq_true membership) absent

/-- Under painted latches an item holds what it was painted with, unless it is
empty. -/
theorem itemHolds_paint {d : GeasContractDesc} (colour : Nat → PledgeLatch) (want : PledgeLatch)
    {k : Nat} (inside : k < itemCount d) :
    itemHolds d (paint d colour) want k = true ↔ itemPledges d k ≠ [] ∧ colour k = want := by
  rw [itemHolds_iff]
  refine and_congr_right fun nonempty => ?_
  obtain ⟨p, membership⟩ := List.exists_mem_of_ne_nil _ nonempty
  constructor
  · intro all
    rw [← all p membership, paint_apply colour inside membership]
  · rintro rfl q other
    exact paint_apply colour inside other

theorem itemPledges_ne_nil_of_loose {d : GeasContractDesc} {k : Nat} (notSub : d.nsubs ≤ k)
    (inside : k < itemCount d) : itemPledges d k ≠ [] := by
  obtain ⟨l, rfl⟩ := Nat.exists_eq_add_of_le notSub
  rw [itemPledges_loose (Nat.lt_of_add_lt_add_left inside)]
  exact List.cons_ne_nil _ _

/-! ## The emitted tables -/

theorem collectPledges_sub {k : Nat} {members : List Member} {p : GeasPledgeDesc}
    (membership : p ∈ collectPledges k members) :
    p.sub = -1 ∨ (k : Int) ≤ p.sub ∧ p.sub < k + (collectSubs members).length := by
  induction members generalizing k with
  | nil => cases membership
  | cons member rest ih =>
      cases member with
      | vow | clause => exact ih membership
      | pledge node =>
          rcases List.mem_cons.mp membership with rfl | later
          · exact Or.inl rfl
          · exact ih later
      | sub node =>
          simp only [collectPledges, List.mem_append, List.mem_map] at membership
          simp only [collectSubs, List.length_cons]
          rcases membership with ⟨_, -, rfl⟩ | later
          · refine Or.inr ?_
            push_cast
            omega
          · refine (ih later).imp_right fun bounds => ?_
            push_cast at bounds ⊢
            omega

/-- A subcontract has pledges in the table exactly when it declares some. -/
theorem exists_collectPledges_sub (k s : Nat) (members : List Member) :
    (∃ p ∈ collectPledges k members, p.sub = ((k + s : Nat) : Int)) ↔
      ∃ node, (collectSubs members)[s]? = some node ∧ node.pledges ≠ [] := by
  induction members generalizing k s with
  | nil => simp [collectPledges, collectSubs]
  | cons member rest ih =>
      cases member with
      | vow | clause => exact ih k s
      | pledge node =>
          rw [collectPledges, collectSubs]
          · rw [← ih k s]
            refine ⟨?_, fun ⟨p, later, owner⟩ => ⟨p, List.mem_cons_of_mem _ later, owner⟩⟩
            rintro ⟨p, membership, owner⟩
            rcases List.mem_cons.mp membership with rfl | later
            · exact absurd owner (by simp only; omega)
            · exact ⟨p, later, owner⟩
          · rintro node' ⟨⟩
      | sub node =>
          rw [collectPledges, collectSubs]
          cases s with
          | zero =>
              simp only [List.getElem?_cons_zero, Option.some.injEq, exists_eq_left']
              constructor
              · rintro ⟨p, membership, owner⟩
                rcases List.mem_append.mp membership with here | later
                · rintro empty
                  rw [empty] at here
                  cases here
                · rcases collectPledges_sub later with loose | bounds <;>
                    exact absurd owner (by push_cast at *; omega)
              · intro nonempty
                obtain ⟨pledge, here⟩ := List.exists_mem_of_ne_nil _ nonempty
                exact ⟨_, List.mem_append_left _ (List.mem_map_of_mem here), rfl⟩
          | succ s =>
              rw [List.getElem?_cons_succ, ← ih (k + 1) s]
              constructor
              · rintro ⟨p, membership, owner⟩
                rcases List.mem_append.mp membership with here | later
                · obtain ⟨_, -, rfl⟩ := List.mem_map.mp here
                  exact absurd owner (by simp only; omega)
                · exact ⟨p, later, by rw [owner]; push_cast; omega⟩
              · rintro ⟨p, later, owner⟩
                exact ⟨p, List.mem_append_right _ later, by rw [owner]; push_cast; omega⟩

/-- Subcontract `s` of the source declares no pledge. -/
def EmptySub (c : ContractNode) (s : Nat) : Prop :=
  ∃ node, (collectSubs c.members)[s]? = some node ∧ node.pledges = []

/-- Row `k` of a pass over the items tests item `k`. -/
theorem atomTrue_itemAtoms {d : GeasContractDesc} (latches : Latches d) (kind : UInt32)
    {k : Nat} (inside : k < itemCount d) :
    ∃ atom, (itemAtoms kind d.nsubs ((looseList d).map Fin.val))[k]? = some atom ∧
      atomTrue d latches atom =
        itemHolds d latches (if kind == atomBroken then .broken else .fulfilled) k := by
  by_cases isSub : k < d.nsubs
  · refine ⟨⟨kind, k, -1⟩, ?_, ?_⟩
    · rw [itemAtoms, List.getElem?_append_left (by simpa using isSub), List.getElem?_map,
        List.getElem?_range isSub]
      rfl
    · rw [itemHolds_sub latches _ isSub]
      simp [atomTrue]
  · obtain ⟨l, rfl⟩ := Nat.exists_eq_add_of_le (Nat.le_of_not_lt isSub)
    have bound := Nat.lt_of_add_lt_add_left inside
    refine ⟨⟨kind, -1, (looseList d)[l].val⟩, ?_, ?_⟩
    · rw [itemAtoms, List.getElem?_append_right (by simp)]
      simp [bound]
    · rw [itemHolds_loose latches _ bound]
      simp [atomTrue]

/-- The three lines of a descriptor agree with the structural default. -/
def LinesAgree (d : GeasContractDesc) (latches : Latches d) : Prop :=
  evalLine d latches d.reqFulfill = defaultLine d latches .fulfilled ∧
  evalLine d latches d.reqPartial = defaultPartial d latches ∧
  evalLine d latches d.reqBreak = defaultLine d latches .broken

section Emitted

variable (base : GeasContractDesc) (c : ContractNode)

theorem emitContract_loose (i : Fin (emitContract base c).npledges) :
    (emitContract base c).pledgeIsLoose i = decide (((emitContract base c).pledge i).sub < 0) := by
  have membership : (emitContract base c).pledge i ∈ collectPledges 0 c.members :=
    List.getElem_mem i.isLt
  have width : (emitContract base c).nsubs = (collectSubs c.members).length :=
    List.length_map _
  have bounds := collectPledges_sub membership
  rw [GeasContractDesc.pledgeIsLoose, width, Bool.eq_iff_iff, Bool.or_eq_true, decide_eq_true_eq,
    decide_eq_true_eq]
  push_cast at bounds
  omega

/-- The compiler and the runtime count the same pledges as loose. -/
theorem loosePledges_eq :
    loosePledges (emitContract base c).pledges = (looseList (emitContract base c)).map Fin.val := by
  rw [loosePledges, looseList, ← List.map_coe_finRange_eq_range, List.filter_map]
  congr 1
  refine List.filter_congr fun i _ => ?_
  rw [emitContract_loose]
  simp

/-- An item of the descriptor is empty exactly when it is a subcontract that
declares no pledge. -/
theorem itemPledges_eq_nil_iff {k : Nat} (inside : k < itemCount (emitContract base c)) :
    itemPledges (emitContract base c) k = [] ↔ EmptySub c k := by
  have width : (emitContract base c).nsubs = (collectSubs c.members).length :=
    List.length_map _
  by_cases isSub : k < (emitContract base c).nsubs
  · have owned : itemPledges (emitContract base c) k ≠ [] ↔
        ∃ p ∈ collectPledges 0 c.members, p.sub = ((0 + k : Nat) : Int) := by
      rw [itemPledges, if_pos isSub, subMembers, ne_eq, List.filter_eq_nil_iff]
      push Not
      constructor
      · rintro ⟨i, -, holds⟩
        simp only [Bool.and_eq_true, beq_iff_eq] at holds
        exact ⟨_, List.getElem_mem i.isLt, by rw [Nat.zero_add]; exact holds.1⟩
      · rintro ⟨p, membership, owner⟩
        obtain ⟨i, rfl⟩ : ∃ i : Fin (emitContract base c).npledges,
            (emitContract base c).pledge i = p := by
          obtain ⟨i, bound, rfl⟩ := List.getElem_of_mem membership
          exact ⟨⟨i, bound⟩, rfl⟩
        refine ⟨i, List.mem_finRange _, ?_⟩
        rw [emitContract_loose, Bool.and_eq_true, beq_iff_eq, Bool.not_eq_true',
          decide_eq_false_iff_not, owner]
        omega
    rw [exists_collectPledges_sub] at owned
    obtain ⟨node, present⟩ : ∃ node, (collectSubs c.members)[k]? = some node :=
      ⟨_, List.getElem?_eq_getElem (width ▸ isSub)⟩
    simp only [present, Option.some.injEq, exists_eq_left'] at owned
    simp only [EmptySub, present, Option.some.injEq, exists_eq_left']
    exact not_iff_not.mp owned
  · have loose := itemPledges_ne_nil_of_loose (Nat.le_of_not_lt isSub) inside
    refine ⟨fun empty => absurd empty loose, ?_⟩
    rintro ⟨node, present, -⟩
    have bound := (List.getElem?_eq_some_iff.mp present).1
    omega

variable {c} (noBlock : c.reqs = none)
include noBlock

/-- The atom table holds the items twice, also when there are none. -/
theorem emitContract_defaults :
    let d := emitContract base c
    let loose := (looseList d).map Fin.val
    d.hasReqs = false ∧
    d.atoms = itemAtoms atomFulfilled d.nsubs loose ++ itemAtoms atomBroken d.nsubs loose ∧
    d.reqFulfill = emitOps (pushChain .and (List.range (itemCount d))) ∧
    d.reqPartial = emitOps (pushChain .or (List.range d.nsubs)) ∧
    d.reqBreak = emitOps (pushChain .and ((List.range (itemCount d)).map (itemCount d + ·))) := by
  intro d loose
  have tables : emitReqs c = emitDefaultBlock c.members := by simp only [emitReqs, noBlock]
  have width : (collectSubs c.members).length = d.nsubs := (List.length_map _).symm
  have counted : loosePledges (collectPledges 0 c.members) = loose := loosePledges_eq base c
  have total : d.nsubs + loose.length = itemCount d := by rw [itemCount, List.length_map]
  have fields : d.hasReqs = (emitReqs c).hasReqs ∧ d.atoms = (emitReqs c).atoms ∧
      d.reqFulfill = (emitReqs c).reqFulfill ∧ d.reqPartial = (emitReqs c).reqPartial ∧
      d.reqBreak = (emitReqs c).reqBreak := ⟨rfl, rfl, rfl, rfl, rfl⟩
  rw [fields.1, fields.2.1, fields.2.2.1, fields.2.2.2.1, fields.2.2.2.2, tables,
    emitDefaultBlock]
  simp only [width, counted, total]
  split
  · next none =>
    have parts : d.nsubs = 0 ∧ loose = [] := by
      rw [← List.length_eq_zero_iff]
      omega
    rw [none, parts.1, parts.2]
    exact ⟨rfl, rfl, rfl, rfl, rfl⟩
  · exact ⟨rfl, rfl, rfl, rfl, rfl⟩

/-- What the byte of an atom index refers to: the items fulfilled, then the items
broken. -/
theorem atomValue_item (latches : Latches (emitContract base c)) (index : Nat) :
    atomValue (emitContract base c) latches index =
      let n := itemCount (emitContract base c)
      if index % 256 < n then itemHolds (emitContract base c) latches .fulfilled (index % 256)
      else if index % 256 < 2 * n then
        itemHolds (emitContract base c) latches .broken (index % 256 - n)
      else false := by
  have long : ∀ kind, (itemAtoms kind (emitContract base c).nsubs
      ((looseList (emitContract base c)).map Fin.val)).length =
        itemCount (emitContract base c) := by
    intro kind
    simp [itemAtoms, itemCount]
  simp only [atomValue, (emitContract_defaults base noBlock).2.1]
  split_ifs with first second
  · obtain ⟨atom, present, reads⟩ := atomTrue_itemAtoms latches atomFulfilled first
    rw [List.getElem?_append_left (by rw [long]; exact first), present]
    exact reads
  · obtain ⟨atom, present, reads⟩ := atomTrue_itemAtoms latches atomBroken
      (k := index % 256 - itemCount (emitContract base c)) (by omega)
    rw [List.getElem?_append_right (by rw [long]; omega), long, present]
    exact reads
  · rw [List.getElem?_eq_none (by rw [List.length_append, long, long]; omega)]

theorem emitContract_natoms :
    (emitContract base c).natoms = 2 * itemCount (emitContract base c) := by
  rw [GeasContractDesc.natoms, (emitContract_defaults base noBlock).2.1]
  simp only [itemAtoms, itemCount, List.length_append, List.length_map, List.length_range]
  omega

theorem index_inTable {index : Nat} (bound : index < 2 * itemCount (emitContract base c)) :
    index % 256 < (emitContract base c).natoms := by
  rw [emitContract_natoms base noBlock]
  exact Nat.lt_of_le_of_lt (Nat.mod_le _ _) bound

/-- The emitted fulfill line tests the items its bytes refer to. -/
theorem evalLine_reqFulfill (latches : Latches (emitContract base c)) :
    evalLine (emitContract base c) latches (emitContract base c).reqFulfill = true ↔
      itemCount (emitContract base c) ≠ 0 ∧ ∀ i < itemCount (emitContract base c),
        itemHolds (emitContract base c) latches .fulfilled (i % 256) = true := by
  have inTable : ∀ index ∈ List.range (itemCount (emitContract base c)),
      index % 256 < (emitContract base c).natoms := fun index membership =>
    index_inTable base noBlock (by have := List.mem_range.mp membership; omega)
  rw [(emitContract_defaults base noBlock).2.2.1, evalLine_andChain latches inTable]
  simp only [Bool.and_eq_true, Bool.not_eq_true', List.isEmpty_eq_false_iff, ne_eq,
    List.range_eq_nil, List.all_eq_true, List.mem_range]
  refine and_congr_right fun _ => forall₂_congr fun i inside => ?_
  rw [atomValue_item base noBlock, if_pos (Nat.lt_of_le_of_lt (Nat.mod_le i 256) inside)]

theorem evalLine_reqPartial (latches : Latches (emitContract base c)) :
    evalLine (emitContract base c) latches (emitContract base c).reqPartial = true ↔
      ∃ i < (emitContract base c).nsubs,
        itemHolds (emitContract base c) latches .fulfilled (i % 256) = true := by
  have fewer : (emitContract base c).nsubs ≤ itemCount (emitContract base c) :=
    Nat.le_add_right _ _
  have inTable : ∀ index ∈ List.range (emitContract base c).nsubs,
      index % 256 < (emitContract base c).natoms := fun index membership =>
    index_inTable base noBlock (by have := List.mem_range.mp membership; omega)
  rw [(emitContract_defaults base noBlock).2.2.2.1, evalLine_orChain latches inTable]
  simp only [List.any_eq_true, List.mem_range]
  refine exists_congr fun i => and_congr_right fun inside => ?_
  rw [atomValue_item base noBlock, if_pos (by have := Nat.mod_le i 256; omega)]

theorem evalLine_reqBreak (latches : Latches (emitContract base c)) :
    evalLine (emitContract base c) latches (emitContract base c).reqBreak = true ↔
      itemCount (emitContract base c) ≠ 0 ∧ ∀ i < itemCount (emitContract base c),
        atomValue (emitContract base c) latches (itemCount (emitContract base c) + i) = true := by
  have inTable : ∀ index ∈ (List.range (itemCount (emitContract base c))).map
      (itemCount (emitContract base c) + ·), index % 256 < (emitContract base c).natoms := by
    intro index membership
    obtain ⟨i, inside, rfl⟩ := List.mem_map.mp membership
    exact index_inTable base noBlock (by have := List.mem_range.mp inside; omega)
  rw [(emitContract_defaults base noBlock).2.2.2.2, evalLine_andChain latches inTable]
  simp only [Bool.and_eq_true, Bool.not_eq_true', List.isEmpty_eq_false_iff, ne_eq,
    List.map_eq_nil_iff, List.range_eq_nil, List.all_map, List.all_eq_true, List.mem_range,
    Function.comp_apply]

/-- Up to 128 items every index fits its byte, and the lines agree. -/
theorem lines_agree_of_few (few : itemCount (emitContract base c) ≤ 128)
    (latches : Latches (emitContract base c)) : LinesAgree (emitContract base c) latches := by
  refine ⟨?_, ?_, ?_⟩
  · rw [Bool.eq_iff_iff, evalLine_reqFulfill base noBlock, defaultLine_iff]
    refine and_congr_right fun _ => forall₂_congr fun i inside => ?_
    rw [Nat.mod_eq_of_lt (by omega)]
  · rw [Bool.eq_iff_iff, evalLine_reqPartial base noBlock, defaultPartial_iff]
    refine exists_congr fun i => and_congr_right fun inside => ?_
    have bound : i < itemCount (emitContract base c) := Nat.lt_add_right _ inside
    rw [Nat.mod_eq_of_lt (by omega)]
  · rw [Bool.eq_iff_iff, evalLine_reqBreak base noBlock, defaultLine_iff]
    refine and_congr_right fun _ => forall₂_congr fun i inside => ?_
    rw [atomValue_item base noBlock, Nat.mod_eq_of_lt (by omega), if_neg (by omega),
      if_pos (by omega), Nat.add_sub_cancel_left]

/-- An empty subcontract among the first 256 items keeps the emitted break line
false: some op tests it, or item 0 is tested as fulfilled and as broken. -/
theorem reqBreak_false_of_empty (many : 128 < itemCount (emitContract base c)) {s : Nat}
    (low : s < 256) (inside : s < itemCount (emitContract base c))
    (empty : itemPledges (emitContract base c) s = [])
    (latches : Latches (emitContract base c)) :
    evalLine (emitContract base c) latches (emitContract base c).reqBreak ≠ true := by
  rw [ne_eq, evalLine_reqBreak base noBlock]
  rintro ⟨-, all⟩
  by_cases wide : 256 ≤ itemCount (emitContract base c)
  · have tested := all ((s + 256 - itemCount (emitContract base c) % 256) % 256) (by omega)
    have lands : (itemCount (emitContract base c) +
        (s + 256 - itemCount (emitContract base c) % 256) % 256) % 256 = s := by omega
    rw [atomValue_item base noBlock, lands, if_pos inside, itemHolds_iff] at tested
    exact tested.1 empty
  · have broken := all 0 (by omega)
    rw [atomValue_item base noBlock, Nat.add_zero, Nat.mod_eq_of_lt (by omega),
      if_neg (by omega), if_pos (by omega), Nat.sub_self, itemHolds_iff] at broken
    have fulfilled := all (256 - itemCount (emitContract base c)) (by omega)
    rw [atomValue_item base noBlock, Nat.add_sub_cancel' (by omega), Nat.mod_self,
      if_pos (by omega), itemHolds_iff] at fulfilled
    obtain ⟨p, membership⟩ := List.exists_mem_of_ne_nil _ broken.1
    have clash := (broken.2 p membership).symm.trans (fulfilled.2 p membership)
    cases clash

/-- With an empty subcontract among the first 256 items and only empty ones
beyond, the lines agree whatever the number of items. -/
theorem lines_agree_of_empty (many : 128 < itemCount (emitContract base c)) {s : Nat}
    (low : s < 256) (isSub : s < (emitContract base c).nsubs)
    (empty : itemPledges (emitContract base c) s = [])
    (beyond : ∀ t, 256 ≤ t → t < (emitContract base c).nsubs →
      itemPledges (emitContract base c) t = [])
    (latches : Latches (emitContract base c)) : LinesAgree (emitContract base c) latches := by
  have inside : s < itemCount (emitContract base c) := Nat.lt_add_right _ isSub
  have unmet : ∀ want, defaultLine (emitContract base c) latches want ≠ true := by
    intro want holds
    rw [defaultLine_iff] at holds
    exact (itemHolds_iff.mp (holds.2 s inside)).1 empty
  refine ⟨?_, ?_, ?_⟩
  · refine Bool.eq_iff_iff.mpr (iff_of_false ?_ (unmet _))
    rw [evalLine_reqFulfill base noBlock]
    rintro ⟨-, all⟩
    have tested := all s inside
    rw [Nat.mod_eq_of_lt low] at tested
    exact (itemHolds_iff.mp tested).1 empty
  · rw [Bool.eq_iff_iff, evalLine_reqPartial base noBlock, defaultPartial_iff]
    constructor
    · rintro ⟨i, bound, holds⟩
      exact ⟨i % 256, Nat.lt_of_le_of_lt (Nat.mod_le i 256) bound, holds⟩
    · rintro ⟨i, bound, holds⟩
      have small : i < 256 := by
        by_contra high
        exact (itemHolds_iff.mp holds).1 (beyond i (Nat.le_of_not_lt high) bound)
      exact ⟨i, bound, by rw [Nat.mod_eq_of_lt small]; exact holds⟩
  · refine Bool.eq_iff_iff.mpr (iff_of_false ?_ (unmet _))
    exact reqBreak_false_of_empty base noBlock many low inside empty latches

/-- A subcontract the bytes cannot reach is missing from the partial line. -/
theorem reqPartial_misses {s : Nat} (high : 256 ≤ s) (isSub : s < (emitContract base c).nsubs)
    (nonempty : itemPledges (emitContract base c) s ≠ []) :
    ∃ latches, ¬LinesAgree (emitContract base c) latches := by
  refine ⟨paint _ fun k => if k = s then .fulfilled else .pending, ?_⟩
  rintro ⟨-, agree, -⟩
  have structural : defaultPartial (emitContract base c)
      (paint _ fun k => if k = s then .fulfilled else .pending) = true := by
    rw [defaultPartial_iff]
    exact ⟨s, isSub, (itemHolds_paint _ _ (Nat.lt_add_right _ isSub)).mpr ⟨nonempty, if_pos rfl⟩⟩
  rw [structural, evalLine_reqPartial base noBlock] at agree
  obtain ⟨i, bound, holds⟩ := agree
  have reach : i % 256 < itemCount (emitContract base c) :=
    Nat.lt_add_right _ (Nat.lt_of_le_of_lt (Nat.mod_le i 256) bound)
  have colour := ((itemHolds_paint _ _ reach).mp holds).2
  rw [if_neg (by omega)] at colour
  cases colour

/-- Past 256 items the fulfill line does not wait for all of them. -/
theorem reqFulfill_early (wide : 256 < itemCount (emitContract base c))
    (occupied : ∀ k < 256, itemPledges (emitContract base c) k ≠ []) :
    ∃ latches, ¬LinesAgree (emitContract base c) latches := by
  refine ⟨paint _ fun k => if k < 256 then .fulfilled else .pending, ?_⟩
  rintro ⟨agree, -, -⟩
  have compiled : evalLine (emitContract base c)
      (paint _ fun k => if k < 256 then .fulfilled else .pending)
      (emitContract base c).reqFulfill = true := by
    rw [evalLine_reqFulfill base noBlock]
    refine ⟨by omega, fun i inside => ?_⟩
    have small : i % 256 < 256 := Nat.mod_lt i (by decide)
    exact (itemHolds_paint _ _ (by omega)).mpr ⟨occupied _ small, if_pos small⟩
  rw [compiled, eq_comm, defaultLine_iff] at agree
  have colour := ((itemHolds_paint _ _ wide).mp (agree.2 256 wide)).2
  cases colour

/-- From 129 to 256 items, all broken, the break line tests a fulfilled atom. -/
theorem reqBreak_late (many : 128 < itemCount (emitContract base c))
    (fits : itemCount (emitContract base c) ≤ 256)
    (occupied : ∀ k < itemCount (emitContract base c),
      itemPledges (emitContract base c) k ≠ []) :
    evalLine (emitContract base c) (fun _ => .broken) (emitContract base c).reqBreak = false ∧
      defaultLine (emitContract base c) (fun _ => .broken) .broken = true := by
  refine ⟨?_, ?_⟩
  · rw [Bool.eq_false_iff, ne_eq, evalLine_reqBreak base noBlock]
    rintro ⟨-, all⟩
    have tested := all (256 - itemCount (emitContract base c)) (by omega)
    rw [atomValue_item base noBlock, Nat.add_sub_cancel' fits, Nat.mod_self, if_pos (by omega),
      itemHolds_iff] at tested
    obtain ⟨p, membership⟩ := List.exists_mem_of_ne_nil _ tested.1
    cases tested.2 p membership
  · rw [defaultLine_iff]
    exact ⟨by omega, fun k inside => itemHolds_iff.mpr ⟨occupied k inside, fun _ _ => rfl⟩⟩

end Emitted

/-! ## The contracts whose defaults agree -/

/-- A member that is an item of the policy: a subcontract or a loose pledge. -/
def Member.isItem : Member → Bool
  | .pledge _ | .sub _ => true
  | .vow _ | .clause _ => false

/-- The number of items a contract declares. -/
def itemsOf (c : ContractNode) : Nat := c.members.countP Member.isItem

theorem collect_length (k : Nat) (members : List Member) :
    (collectSubs members).length + (collectPledges k members).countP (fun p => p.sub < 0) =
      members.countP Member.isItem := by
  induction members generalizing k with
  | nil => rfl
  | cons member rest ih =>
      cases member with
      | vow | clause => simpa [collectSubs, collectPledges, Member.isItem] using ih k
      | pledge node =>
          have passed : collectSubs (.pledge node :: rest) = collectSubs rest := rfl
          rw [passed, collectPledges, List.countP_cons_of_pos (by simp),
            List.countP_cons_of_pos rfl, ← ih k]
          omega
      | sub node =>
          have grouped : (node.pledges.map fun pledge =>
              (⟨pledge.name, pledge.nparams, k⟩ : GeasPledgeDesc)).countP
                (fun p => p.sub < 0) = 0 := by
            rw [List.countP_eq_zero]
            intro p membership
            obtain ⟨_, -, rfl⟩ := List.mem_map.mp membership
            simp
          rw [collectSubs, collectPledges, List.countP_append, grouped, List.length_cons,
            List.countP_cons_of_pos rfl, ← ih (k + 1)]
          omega

theorem itemCount_emitContract (base : GeasContractDesc) (c : ContractNode) :
    itemCount (emitContract base c) = itemsOf c := by
  have loose : (looseList (emitContract base c)).length =
      (collectPledges 0 c.members).countP fun p => p.sub < 0 := by
    have listed : (List.finRange (emitContract base c).npledges).map
        (fun i => (emitContract base c).pledge i) = collectPledges 0 c.members :=
      List.map_getElem_finRange _
    rw [← listed, List.countP_map, List.countP_eq_length_filter, looseList]
    congr 1
    exact List.filter_congr fun i _ => emitContract_loose base c i
  rw [itemCount, loose, itemsOf, ← collect_length 0]
  congr 1
  exact List.length_map _

/-- The descriptor without its policy tables, as one writes it by hand. -/
def handwritten (d : GeasContractDesc) : GeasContractDesc :=
  { d with atoms := [], hasReqs := false, reqFulfill := [], reqPartial := [], reqBreak := [] }

/-- Lines that agree give the state a descriptor without tables reaches. -/
theorem policyState_handwritten {d : GeasContractDesc} {latches : Latches d}
    (agree : LinesAgree d latches) :
    policyState d latches = policyState (handwritten d) latches := by
  have lines : breakLine d latches = defaultLine d latches .broken ∧
      fulfillLine d latches = defaultLine d latches .fulfilled ∧
      partialLine d latches = defaultPartial d latches := by
    unfold breakLine fulfillLine partialLine
    cases hasTrees d with
    | true => exact ⟨agree.2.2, agree.1, agree.2.1⟩
    | false => exact ⟨rfl, rfl, rfl⟩
  unfold policyState
  rw [lines.1, lines.2.1, lines.2.2]
  rfl

/-- The synthesized lines mean the structural default for every latch vector
exactly for contracts of at most 128 items, and for longer ones in which an empty
subcontract keeps the lines false and nothing beyond the bytes could make the
partial line true. -/
theorem default_lines_agree_iff (base : GeasContractDesc) {c : ContractNode}
    (noBlock : c.reqs = none) :
    (∀ latches : Latches (emitContract base c),
      evalLine (emitContract base c) latches (emitContract base c).reqFulfill =
          defaultLine (emitContract base c) latches .fulfilled ∧
        evalLine (emitContract base c) latches (emitContract base c).reqPartial =
          defaultPartial (emitContract base c) latches ∧
        evalLine (emitContract base c) latches (emitContract base c).reqBreak =
          defaultLine (emitContract base c) latches .broken ∧
        policyState (emitContract base c) latches =
          policyState (handwritten (emitContract base c)) latches) ↔
      itemsOf c ≤ 128 ∨
        (∃ s < 256, EmptySub c s) ∧
          ∀ s, 256 ≤ s → s < (collectSubs c.members).length → EmptySub c s := by
  have width : (emitContract base c).nsubs = (collectSubs c.members).length :=
    List.length_map _
  have fewer : (emitContract base c).nsubs ≤ itemCount (emitContract base c) :=
    Nat.le_add_right _ _
  have bounded : ∀ {s}, EmptySub c s → s < (emitContract base c).nsubs := by
    rintro s ⟨node, present, -⟩
    rw [width]
    exact (List.getElem?_eq_some_iff.mp present).1
  rw [← itemCount_emitContract base c, ← width]
  constructor
  · intro agree
    have lines : ∀ latches, LinesAgree (emitContract base c) latches := fun latches =>
      ⟨(agree latches).1, (agree latches).2.1, (agree latches).2.2.1⟩
    by_contra neither
    push Not at neither
    obtain ⟨many, spoils⟩ := neither
    by_cases holed : ∃ s < 256, EmptySub c s
    · obtain ⟨s, high, isSub, occupied⟩ := spoils holed
      rw [← itemPledges_eq_nil_iff base c (by omega)] at occupied
      obtain ⟨latches, differs⟩ := reqPartial_misses base noBlock high isSub occupied
      exact differs (lines latches)
    · push Not at holed
      have occupied : ∀ k < 256, k < itemCount (emitContract base c) →
          itemPledges (emitContract base c) k ≠ [] := by
        intro k low inside
        rw [ne_eq, itemPledges_eq_nil_iff base c inside]
        exact holed k low
      by_cases wide : 256 < itemCount (emitContract base c)
      · obtain ⟨latches, differs⟩ := reqFulfill_early base noBlock wide
          fun k low => occupied k low (by omega)
        exact differs (lines latches)
      · obtain ⟨compiled, structural⟩ := reqBreak_late base noBlock many (by omega)
          fun k inside => occupied k (by omega) inside
        have equal := (lines fun _ => .broken).2.2
        rw [compiled, structural] at equal
        cases equal
  · intro condition latches
    have lines : LinesAgree (emitContract base c) latches := by
      by_cases few : itemCount (emitContract base c) ≤ 128
      · exact lines_agree_of_few base noBlock few latches
      · obtain ⟨⟨s, low, empty⟩, beyond⟩ := condition.resolve_left few
        have isSub := bounded empty
        refine lines_agree_of_empty base noBlock (by omega) low isSub
          ((itemPledges_eq_nil_iff base c (by omega)).mpr empty) ?_ latches
        intro t high inside
        exact (itemPledges_eq_nil_iff base c (by omega)).mpr (beyond t high inside)
    exact ⟨lines.1, lines.2.1, lines.2.2, policyState_handwritten lines⟩

/-- A contract of `n` loose pledges without a requirements block. -/
def looseContract (n : Nat) : ContractNode where
  name := "Loose"
  members := (List.range n).map fun i => .pledge ⟨"p" ++ toString i, 0⟩
  reqs := none

theorem itemsOf_looseContract (n : Nat) : itemsOf (looseContract n) = n := by
  have every : ∀ member ∈ (looseContract n).members, Member.isItem member = true := by
    intro member membership
    obtain ⟨i, -, rfl⟩ := List.mem_map.mp membership
    rfl
  rw [itemsOf, List.countP_eq_length.mpr every]
  simp [looseContract]

theorem looseContract_subs (n : Nat) : collectSubs (looseContract n).members = [] := by
  have walk : ∀ indices : List Nat, collectSubs
      (indices.map fun i => Member.pledge ⟨"p" ++ toString i, 0⟩) = [] := by
    intro indices
    induction indices with
    | nil => rfl
    | cons i rest ih => exact ih
  exact walk _

/-- With three pledges and every latch fulfilled, the emitted descriptor reads as
the handwritten one. -/
theorem default_lines_agree_three :
    itemsOf (looseContract 3) ≤ 128 ∧
      policyState (emitContract plainDesc (looseContract 3)) (fun _ => .fulfilled) =
        policyState (handwritten (emitContract plainDesc (looseContract 3))) fun _ => .fulfilled :=
  ⟨by decide, ((default_lines_agree_iff plainDesc rfl).mpr (Or.inl (by decide)) _).2.2.2⟩

/-- With 129 loose pledges, all broken, the structural default breaks the
contract.  The emitted break line stays false: the byte of its last op but one
wraps to the first atom, which tests for fulfilled. -/
theorem wrapped_break_line_differs :
    (looseContract 129).reqs = none ∧
      evalLine (emitContract plainDesc (looseContract 129)) (fun _ => .broken)
        (emitContract plainDesc (looseContract 129)).reqBreak = false ∧
      defaultLine (emitContract plainDesc (looseContract 129)) (fun _ => .broken) .broken =
        true := by
  have count : itemCount (emitContract plainDesc (looseContract 129)) = 129 := by
    rw [itemCount_emitContract, itemsOf_looseContract]
  refine ⟨rfl, ?_⟩
  refine reqBreak_late plainDesc rfl (by omega) (by omega) fun k inside => ?_
  rw [ne_eq, itemPledges_eq_nil_iff plainDesc _ inside]
  rintro ⟨node, present, -⟩
  rw [looseContract_subs] at present
  cases present

end Geas.Compiler
