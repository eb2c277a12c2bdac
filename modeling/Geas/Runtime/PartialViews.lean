import Mathlib.Data.List.Induction
import Mathlib.Data.List.Nodup
import Geas.Runtime.Partial
import Geas.Runtime.Copies

/-!
# The partial views

The lists of the partial surface are never stored.  Each count, each name by index and
the `PartialResult` record walk the latches again, and the walk keeps a counter and
captures the one name it was asked for.  The views agree because each walk visits the
items of the contract in one order and every item has one state.
-/

namespace Geas.Runtime

open Geas.Abi

variable (d : GeasContractDesc) (latches : Latches d)

/-! ## The walks -/

/-- A loop of `partial_scan` over the matches counted so far and the name captured so
far.  `entry` gives the name of an entry the loop does not skip. -/
def scanLoop {α : Type} (want : Nat) (entry : α → Option String) :
    List α → Nat × Option String → Nat × Option String
  | [], found => found
  | x :: rest, (n, name) =>
      match entry x with
      | none => scanLoop want entry rest (n, name)
      | some itemName =>
          scanLoop want entry rest (n + 1, if n = want then some itemName else name)

/-- An entry of the loop over the subcontracts. -/
def subEntry (k : GeasItemState) (s : Fin d.nsubs) : Option String :=
  match d.subs.get s with
  | none => none
  | some name => if subItemState d latches s ≠ k then none else some name

/-- An entry of the loop over the pledges. -/
def looseEntry (k : GeasItemState) (i : Fin d.npledges) : Option String :=
  if !d.pledgeIsLoose i then none
  else if looseItemState d latches i ≠ k then none
  else some (d.pledge i).name

/-- `partial_scan`: the matches, and the name of the wanted one. -/
def partialScanFor (k : GeasItemState) (want : Nat) : Nat × Option String :=
  scanLoop want (looseEntry d latches k) (List.finRange d.npledges)
    (scanLoop want (subEntry d latches k) (List.finRange d.nsubs) (0, none))

/-- `geas_partial_count`. -/
def geasPartialCount (k : GeasItemState) : Nat := (partialScanFor d latches k 0).1

/-- `geas_partial_name`. -/
def geasPartialName (k : GeasItemState) (i : Nat) : Option String :=
  (partialScanFor d latches k i).2

/-- The bytes of a name. -/
def nameBytes (name : String) : List UInt8 := name.toUTF8.toList

/-- The loop of `partial_names_value` over the indices from `i` on. -/
def copyNames (k : GeasItemState) (i : Nat) : Nat → HeapCopy (List GeasValue)
  | 0 => pure []
  | left + 1 =>
      match (partialScanFor d latches k i).2 with
      | none => throw .errName
      | some name => do
          stringBlock (nameBytes name).length
          let names ← copyNames k (i + 1) left
          pure (.string 0 (some (nameBytes name)) :: names)

/-- `partial_names_value`. -/
def partialNamesValue (k : GeasItemState) : HeapCopy GeasValue := do
  let n := (partialScanFor d latches k 0).1
  valueBlock n
  let names ← copyNames d latches k 0 n
  pure (.list 0 GeasTypeTag.string.code (some names))

/-- `geas_state_name`. -/
def geasStateName : GeasContractState → String
  | .unsigned => "Unsigned"
  | .signed => "Signed"
  | .fulfilled => "Fulfilled"
  | .partly => "Partial"
  | .broken => "Broken"

/-- `geas_partial_value`. -/
def geasPartialValue (state : GeasContractState) : HeapCopy GeasValue := do
  valueBlock 4
  let fulfilled ← partialNamesValue d latches .fulfilled
  let pending ← partialNamesValue d latches .pending
  let broken ← partialNamesValue d latches .broken
  pure (.record 0 (some
    [.string 0 (some (nameBytes (geasStateName state))), fulfilled, pending, broken]))

/-- `geas_partial_nerrors`. -/
def geasPartialNerrors : Nat :=
  (List.finRange d.npledges).foldl (fun n i => if latches i = .broken then n + 1 else n) 0

/-- The loop of `geas_partial_error` over the broken pledges passed so far. -/
def errorLoop (errs : Fin d.npledges → GeasValue) (wanted : Nat) :
    List (Fin d.npledges) → Nat → Option (String × GeasValue)
  | [], _ => none
  | p :: rest, n =>
      if latches p ≠ .broken then errorLoop errs wanted rest n
      else if n = wanted then some ((d.pledge p).name, errs p)
      else errorLoop errs wanted rest (n + 1)

/-- `geas_partial_error`: the name and payload it answers, `none` for `GEAS_ERR_NAME`. -/
def geasPartialError (errs : Fin d.npledges → GeasValue) (i : Nat) : Option (String × GeasValue) :=
  errorLoop d latches errs i (List.finRange d.npledges) 0

/-! ## The items of a contract -/

/-- An item: a subcontract or a pledge. -/
abbrev PartialItem := Fin d.nsubs ⊕ Fin d.npledges

/-- The items in descriptor order: the named subcontracts, then the loose pledges. -/
def partialItems : List (PartialItem d) :=
  ((List.finRange d.nsubs).filter fun s => (d.subs.get s).isSome).map .inl ++
    ((List.finRange d.npledges).filter d.pledgeIsLoose).map .inr

/-- The state of an item. -/
def itemState : PartialItem d → GeasItemState
  | .inl s => subItemState d latches s
  | .inr i => looseItemState d latches i

/-- The name of an item. -/
def itemName : PartialItem d → String
  | .inl s => (d.subs.get s).getD ""
  | .inr i => (d.pledge i).name

/-- The items under a state. -/
def itemsUnder (k : GeasItemState) : List (PartialItem d) :=
  (partialItems d).filter fun item => itemState d latches item = k

/-- The pledges latched broken. -/
def brokenPledges : List (Fin d.npledges) :=
  (List.finRange d.npledges).filter fun i => latches i = .broken

variable {d latches}

/-! ## The walks visit the items -/

/-- One match of a walk. -/
def countName (want : Nat) : Nat × Option String → String → Nat × Option String
  | (n, name), itemName => (n + 1, if n = want then some itemName else name)

theorem scanLoop_eq_foldl {α : Type} (want : Nat) (entry : α → Option String) (xs : List α)
    (found : Nat × Option String) :
    scanLoop want entry xs found = (xs.filterMap entry).foldl (countName want) found := by
  induction xs generalizing found with
  | nil => rfl
  | cons x rest ih =>
      obtain ⟨n, name⟩ := found
      rw [scanLoop, List.filterMap_cons]
      cases entry x with
      | none => exact ih _
      | some itemName => exact ih _

/-- A walk counts the names it meets and captures the wanted one. -/
theorem foldl_countName (want : Nat) (names : List String) :
    names.foldl (countName want) (0, none) = (names.length, names[want]?) := by
  induction names using List.reverseRecOn with
  | nil => rfl
  | append_singleton names name ih =>
      rw [List.foldl_concat, ih, countName, List.length_append, List.getElem?_append]
      simp only [List.length_singleton, Prod.mk.injEq, true_and]
      rcases Nat.lt_trichotomy names.length want with before | rfl | after
      · rw [if_neg (by omega), if_neg (by omega), List.getElem?_eq_none (by omega),
          List.getElem?_eq_none (by simp; omega)]
      · simp
      · rw [if_neg (by omega), if_pos after]

theorem subEntries_eq (k : GeasItemState) :
    (List.finRange d.nsubs).filterMap (subEntry d latches k) =
      ((((List.finRange d.nsubs).filter fun s => (d.subs.get s).isSome).map .inl).filter
        fun item => itemState d latches item = k).map (itemName d) := by
  induction List.finRange d.nsubs with
  | nil => rfl
  | cons s rest ih =>
      rw [List.filterMap_cons, ih, List.filter_cons]
      unfold subEntry
      cases named : d.subs.get s with
      | none => simp
      | some name =>
          by_cases here : subItemState d latches s = k
          · rw [List.get_eq_getElem] at named
            simp [here, itemState, itemName, named]
          · simp [here, itemState]

theorem looseEntries_eq (k : GeasItemState) :
    (List.finRange d.npledges).filterMap (looseEntry d latches k) =
      ((((List.finRange d.npledges).filter d.pledgeIsLoose).map .inr).filter
        fun item => itemState d latches item = k).map (itemName d) := by
  induction List.finRange d.npledges with
  | nil => rfl
  | cons i rest ih =>
      rw [List.filterMap_cons, ih, List.filter_cons]
      unfold looseEntry
      cases loose : d.pledgeIsLoose i with
      | false => simp
      | true =>
          by_cases here : looseItemState d latches i = k
          · simp [here, itemState, itemName]
          · simp [here, itemState]

/-- Every walk sees the items under its state. -/
theorem partialScanFor_eq (k : GeasItemState) (want : Nat) :
    partialScanFor d latches k want =
      ((itemsUnder d latches k).length, ((itemsUnder d latches k)[want]?).map (itemName d)) := by
  rw [partialScanFor, scanLoop_eq_foldl, scanLoop_eq_foldl, ← List.foldl_append,
    subEntries_eq, looseEntries_eq, ← List.map_append, ← List.filter_append, foldl_countName,
    List.length_map, List.getElem?_map]
  rfl

/-- The lists of the partial surface hold the names the walks see. -/
theorem partialScan_eq (k : GeasItemState) :
    partialScan d latches k = (itemsUnder d latches k).map (itemName d) := by
  rw [itemsUnder, partialItems, List.filter_append, List.map_append, ← subEntries_eq,
    ← looseEntries_eq, partialScan]
  congr 2
  · funext s
    rw [subEntry]
    cases d.subs.get s <;> simp
  · funext i
    rw [looseEntry]
    cases d.pledgeIsLoose i <;> simp

/-! ## The items are split -/

theorem mem_partialItems (item : PartialItem d) :
    item ∈ partialItems d ↔
      (∃ s, item = .inl s ∧ (d.subs.get s).isSome) ∨ ∃ i, item = .inr i ∧ d.pledgeIsLoose i := by
  simp only [partialItems, List.mem_append, List.mem_map, List.mem_filter, List.mem_finRange,
    true_and]
  grind

theorem partialItems_nodup : (partialItems d).Nodup := by
  refine List.nodup_append'.mpr ⟨?_, ?_, ?_⟩
  · exact ((List.nodup_finRange _).filter _).map Sum.inl_injective
  · exact ((List.nodup_finRange _).filter _).map Sum.inr_injective
  · intro item left right
    obtain ⟨s, -, rfl⟩ := List.mem_map.mp left
    obtain ⟨i, -, here⟩ := List.mem_map.mp right
    cases here

theorem mem_itemsUnder (k : GeasItemState) (item : PartialItem d) :
    item ∈ itemsUnder d latches k ↔ item ∈ partialItems d ∧ itemState d latches item = k := by
  rw [itemsUnder, List.mem_filter, decide_eq_true_iff]

theorem mem_membersOf {s : Int} {i : Fin d.npledges} :
    i ∈ subMembers d s ↔ (d.pledge i).sub = s ∧ d.pledgeIsLoose i = false := by
  simp [subMembers, List.mem_filter]

/-- A pledge is loose or inside exactly one subcontract. -/
theorem loose_or_inside (i : Fin d.npledges) :
    (d.pledgeIsLoose i = true ∧ ∀ s : Fin d.nsubs, i ∉ subMembers d s) ∨
      (d.pledgeIsLoose i = false ∧ ∃! s : Fin d.nsubs, i ∈ subMembers d s) := by
  cases loose : d.pledgeIsLoose i with
  | true =>
      refine .inl ⟨rfl, fun s mem => ?_⟩
      rw [mem_membersOf, loose] at mem
      cases mem.2
  | false =>
      have inside : 0 ≤ (d.pledge i).sub ∧ (d.pledge i).sub < d.nsubs := by
        simpa [GeasContractDesc.pledgeIsLoose] using loose
      refine .inr ⟨rfl, ⟨(d.pledge i).sub.toNat, by omega⟩, ?_, fun s mem => ?_⟩
      · exact mem_membersOf.mpr ⟨(Int.toNat_of_nonneg inside.1).symm, loose⟩
      · have here := (mem_membersOf.mp mem).1
        apply Fin.ext
        dsimp only
        omega

/-! ## The views agree -/

/-- A name as the record carries it. -/
def nameValue (name : String) : GeasValue := .string 0 (some (nameBytes name))

/-- The names of the items under a state, as the record lists them. -/
def namesValue (d : GeasContractDesc) (latches : Latches d) (k : GeasItemState) : GeasValue :=
  .list 0 GeasTypeTag.string.code
    (some ((itemsUnder d latches k).map fun item => nameValue (itemName d item)))

theorem copyNames_ok {k : GeasItemState} {i left : Nat} {names : List GeasValue}
    {heap heap' : HeapAnswers} (all : i + left = (itemsUnder d latches k).length)
    (done : copyNames d latches k i left heap = some (.ok names, heap')) :
    names = ((itemsUnder d latches k).drop i).map fun item => nameValue (itemName d item) := by
  induction left generalizing i names heap with
  | zero =>
      cases done
      rw [List.drop_eq_nil_of_le (by omega), List.map_nil]
  | succ left ih =>
      have inside : i < (itemsUnder d latches k).length := by omega
      rw [copyNames, partialScanFor_eq, List.getElem?_eq_getElem inside] at done
      obtain ⟨_, _, -, done⟩ := heapCopy_bind done
      obtain ⟨rest, _, later, done⟩ := heapCopy_bind done
      cases done
      rw [List.drop_eq_getElem_cons inside, List.map_cons, ih (by omega) later]
      rfl

/-- The one status a view may fail with. -/
def OutOfMemory (status : GeasStatus) : Prop := status = .errOom

theorem outOfMemory : OutOfMemory .errOom := rfl

theorem copyNames_fails {k : GeasItemState} {i left : Nat}
    (all : i + left = (itemsUnder d latches k).length) :
    FailsOnly OutOfMemory (copyNames d latches k i left) := by
  induction left generalizing i with
  | zero => exact .pure _
  | succ left ih =>
      have inside : i < (itemsUnder d latches k).length := by omega
      rw [copyNames, partialScanFor_eq, List.getElem?_eq_getElem inside]
      exact .bind (.stringBlock outOfMemory _) fun _ => .bind (ih (by omega)) fun _ => .pure _

theorem partialNamesValue_ok {k : GeasItemState} {value : GeasValue} {heap heap' : HeapAnswers}
    (done : partialNamesValue d latches k heap = some (.ok value, heap')) :
    value = namesValue d latches k := by
  obtain ⟨_, _, -, done⟩ := heapCopy_bind done
  obtain ⟨names, _, copies, done⟩ := heapCopy_bind done
  cases done
  have count : (partialScanFor d latches k 0).1 = (itemsUnder d latches k).length := by
    rw [partialScanFor_eq]
  rw [count] at copies
  rw [copyNames_ok (by omega) copies]
  rfl

theorem partialNamesValue_fails (k : GeasItemState) :
    FailsOnly OutOfMemory (partialNamesValue d latches k) := by
  have count : 0 + (partialScanFor d latches k 0).1 = (itemsUnder d latches k).length := by
    rw [partialScanFor_eq, Nat.zero_add]
  exact .bind (.valueBlock outOfMemory _) fun _ => .bind (copyNames_fails count) fun _ => .pure _

/-- The record carries the three lists, and memory is all it can fail for. -/
theorem geasPartialValue_spec (state : GeasContractState) {heap heap' : HeapAnswers}
    {result : Except GeasStatus GeasValue}
    (done : geasPartialValue d latches state heap = some (result, heap')) :
    result = .ok (.record 0 (some [nameValue (geasStateName state),
        namesValue d latches .fulfilled, namesValue d latches .pending,
        namesValue d latches .broken])) ∨
      result = .error .errOom := by
  cases result with
  | ok value =>
      obtain ⟨_, _, -, done⟩ := heapCopy_bind done
      obtain ⟨fulfilled, _, first, done⟩ := heapCopy_bind done
      obtain ⟨pending, _, second, done⟩ := heapCopy_bind done
      obtain ⟨broken, _, third, done⟩ := heapCopy_bind done
      cases done
      rw [partialNamesValue_ok first, partialNamesValue_ok second, partialNamesValue_ok third]
      exact .inl rfl
  | error status =>
      have fails : FailsOnly OutOfMemory (geasPartialValue d latches state) :=
        .bind (.valueBlock outOfMemory _) fun _ => .bind (partialNamesValue_fails _) fun _ =>
          .bind (partialNamesValue_fails _) fun _ => .bind (partialNamesValue_fails _) fun _ =>
            .pure _
      exact .inr (congrArg _ (fails _ _ _ done))

theorem geasPartialNerrors_eq : geasPartialNerrors d latches = (brokenPledges d latches).length := by
  have counts : ∀ (pledges : List (Fin d.npledges)) (n : Nat),
      pledges.foldl (fun n i => if latches i = .broken then n + 1 else n) n =
        n + (pledges.filter fun i => latches i = .broken).length := by
    intro pledges
    induction pledges with
    | nil => exact fun n => rfl
    | cons p rest ih =>
        intro n
        rw [List.foldl_cons, ih, List.filter_cons]
        by_cases broken : latches p = .broken
        · simp [broken]
          omega
        · simp [broken]
  rw [geasPartialNerrors, counts, Nat.zero_add]
  rfl

theorem errorLoop_eq (errs : Fin d.npledges → GeasValue) {wanted n : Nat}
    (pledges : List (Fin d.npledges)) (before : n ≤ wanted) :
    errorLoop d latches errs wanted pledges n =
      ((pledges.filter fun i => latches i = .broken)[wanted - n]?).map fun p =>
        ((d.pledge p).name, errs p) := by
  induction pledges generalizing n with
  | nil => rfl
  | cons p rest ih =>
      rw [errorLoop, List.filter_cons]
      by_cases broken : latches p = .broken
      · rw [if_neg (not_not.mpr broken), if_pos (decide_eq_true broken)]
        by_cases here : n = wanted
        · subst here
          simp
        · obtain ⟨ahead, rfl⟩ : ∃ ahead, wanted = n + 1 + ahead := ⟨wanted - (n + 1), by omega⟩
          rw [if_neg here, ih (by omega), Nat.add_sub_cancel_left, Nat.add_assoc,
            Nat.add_sub_cancel_left, Nat.add_comm 1, List.getElem?_cons_succ]
      · rw [if_pos broken, if_neg (by simpa using broken), ih before]

/-- The partial surface splits the contract: every named subcontract and every loose
pledge, and nothing else, stands under exactly one state, in descriptor order with the
subcontracts first; the counts, the names by index and the record show those lists, and
the errors are the pledges latched broken. -/
theorem partial_surface_partitions (d : GeasContractDesc) (latches : Latches d)
    (errs : Fin d.npledges → GeasValue) (state : GeasContractState) :
    ((∀ item : PartialItem d, item ∈ partialItems d ↔
        (∃ s, item = .inl s ∧ (d.subs.get s).isSome) ∨
          ∃ i, item = .inr i ∧ d.pledgeIsLoose i) ∧
      (partialItems d).Nodup ∧
      (∀ i, (d.pledgeIsLoose i = true ∧ ∀ s : Fin d.nsubs, i ∉ subMembers d s) ∨
        (d.pledgeIsLoose i = false ∧ ∃! s : Fin d.nsubs, i ∈ subMembers d s))) ∧
    ((∀ item ∈ partialItems d, ∃! k, item ∈ itemsUnder d latches k) ∧
      ∀ k, (itemsUnder d latches k).Sublist (partialItems d)) ∧
    (∀ k, geasPartialCount d latches k = (itemsUnder d latches k).length ∧
      ∀ i, geasPartialName d latches k i =
        ((itemsUnder d latches k)[i]?).map (itemName d)) ∧
    (∀ heap result heap', geasPartialValue d latches state heap = some (result, heap') →
      result = .ok (.record 0 (some [nameValue (geasStateName state),
        namesValue d latches .fulfilled, namesValue d latches .pending,
        namesValue d latches .broken])) ∨ result = .error .errOom) ∧
    geasPartialNerrors d latches = (brokenPledges d latches).length ∧
      ∀ i, geasPartialError d latches errs i =
        ((brokenPledges d latches)[i]?).map fun p => ((d.pledge p).name, errs p) := by
  refine ⟨⟨mem_partialItems, partialItems_nodup, loose_or_inside⟩, ⟨?_, ?_⟩, ?_, ?_,
    geasPartialNerrors_eq, fun i => ?_⟩
  · intro item mem
    refine ⟨itemState d latches item, (mem_itemsUnder _ _).mpr ⟨mem, rfl⟩, fun k under => ?_⟩
    exact ((mem_itemsUnder _ _).mp under).2.symm
  · exact fun k => List.filter_sublist
  · refine fun k => ⟨?_, fun i => ?_⟩
    · rw [geasPartialCount, partialScanFor_eq]
    · rw [geasPartialName, partialScanFor_eq]
  · exact fun heap result heap' done => geasPartialValue_spec state done
  · exact errorLoop_eq errs _ (Nat.zero_le i)

end Geas.Runtime
