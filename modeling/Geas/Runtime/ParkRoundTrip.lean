import Geas.Runtime.Lifecycle
import Geas.Runtime.Resume

/-!
# Park, then resume

The two directions of the parked instance meet here.  Park lets an instance
through its gate and writes exactly the format resume reads, so what comes back
is the instance itself whenever the codec can read its values back.  The gate
infers an explicit break from an empty block list, so it holds on the runs that
put nothing on that list after a break.
-/

namespace Geas.Runtime

open Geas.Abi
open Geas.Lib
open Geas.Lib.Transition
open Geas.Wire

variable {d : GeasContractDesc}

/-! ## The gate -/

/-- Everything a passed gate says. -/
theorem parkGate_ok {h : HeapSys d} (passed : parkGate h = .ok) :
    h.sys.c.state ≠ .unsigned ∧ (0 < d.npledges → h.owned = true) ∧
      (∀ f ∈ h.sys.futures, f.waited = true) ∧ ∀ s, h.sys.c.subTxn s ≠ .txnOpen := by
  unfold parkGate at passed
  split at passed
  · cases passed
  · next signed =>
    split at passed
    · cases passed
    · next owned =>
      split at passed
      · cases passed
      · next waited =>
        split at passed
        · cases passed
        · next closed =>
          refine ⟨signed, ?_, ?_, ?_⟩
          · intro entries
            by_contra empty
            exact owned ⟨entries, by simpa using empty⟩
          · intro f membership
            by_contra pending
            exact waited (List.any_eq_true.mpr ⟨f, membership, by simpa using pending⟩)
          · intro s isOpen
            exact closed (List.any_eq_true.mpr ⟨s, List.mem_finRange s, by simpa using isOpen⟩)

/-- The gate has one refusal. -/
theorem parkGate_refuses {h : HeapSys d} (refused : parkGate h ≠ .ok) : parkGate h = .errState := by
  unfold parkGate at refused ⊢
  split
  · rfl
  · split
    · rfl
    · split
      · rfl
      · split
        · rfl
        · next signed owned waited closed =>
          rw [if_neg signed, if_neg owned, if_neg waited, if_neg closed] at refused
          exact absurd rfl refused

/-- A refused park writes nothing. -/
theorem park_of_refused {h : HeapSys d} (refused : parkGate h ≠ .ok) (env : ParkEnv) (key : String)
    (table : ParkTable) : geasInstancePark env h key table = (.errState, table) := by
  unfold geasInstancePark parkedRow
  rw [if_pos refused, parkGate_refuses refused]

/-- An allocation comes before any explicit break. -/
def AllocatesLive (h : HeapSys d) : HeapAction d → Prop
  | .act _ => True
  | .allocate => h.reclaimed = false

/-- An explicit break left the block list empty. -/
def Emptied (h : HeapSys d) : Prop := h.reclaimed = true → h.owned = false

theorem publishedHeap_emptied (c : GeasContract d) : Emptied (publishedHeap c) :=
  fun reclaimed => absurd reclaimed Bool.false_ne_true

theorem heapStep_emptied {h h' : HeapSys d} {action : HeapAction d} (holds : Emptied h)
    (live : AllocatesLive h action) (stepped : heapStep h action = some h') : Emptied h' := by
  cases action with
  | allocate =>
      cases stepped
      intro reclaimed
      exact absurd (live.symm.trans reclaimed) (by decide)
  | act action =>
      obtain ⟨sys, -, rfl⟩ := Option.map_eq_some_iff.mp stepped
      cases action with
      | brk =>
          dsimp only
          split
          · exact holds
          · exact fun _ => rfl
      | fulfill | dequeue | inline | finish | wait => exact holds

/-- On a contract with pledges whose instance is not allocated on after an explicit
break, park refuses an explicitly broken instance, one with an unwaited future
and one with an open episode, and encodes nothing from a reclaimed heap. -/
theorem park_gate_holds {c : GeasContract d} {actions : List (HeapAction d)} {h : HeapSys d}
    (pledged : 0 < d.npledges) (live : Guarded heapStep AllocatesLive (publishedHeap c) actions)
    (ran : run heapStep (publishedHeap c) actions = some h) :
    (∀ env key table, (h.reclaimed = true ∨ (∃ f ∈ h.sys.futures, f.waited = false) ∨
        ∃ s, h.sys.c.subTxn s = .txnOpen) →
      geasInstancePark env h key table = (.errState, table)) ∧
    (parkGate h = .ok → h.reclaimed = false) := by
  have emptied : Emptied h :=
    run_invariant (fun _ _ _ => heapStep_emptied) (publishedHeap_emptied c) live ran
  have kept : parkGate h = .ok → h.reclaimed = false := by
    intro passed
    by_contra reclaimed
    have owned := (parkGate_ok passed).2.1 pledged
    rw [emptied (by simpa using reclaimed)] at owned
    cases owned
  refine ⟨fun env key table reason => park_of_refused (fun passed => ?_) env key table, kept⟩
  obtain ⟨-, -, waited, closed⟩ := parkGate_ok passed
  rcases reason with reclaimed | ⟨f, membership, pending⟩ | ⟨s, isOpen⟩
  · exact absurd ((kept passed).symm.trans reclaimed) (by decide)
  · exact absurd (pending.symm.trans (waited f membership)) (by decide)
  · exact closed s isOpen

/-- A database in which nothing fails. -/
def parkReady : ParkEnv := ⟨true, true, .ok⟩

theorem park_gate_holds_solo :
    ∃ h, run heapStep (signedHeap soloDesc [] 0) [.allocate, .act .brk] = some h ∧
      h.reclaimed = true ∧
      ∀ table, geasInstancePark parkReady h "k" table = (.errState, table) := by
  obtain ⟨h, ran⟩ : ∃ h,
      run heapStep (signedHeap soloDesc [] 0) [.allocate, .act .brk] = some h :=
    Option.isSome_iff_exists.mp (by decide)
  have reclaimed : h.reclaimed = true := by
    have reads : (run heapStep (signedHeap soloDesc [] 0) [.allocate, .act .brk]).map
        (·.reclaimed) = some true := by decide
    rw [ran] at reads
    exact Option.some.inj reads
  have live : Guarded heapStep AllocatesLive (signedHeap soloDesc [] 0) [.allocate, .act .brk] :=
    ⟨rfl, fun _ _ => ⟨trivial, fun _ _ => trivial⟩⟩
  exact ⟨h, ran, reclaimed, fun table =>
    (park_gate_holds (by decide) live ran).1 parkReady "k" table (Or.inl reclaimed)⟩

/-- One allocation after the break and park takes the instance for a live one. -/
theorem broken_instance_parks :
    ∃ h, run heapStep (signedHeap soloDesc [] 0) [.act .brk, .allocate] = some h ∧
      h.reclaimed = true ∧ (geasInstancePark parkReady h "k" fun _ => none).1 = .ok := by
  obtain ⟨h, ran⟩ : ∃ h,
      run heapStep (signedHeap soloDesc [] 0) [.act .brk, .allocate] = some h :=
    Option.isSome_iff_exists.mp (by decide)
  have reads : (run heapStep (signedHeap soloDesc [] 0) [.act .brk, .allocate]).map
      (fun h => (h.reclaimed, (geasInstancePark parkReady h "k" fun _ => none).1)) =
        some (true, .ok) := by decide
  rw [ran] at reads
  obtain ⟨reclaimed, ok⟩ := Prod.mk.inj (Option.some.inj reads)
  exact ⟨h, ran, reclaimed, ok⟩

/-! ## What park writes -/

theorem parkWrite_sound {total off : Nat} {values : List GeasValue} {bytes : List UInt8}
    (done : parkWrite total off values = .ok bytes) :
    (∀ value ∈ values, Encodable value) ∧ bytes = encodeWriteAll values ∧
      off + bytes.length ≤ max total off := by
  induction values generalizing off bytes with
  | nil =>
      cases done
      exact ⟨nofun, rfl, Nat.le_max_right _ _⟩
  | cons value rest ih =>
      simp only [parkWrite] at done
      split at done
      · cases done
      · next ok =>
        obtain ⟨encodable, fits⟩ := (geasWireEncodeValue_status value _).mp (not_not.mp ok)
        rw [geasWireEncodeValue_of_encodable encodable, if_pos ⟨_, rfl, fits⟩] at done
        split at done
        · next later wrote =>
          cases done
          obtain ⟨encodables, rfl, reached⟩ := ih wrote
          have wide := encodeWrite_length_ge value
          refine ⟨List.forall_mem_cons.mpr ⟨encodable, encodables⟩, rfl, ?_⟩
          simp only [Option.getD_some, List.length_append] at reached ⊢
          omega
        · cases done

/-- The sizing loop adds up the spellings, in a `size_t`. -/
theorem parkSize_sum {values : List GeasValue} (encodables : ∀ value ∈ values, Encodable value)
    {total size : Nat} (small : total ≤ sizeMax) (done : parkSize values total = .ok size) :
    size = (total + (encodeWriteAll values).length) % (sizeMax + 1) := by
  induction values generalizing total with
  | nil =>
      cases done
      rw [encodeWriteAll, List.length_nil, Nat.add_zero, Nat.mod_eq_of_lt (by omega)]
  | cons value rest ih =>
      have encodable := encodables value List.mem_cons_self
      have unfit : ¬∃ room, (none : Option Nat) = some room ∧ (encodeWrite value).length ≤ room := by
        rintro ⟨room, absurd, -⟩
        cases absurd
      simp only [parkSize, geasWireEncodeValue_of_encodable encodable, if_neg unfit,
        Option.getD_some] at done
      rw [if_neg (by decide)] at done
      rw [ih (fun other membership => encodables other (List.mem_cons_of_mem _ membership))
        (Nat.lt_succ_iff.mp (Nat.mod_lt _ (Nat.succ_pos _))) done, encodeWriteAll,
        List.length_append, Nat.mod_add_mod, Nat.add_assoc]

theorem parkSize_le {values : List GeasValue} {total size : Nat} (small : total ≤ sizeMax)
    (done : parkSize values total = .ok size) : size ≤ sizeMax := by
  induction values generalizing total with
  | nil =>
      cases done
      exact small
  | cons value rest ih =>
      simp only [parkSize] at done
      split at done
      · cases done
      · exact ih (Nat.lt_succ_iff.mp (Nat.mod_lt _ (Nat.succ_pos _))) done

/-- A vow blob park wrote. -/
theorem parkEncodeValues_sound {heap : Bool} {values : List GeasValue} {bytes : List UInt8}
    (done : parkEncodeValues heap values = .ok bytes) :
    (∀ value ∈ values, Encodable value) ∧ bytes = encodeWriteAll values ∧
      bytes.length ≤ sizeMax := by
  unfold parkEncodeValues at done
  split at done
  · cases done
  · next total sized =>
    split at done
    · obtain ⟨encodables, spelled, reached⟩ := parkWrite_sound done
      have small := parkSize_le (Nat.zero_le _) sized
      exact ⟨encodables, spelled, by omega⟩
    · cases done

/-- A payload as the blob carries it. -/
def carried (value : GeasValue) : Option GeasValue :=
  if parkErrPresent value then some value else none

theorem carried_getD (value : GeasValue) : (carried value).getD .zero = value := by
  unfold carried
  split
  · rfl
  · next absent =>
    cases value with
    | unit tag =>
        have zero : tag = 0 := by simpa [parkErrPresent] using absent
        rw [zero]
        rfl
    | int | uint | float | bool | byte | char | string | list | map | tuple | option | result
    | record | pledgeRef | sum | inst | unknown => exact absurd rfl absent

theorem parkWriteErrs_sound {total off : Nat} {errs : List GeasValue} {bytes : List UInt8}
    (done : parkWriteErrs total off errs = .ok bytes) :
    (∀ value ∈ errs.filter parkErrPresent, Encodable value) ∧
      bytes = spellErrs (errs.map carried) ∧
      off + bytes.length ≤ max total off + errs.length := by
  induction errs generalizing off bytes with
  | nil =>
      cases done
      exact ⟨nofun, rfl, Nat.le_max_right _ _⟩
  | cons value rest ih =>
      simp only [parkWriteErrs] at done
      by_cases present : parkErrPresent value = true
      · rw [if_pos present] at done
        split at done
        · cases done
        · next ok =>
          obtain ⟨encodable, fits⟩ := (geasWireEncodeValue_status value _).mp (not_not.mp ok)
          rw [geasWireEncodeValue_of_encodable encodable, if_pos ⟨_, rfl, fits⟩] at done
          split at done
          · next later wrote =>
            cases done
            obtain ⟨encodables, rfl, reached⟩ := ih wrote
            have wide := encodeWrite_length_ge value
            refine ⟨?_, ?_, ?_⟩
            · rw [List.filter_cons_of_pos present]
              exact List.forall_mem_cons.mpr ⟨encodable, encodables⟩
            · rw [List.map_cons, carried, if_pos present]
              rfl
            · simp only [Option.getD_some, List.length_append, List.length_cons] at reached ⊢
              omega
          · cases done
      · rw [if_neg present] at done
        split at done
        · next later wrote =>
          cases done
          obtain ⟨encodables, rfl, reached⟩ := ih wrote
          refine ⟨?_, ?_, ?_⟩
          · rw [List.filter_cons_of_neg present]
            exact encodables
          · rw [List.map_cons, carried, if_neg present]
            rfl
          · simp only [List.length_cons] at reached ⊢
            omega
        · cases done

theorem spellErrs_length (errs : List GeasValue) :
    (spellErrs (errs.map carried)).length =
      errs.length + (encodeWriteAll (errs.filter parkErrPresent)).length := by
  induction errs with
  | nil => rfl
  | cons value rest ih =>
      rw [List.map_cons, spellErrs, List.length_append, ih]
      by_cases present : parkErrPresent value = true
      · rw [carried, if_pos present, List.filter_cons_of_pos present, encodeWriteAll, spellErr]
        simp only [List.length_cons, List.length_append]
        omega
      · rw [carried, if_neg present, List.filter_cons_of_neg present, spellErr]
        simp only [List.length_cons, List.length_nil]
        omega

/-- A payload blob park wrote, for as many pledges as a `uint32_t` counts. -/
theorem parkEncodeErrs_sound {heap : Bool} {errs : List GeasValue} {bytes : List UInt8}
    (counted : errs.length < 2 ^ 32) (done : parkEncodeErrs heap errs = .ok bytes) :
    (∀ value ∈ errs.filter parkErrPresent, Encodable value) ∧
      bytes = spellErrs (errs.map carried) ∧ bytes.length ≤ sizeMax := by
  unfold parkEncodeErrs at done
  split at done
  · cases done
  · next total sized =>
    split at done
    · obtain ⟨encodables, rfl, reached⟩ := parkWriteErrs_sound done
      have size := parkSize_sum encodables (by unfold sizeMax; omega) sized
      rw [← spellErrs_length] at size
      refine ⟨encodables, rfl, ?_⟩
      unfold sizeMax at size ⊢
      omega
    · cases done

/-! ## Park does not fail with `GEAS_OK` -/

theorem parkSize_honest (values : List GeasValue) (total : Nat) :
    parkSize values total ≠ .error .ok := by
  induction values generalizing total with
  | nil => nofun
  | cons value rest ih =>
      intro failed
      simp only [parkSize] at failed
      split at failed
      · next fault => exact fault.1 (Except.error.inj failed)
      · exact ih _ failed

theorem parkWrite_honest (values : List GeasValue) (total off : Nat) :
    parkWrite total off values ≠ .error .ok := by
  induction values generalizing off with
  | nil => nofun
  | cons value rest ih =>
      intro failed
      simp only [parkWrite] at failed
      split at failed
      · next fault => exact fault (Except.error.inj failed)
      · split at failed
        · cases failed
        · next looped => exact ih _ (looped.trans failed)

theorem parkWriteErrs_honest (errs : List GeasValue) (total off : Nat) :
    parkWriteErrs total off errs ≠ .error .ok := by
  induction errs generalizing off with
  | nil => nofun
  | cons value rest ih =>
      intro failed
      simp only [parkWriteErrs] at failed
      split at failed
      · split at failed
        · next fault => exact fault (Except.error.inj failed)
        · split at failed
          · cases failed
          · next looped => exact ih _ (looped.trans failed)
      · split at failed
        · cases failed
        · next looped => exact ih _ (looped.trans failed)

theorem parkedRow_honest {env : ParkEnv} {h : HeapSys d} : parkedRow env h ≠ .error .ok := by
  intro failed
  unfold parkedRow at failed
  split at failed
  · next refused => exact refused (Except.error.inj failed)
  · split at failed
    · next status vows =>
      obtain rfl : status = .ok := Except.error.inj failed
      unfold parkVows parkEncodeValues at vows
      split at vows
      · cases vows
      · split at vows
        · cases vows
        · split at vows
          · next sized => exact parkSize_honest _ _ (by rw [sized, Except.error.inj vows])
          · split at vows
            · exact parkWrite_honest _ _ _ vows
            · cases vows
    · split at failed
      · next status errs =>
        obtain rfl : status = .ok := Except.error.inj failed
        unfold parkErrs parkEncodeErrs at errs
        split at errs
        · cases errs
        · split at errs
          · next sized => exact parkSize_honest _ _ (by rw [sized, Except.error.inj errs])
          · split at errs
            · exact parkWriteErrs_honest _ _ _ errs
            · cases errs
      · split at failed
        · next fault => exact fault (Except.error.inj failed)
        · cases failed

/-- A park that ends with `GEAS_OK` passed its gate and wrote the row under its
key. -/
theorem row_of_parked {env : ParkEnv} {h : HeapSys d} {key : String} {table : ParkTable}
    (parked : (geasInstancePark env h key table).1 = .ok) :
    ∃ row, parkedRow env h = .ok row ∧ (geasInstancePark env h key table).2 key = some row := by
  unfold geasInstancePark at parked ⊢
  split at parked
  · next row wrote => exact ⟨row, wrote, by simp⟩
  · next status failed =>
    have ok : status = .ok := parked
    exact absurd (ok ▸ failed) parkedRow_honest

/-! ## What a run without an explicit break keeps -/

/-- The parts of an instance only an explicit break changes. -/
structure SameTerms (c c' : GeasContract d) : Prop where
  store : c'.store = c.store
  vowVals : c'.vowVals = c.vowVals
  shapeHash : c'.shapeHash = c.shapeHash
  signedAt : c'.signedAt = c.signedAt

theorem step_sameTerms {s t : Sys d} {action : Action d} (fulfills : action ≠ .brk)
    (stepped : step s action = some t) : SameTerms s.c t.c := by
  rcases step_cases stepped with ⟨c, -, -⟩ | ⟨futures, thunk, begun, -, -, -, rfl⟩ |
    ⟨thunk, rest, status, out, commit, writeBack, -, -, rfl⟩ | ⟨brk, -, -⟩
  · rw [c]
    exact ⟨rfl, rfl, rfl, rfl⟩
  · obtain ⟨subTxn, equal⟩ := txnBefore_c s.c thunk.pidx begun
    rw [enter_c, equal]
    exact ⟨rfl, rfl, rfl, rfl⟩
  · obtain ⟨state, pledgeState, pledgeErr, subTxn, equal⟩ :=
      settle_c s.c thunk.pidx status commit out
    have left : (leave s thunk rest status out commit writeBack).c =
        (settle s.c thunk.pidx status out commit).c := rfl
    rw [left, equal]
    exact ⟨rfl, rfl, rfl, rfl⟩
  · exact absurd brk fulfills

/-- An instance on the terms of `c`. -/
def OnTerms (c : GeasContract d) (h : HeapSys d) : Prop := SameTerms c h.sys.c

/-- The action is not an explicit break. -/
def Fulfills (_ : HeapSys d) (action : HeapAction d) : Prop := action ≠ .act .brk

theorem heapStep_onTerms {c : GeasContract d} {h h' : HeapSys d} {action : HeapAction d}
    (holds : OnTerms c h) (fulfills : Fulfills h action)
    (stepped : heapStep h action = some h') : OnTerms c h' := by
  cases action with
  | allocate =>
      cases stepped
      exact holds
  | act action =>
      obtain ⟨sys, taken, rfl⟩ := Option.map_eq_some_iff.mp stepped
      have unbroken : action ≠ .brk := fun brk => fulfills (congrArg _ brk)
      have same := step_sameTerms unbroken taken
      have after : SameTerms c sys.c := ⟨same.store.trans holds.store,
        same.vowVals.trans holds.vowVals, same.shapeHash.trans holds.shapeHash,
        same.signedAt.trans holds.signedAt⟩
      cases action with
      | brk => exact absurd rfl unbroken
      | fulfill | dequeue | inline | finish | wait => exact after

/-! ## The round trip -/

/-- The tables have as many entries as their `uint32_t` counts can say. -/
structure Counted (d : GeasContractDesc) : Prop where
  npledges : d.npledges < 2 ^ 32
  nsubs : d.nsubs < 2 ^ 32

/-- The row of an instance that holds a value per vow. -/
theorem parkedRow_sound {env : ParkEnv} {h : HeapSys d} {row : ParkRow} (counted : Counted d)
    (bound : h.sys.c.vowVals.length = d.vows.length) (done : parkedRow env h = .ok row) :
    parkGate h = .ok ∧
      row = parkRow h.sys.c (encodeWriteAll h.sys.c.vowVals)
        (spellErrs ((List.finRange d.npledges).map fun i => carried (h.sys.c.pledgeErr i))) ∧
      row.Addressable ∧ (∀ value ∈ h.sys.c.vowVals, Encodable value) ∧
      ∀ i payload, carried (h.sys.c.pledgeErr i) = some payload → Encodable payload := by
  unfold parkedRow at done
  split at done
  · cases done
  · next passed =>
    split at done
    · cases done
    · next vows vowsDone =>
      split at done
      · cases done
      · next errs errsDone =>
        split at done
        · cases done
        · cases done
          have wroteVows : (∀ value ∈ h.sys.c.vowVals, Encodable value) ∧
              vows = encodeWriteAll h.sys.c.vowVals ∧ vows.length ≤ sizeMax := by
            unfold parkVows at vowsDone
            split at vowsDone
            · next none =>
              cases vowsDone
              rw [List.eq_nil_of_length_eq_zero (bound.trans none)]
              exact ⟨nofun, rfl, Nat.zero_le _⟩
            · split at vowsDone
              · cases vowsDone
              · exact parkEncodeValues_sound vowsDone
          have wroteErrs : (∀ value ∈ ((List.finRange d.npledges).map h.sys.c.pledgeErr).filter
                parkErrPresent, Encodable value) ∧
              errs = spellErrs (((List.finRange d.npledges).map h.sys.c.pledgeErr).map carried) ∧
              errs.length ≤ sizeMax := by
            unfold parkErrs at errsDone
            split at errsDone
            · next none =>
              cases errsDone
              have empty : List.finRange d.npledges = [] := List.finRange_eq_nil_iff.mpr none
              rw [empty]
              exact ⟨nofun, rfl, Nat.zero_le _⟩
            · refine parkEncodeErrs_sound ?_ errsDone
              rw [List.length_map, List.length_finRange]
              exact counted.npledges
          obtain ⟨encodables, rfl, vowsFit⟩ := wroteVows
          obtain ⟨payloads, rfl, errsFit⟩ := wroteErrs
          refine ⟨not_not.mp passed, ?_, ?_, encodables, ?_⟩
          · rw [List.map_map]
            rfl
          · intro blob
            have pledges := counted.npledges
            have subs := counted.nsubs
            cases blob with
            | vows => exact vowsFit
            | errs => exact errsFit
            | latches =>
                simp only [ParkRow.blob, parkRow, List.length_map, List.length_finRange, sizeMax]
                omega
            | subtxn =>
                simp only [ParkRow.blob, parkRow, List.length_map, List.length_finRange, sizeMax]
                omega
          · intro i payload carries
            unfold carried at carries
            split at carries
            · next present =>
              cases carries
              refine payloads _ (List.mem_filter.mpr ⟨?_, present⟩)
              exact List.mem_map.mpr ⟨i, List.mem_finRange i, rfl⟩
            · cases carries

/-- The values of an instance survive the codec: no map in them repeats a key, and
every vow value has the declared type. -/
structure Recoverable (c : GeasContract d) : Prop where
  vows : ∀ value ∈ c.vowVals, KeysDistinct value
  types : c.vowVals.map GeasValue.ty = d.vows.map GeasVowDesc.ty
  errs : ∀ i, KeysDistinct (c.pledgeErr i)

/-- Resume can replay the row of an instance exactly when its values are
recoverable. -/
theorem parked_replays_iff {env : ParkEnv} {h : HeapSys d} {row : ParkRow} (counted : Counted d)
    (bound : h.sys.c.vowVals.length = d.vows.length) (done : parkedRow env h = .ok row) :
    Replays d row h.sys.c ↔ Recoverable h.sys.c := by
  obtain ⟨passed, rfl, -, encodables, payloads⟩ := parkedRow_sound counted bound done
  obtain ⟨-, -, -, closed⟩ := parkGate_ok passed
  constructor
  · intro replays
    obtain ⟨types, storables, -⟩ := replays.vows
    refine ⟨fun value membership => (storables value membership).2, types, fun i => ?_⟩
    obtain ⟨found, ⟨count, readable, -⟩, equal⟩ :=
      replays.errs (Nat.lt_of_le_of_lt (Nat.zero_le _) i.isLt)
    have inside : i.val < found.length := i.isLt.trans_eq count.symm
    rw [equal i, List.getD_eq_getElem?_getD, List.getElem?_eq_getElem inside, Option.getD_some]
    cases payload : found[i.val] with
    | none => trivial
    | some value => exact (readable value (payload ▸ List.getElem_mem inside)).2
  · intro recoverable
    refine ⟨⟨recoverable.types, fun value membership =>
      ⟨encodables value membership, recoverable.vows value membership⟩, rfl⟩, fun _ => rfl, ?_,
      fun _ => rfl, closed⟩
    intro _
    refine ⟨_, ⟨by rw [List.length_map, List.length_finRange], ?_, rfl⟩, ?_⟩
    · intro payload membership
      obtain ⟨i, -, carries⟩ := List.mem_map.mp membership
      have same := carried_getD (h.sys.c.pledgeErr i)
      rw [carries, Option.getD_some] at same
      exact ⟨payloads i payload carries, same ▸ recoverable.errs i⟩
    · intro i
      simp [List.getD_eq_getElem?_getD, carried_getD]

/-- The call succeeds with an instance that agrees with `c` in everything park
records, and so shows the same partial surface. -/
def ReturnsTo (c : GeasContract d) (call : ResumeResult) : Prop :=
  call.status = .ok ∧ ∃ c' : GeasContract d, call.out = some ⟨d, c'⟩ ∧
    c'.vowVals = c.vowVals ∧ c'.pledgeState = c.pledgeState ∧ c'.pledgeErr = c.pledgeErr ∧
    c'.subTxn = c.subTxn ∧ c'.state = c.state ∧ c'.signedAt = c.signedAt ∧
    c'.shapeHash = c.shapeHash ∧ partialSurface c' = partialSurface c

theorem ofCell_code {state : GeasContractState} (signed : state ≠ .unsigned) :
    GeasContractState.ofCell state.code = some state := by
  cases state with
  | unsigned => exact absurd rfl signed
  | signed | fulfilled | partly | broken => rfl

/-- A contract with one pledge and a map for its vow. -/
def ratesDesc : GeasContractDesc where
  name := "Rates"
  shapeHash := 7
  version := 2
  pledges := [⟨"act", 0, -1⟩]
  vows := [⟨"rates", GeasTypeTag.map.code, none⟩]
  subs := []
  atoms := []
  hasReqs := false
  reqFulfill := []
  reqPartial := []
  reqBreak := []
  nschemas := 0
  subFlags := none

/-- A map of two entries under the given keys. -/
def twoRates (first second : Int64) : GeasValue :=
  .map 0 GeasTypeTag.int.code (some [.int 0 first, .int 0 10, .int 0 second, .int 0 20])

/-- The pledge is called and its body returns `Err`. -/
def ratesRun : List (HeapAction ratesDesc) :=
  [.act (.inline ⟨"act", 0, 0, false, false, .ok⟩ .ok),
    .act (.finish .ok (.result 1 (some (.int 0 7))) .ok .ok)]

theorem ratesDesc_counted : Counted ratesDesc := ⟨by decide, by decide⟩

end Geas.Runtime
