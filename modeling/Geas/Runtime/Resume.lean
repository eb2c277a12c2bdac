import Geas.Runtime.Park

/-!
# Resume on any row

What resume makes of a row it did not write.  The format is stated on its own
first: vow values spelled back to back, a payload or its absence per pledge, one
byte per latch and per fate.  Every loop of resume then has three lemmas: what it
returned is spelled by the bytes it passed over, bytes that spell something are
read back, and no access leaves a blob.

The loops run only over tables that have entries.  A descriptor without vows has
its vow blob checked for surplus bytes; a descriptor without pledges or without
subcontracts does not have the other three checked.
-/

namespace Geas.Runtime

open Geas.Abi
open Geas.Lib
open Geas.Lib.Logged (Logs Stops bind_result ok_bind ok_require)
open Geas.Lib.Reader (Access Allocator)
open Geas.Wire

/-! ## The format of a row -/

/-- A value the codec writes and reads back. -/
def Storable (value : GeasValue) : Prop := Encodable value ∧ KeysDistinct value

/-- The bytes of one payload or its absence. -/
def spellErr : Option GeasValue → List UInt8
  | none => [0]
  | some payload => 1 :: encodeWrite payload

/-- The payload blob of a list of payloads. -/
def spellErrs : List (Option GeasValue) → List UInt8
  | [] => []
  | payload :: rest => spellErr payload ++ spellErrs rest

/-- The vow blob spells one storable value of the declared type per vow. -/
def SpellsVows (d : GeasContractDesc) (blob : List UInt8) (values : List GeasValue) : Prop :=
  values.map GeasValue.ty = d.vows.map GeasVowDesc.ty ∧ (∀ value ∈ values, Storable value) ∧
    blob = encodeWriteAll values

/-- The payload blob spells a storable payload or none per pledge. -/
def SpellsErrs (d : GeasContractDesc) (blob : List UInt8) (payloads : List (Option GeasValue)) :
    Prop :=
  payloads.length = d.npledges ∧ (∀ payload, some payload ∈ payloads → Storable payload) ∧
    blob = spellErrs payloads

/-- A row whose blobs have a length a `size_t` holds. -/
def ParkRow.Addressable (row : ParkRow) : Prop := ∀ blob, (row.blob blob).length ≤ sizeMax

/-- An access inside the blob it is made to. -/
def InsideBlob (row : ParkRow) (entry : Blob × Access) : Prop :=
  Access.Inside (row.blob entry.1) entry.2

variable {row : ParkRow} {allocator : Allocator} {allocators : Nat → Allocator}

/-! ## One value of a blob -/

theorem decodeAt_sound {blob : Blob} {off used : Nat} {value : GeasValue}
    (addressable : row.Addressable)
    (done : (decodeAt allocator row blob off).result = .ok (value, used)) :
    Storable value ∧ used = (encodeWrite value).length ∧
      (row.blob blob).drop off = encodeWrite value ++ (row.blob blob).drop (off + used) := by
  have fits : ((row.blob blob).drop off).length ≤ sizeMax :=
    Nat.le_trans (by rw [List.length_drop]; omega) (addressable blob)
  simp only [decodeAt] at done
  split at done
  · next ok =>
    obtain ⟨encodable, distinct, length, spelled⟩ := geasWireDecodeValue_sound fits ok
    cases done
    refine ⟨⟨encodable, distinct⟩, length, ?_⟩
    rw [length, ← List.drop_drop]
    exact (List.prefix_iff_eq_append.mp spelled).symm
  · cases done

theorem decodeAt_complete (grants : ∀ trace access, allocator trace access = true) {blob : Blob}
    {off : Nat} {value : GeasValue} {rest : List UInt8} (storable : Storable value)
    (spelled : (row.blob blob).drop off = encodeWrite value ++ rest) :
    (decodeAt allocator row blob off).result = .ok (value, (encodeWrite value).length) := by
  obtain ⟨ok, out, consumed⟩ := geasWireDecodeValue_complete grants storable.1 storable.2 rest
  simp only [decodeAt, spelled, ok, out, consumed, if_true]

theorem decodeAt_inside {blob : Blob} {off : Nat} (reached : off ≤ (row.blob blob).length) :
    Logs (InsideBlob row) (decodeAt allocator row blob off) := by
  intro entry membership
  obtain ⟨access, made, rfl⟩ := List.mem_map.mp membership
  have inside := geasWireDecodeValue_trace allocator ((row.blob blob).drop off) access made
  cases access with
  | read offset length =>
      simp only [Access.Inside, List.length_drop] at inside
      change off + offset + length ≤ (row.blob blob).length
      omega
  | array claimed left => exact inside
  | block length left =>
      simp only [Access.Inside, List.length_drop] at inside
      change length ≤ (row.blob blob).length
      omega
  | cell => trivial

/-! ## The vow loop -/

theorem decodeVows_sound (addressable : row.Addressable) {vows : List GeasVowDesc}
    {i off last : Nat} {values : List GeasValue}
    (done : (decodeVows allocators row vows i off).result = .ok (values, last)) :
    values.map GeasValue.ty = vows.map GeasVowDesc.ty ∧ (∀ value ∈ values, Storable value) ∧
      last = off + (encodeWriteAll values).length ∧
      row.vows.drop off = encodeWriteAll values ++ row.vows.drop last := by
  induction vows generalizing i off values with
  | nil =>
      cases done
      exact ⟨rfl, nofun, rfl, rfl⟩
  | cons vow rest ih =>
      obtain ⟨⟨value, used⟩, decoded, done⟩ := ok_bind.mp done
      obtain ⟨_, typed, done⟩ := ok_bind.mp done
      obtain ⟨⟨later, reached⟩, looped, done⟩ := ok_bind.mp done
      cases done
      obtain ⟨storable, rfl, spelled⟩ := decodeAt_sound addressable decoded
      obtain ⟨types, storables, rfl, spelledLater⟩ := ih looped
      have typed : value.ty = vow.ty := by simpa using ok_require.mp typed
      refine ⟨?_, ?_, ?_, ?_⟩
      · rw [List.map_cons, List.map_cons, typed, types]
      · exact List.forall_mem_cons.mpr ⟨storable, storables⟩
      · rw [encodeWriteAll, List.length_append, Nat.add_assoc]
      · rw [encodeWriteAll, List.append_assoc, ← spelledLater]
        exact spelled

theorem decodeVows_complete (grants : ∀ i trace access, allocators i trace access = true)
    {vows : List GeasVowDesc} {i off : Nat} {values : List GeasValue} {rest : List UInt8}
    (types : values.map GeasValue.ty = vows.map GeasVowDesc.ty)
    (storables : ∀ value ∈ values, Storable value)
    (spelled : row.vows.drop off = encodeWriteAll values ++ rest) :
    (decodeVows allocators row vows i off).result =
      .ok (values, off + (encodeWriteAll values).length) := by
  induction vows generalizing i off values with
  | nil =>
      rw [List.map_nil, List.map_eq_nil_iff] at types
      rw [types]
      rfl
  | cons vow later ih =>
      obtain ⟨value, values, rfl, typed, types⟩ := List.map_eq_cons_iff.mp types
      rw [encodeWriteAll, List.append_assoc] at spelled
      have decoded : (decodeAt (allocators i) row .vows off).result = _ :=
        decodeAt_complete (grants i) (storables value List.mem_cons_self) spelled
      have next : row.vows.drop (off + (encodeWrite value).length) = encodeWriteAll values ++ rest := by
        rw [← List.drop_drop, spelled, List.drop_left]
      have looped : (decodeVows allocators row later (i + 1) _).result = _ :=
        ih types (fun other membership => storables other (List.mem_cons_of_mem _ membership)) next
      rw [decodeVows, bind_result _ decoded,
        bind_result _ (ok_require.mpr (decide_eq_true typed) : _ = Except.ok ()),
        bind_result _ looped, encodeWriteAll, List.length_append, Nat.add_assoc]
      rfl

theorem decodeVows_inside (addressable : row.Addressable) {vows : List GeasVowDesc} {i off : Nat}
    (reached : off ≤ row.vows.length) :
    Logs (InsideBlob row) (decodeVows allocators row vows i off) := by
  induction vows generalizing i off with
  | nil => exact Logs.pure _
  | cons vow rest ih =>
      have inside : Logs (InsideBlob row) (decodeAt (allocators i) row .vows off) :=
        decodeAt_inside reached
      refine inside.bind ?_
      rintro ⟨value, used⟩ decoded
      refine (Logs.require _ _).bind fun _ _ => ?_
      refine (ih ?_).bind fun _ _ => Logs.pure _
      obtain ⟨-, rfl, spelled⟩ := decodeAt_sound addressable decoded
      have lengths := congrArg List.length spelled
      simp only [List.length_append, List.length_drop] at lengths
      change row.vows.length - off = _ + (row.vows.length - _) at lengths
      have := encodeWrite_length_ge value
      omega

/-! ## The byte loops -/

/-- The byte a blob continues with. -/
theorem byteAt_result {blob : Blob} {i : Nat} {byte : UInt8} {rest : List UInt8}
    (continues : (row.blob blob).drop i = byte :: rest) :
    (byteAt row blob i).result = .ok byte := by
  have present : (row.blob blob)[i]? = some byte := by
    rw [← List.head?_drop, continues, List.head?_cons]
  have equal : (row.blob blob).getD i 0 = byte := by
    rw [List.getD_eq_getElem?_getD, present, Option.getD_some]
  rw [← equal]
  rfl

theorem byteAt_inside {blob : Blob} {i : Nat} (inside : i < (row.blob blob).length) :
    Logs (InsideBlob row) (byteAt row blob i) := by
  have read : InsideBlob row (blob, .read i 1) := inside
  exact (Logs.note read).bind fun _ _ => Logs.pure _

section Replay

variable {α : Type} {ofByte : UInt8 → Option α} {code : α → UInt8} {blob : Blob} {n i : Nat}

theorem replayBytes_sound (reads : ∀ byte value, ofByte byte = some value → byte = code value)
    (inside : i + n ≤ (row.blob blob).length) {values : List α}
    (done : (replayBytes row blob ofByte n i).result = .ok values) :
    values.length = n ∧ (∀ value ∈ values, ofByte (code value) = some value) ∧
      (row.blob blob).drop i = values.map code ++ (row.blob blob).drop (i + n) := by
  induction n generalizing i values with
  | zero =>
      cases done
      exact ⟨rfl, nofun, rfl⟩
  | succ n ih =>
      have continues := List.drop_eq_getElem_cons (show i < (row.blob blob).length by omega)
      obtain ⟨byte, read, done⟩ := ok_bind.mp done
      obtain ⟨value, known, done⟩ := ok_bind.mp done
      obtain ⟨later, looped, done⟩ := ok_bind.mp done
      cases done
      rw [byteAt_result continues] at read
      cases read
      obtain ⟨length, knownLater, spelled⟩ := ih (by omega) looped
      have found : ofByte (row.blob blob)[i] = some value := by
        cases value' : ofByte (row.blob blob)[i] with
        | none =>
            rw [value'] at known
            cases known
        | some other =>
            rw [value'] at known
            cases known
            rfl
      have equal := reads _ _ found
      refine ⟨by rw [List.length_cons, length], ?_, ?_⟩
      · exact List.forall_mem_cons.mpr ⟨equal ▸ found, knownLater⟩
      · rw [continues, spelled, List.map_cons, List.cons_append, equal]
        congr 3
        omega

theorem replayBytes_complete {values : List α} {rest : List UInt8}
    (known : ∀ value ∈ values, ofByte (code value) = some value)
    (spelled : (row.blob blob).drop i = values.map code ++ rest) :
    (replayBytes row blob ofByte values.length i).result = .ok values := by
  induction values generalizing i with
  | nil => rfl
  | cons value later ih =>
      rw [List.map_cons, List.cons_append] at spelled
      have found : (Logged.lift ((ofByte (code value)).elim (.error .errType) .ok) :
          Scan α).result = .ok value := by
        rw [known value List.mem_cons_self]
        rfl
      have next : (row.blob blob).drop (i + 1) = later.map code ++ rest := by
        rw [← List.drop_drop, spelled, List.drop_one, List.tail_cons]
      have looped := ih (fun other membership => known other (List.mem_cons_of_mem _ membership)) next
      rw [List.length_cons, replayBytes, bind_result _ (byteAt_result spelled),
        bind_result _ found, bind_result _ looped]
      rfl

theorem replayBytes_inside (inside : i + n ≤ (row.blob blob).length) :
    Logs (InsideBlob row) (replayBytes row blob ofByte n i) := by
  induction n generalizing i with
  | zero => exact Logs.pure _
  | succ n ih =>
      refine (byteAt_inside (by omega)).bind fun _ _ => ?_
      refine (Logs.lift _).bind fun _ _ => ?_
      exact (ih (by omega)).bind fun _ _ => Logs.pure _

end Replay

theorem ofByte_latch {byte : UInt8} {latch : PledgeLatch}
    (known : PledgeLatch.ofByte byte = some latch) : byte = latch.code := by
  unfold PledgeLatch.ofByte at known
  split at known
  · next equal => cases known; exact equal
  · split at known
    · next equal => cases known; exact equal
    · split at known
      · next equal => cases known; exact equal
      · cases known

theorem txnFate_code_injective : Function.Injective TxnFate.code := by
  intro left right equal
  cases left <;> cases right <;> first | rfl | cases equal

theorem ofByte_fate {byte : UInt8} {fate : TxnFate} (known : TxnFate.ofByte byte = some fate) :
    byte = fate.code := by
  unfold TxnFate.ofByte at known
  split at known
  · next equal => cases known; exact equal
  · split at known
    · next equal => cases known; exact equal
    · cases known

@[simp] theorem latch_ofByte_code (latch : PledgeLatch) :
    PledgeLatch.ofByte latch.code = some latch := by
  cases latch <;> rfl

/-- Every fate but an open episode is read back. -/
theorem fate_ofByte_code {fate : TxnFate} :
    TxnFate.ofByte fate.code = some fate ↔ fate ≠ .txnOpen := by
  cases fate <;> decide

/-! ## The payload loop -/

/-- A present payload and its spelling, or none. -/
theorem decodeErr_sound (addressable : row.Addressable) {off used : Nat} {present : UInt8}
    {value : GeasValue} (flag : present ≤ 1)
    (done : (decodeErr allocator row present off).result = .ok (value, used)) :
    ∃ payload : Option GeasValue, value = payload.getD .zero ∧
      (∀ found, payload = some found → Storable found) ∧
      1 + used = (spellErr payload).length ∧
      present :: row.errs.drop off = spellErr payload ++ row.errs.drop (off + used) := by
  unfold decodeErr at done
  by_cases one : present = 1
  · rw [if_pos one] at done
    obtain ⟨storable, rfl, spelled⟩ := decodeAt_sound addressable done
    refine ⟨some value, rfl, ?_, ?_, ?_⟩
    · rintro _ ⟨⟩
      exact storable
    · rw [spellErr, List.length_cons, Nat.add_comm]
    · rw [one, spellErr, List.cons_append]
      exact congrArg _ spelled
  · rw [if_neg one] at done
    cases done
    have zero : present = 0 := by
      have small : present.toNat ≤ 1 := UInt8.le_iff_toNat_le.mp flag
      have nonone : present.toNat ≠ 1 := fun equal => one (UInt8.toNat_inj.mp equal)
      exact UInt8.toNat_inj.mp (show present.toNat = 0 by omega)
    refine ⟨none, rfl, nofun, rfl, ?_⟩
    rw [zero]
    rfl

theorem decodeErr_complete (grants : ∀ trace access, allocator trace access = true) {off : Nat}
    {payload : Option GeasValue} {rest : List UInt8}
    (storable : ∀ found, payload = some found → Storable found)
    (spelled : row.errs.drop off = spellErr payload ++ rest) :
    ∃ present used tail, present ≤ 1 ∧
      (decodeErr allocator row present (off + 1)).result = .ok (payload.getD .zero, used) ∧
      1 + used = (spellErr payload).length ∧ row.errs.drop off = present :: tail := by
  cases payload with
  | none => exact ⟨0, 0, rest, by decide, rfl, rfl, spelled⟩
  | some value =>
      have next : (row.blob .errs).drop (off + 1) = encodeWrite value ++ rest := by
        rw [← List.drop_drop]
        exact congrArg (List.drop 1) spelled
      refine ⟨1, (encodeWrite value).length, encodeWrite value ++ rest, by decide, ?_, ?_, spelled⟩
      · exact decodeAt_complete grants (storable value rfl) next
      · rw [spellErr, List.length_cons, Nat.add_comm]

theorem decodeErrs_sound (addressable : row.Addressable) {n i off last : Nat}
    {values : List GeasValue}
    (done : (decodeErrs allocators row n i off).result = .ok (values, last)) :
    ∃ payloads : List (Option GeasValue), payloads.length = n ∧
      values = payloads.map (·.getD .zero) ∧
      (∀ payload, some payload ∈ payloads → Storable payload) ∧
      last = off + (spellErrs payloads).length ∧
      row.errs.drop off = spellErrs payloads ++ row.errs.drop last := by
  induction n generalizing i off last values with
  | zero =>
      cases done
      exact ⟨[], rfl, rfl, nofun, rfl, rfl⟩
  | succ n ih =>
      obtain ⟨_, inside, done⟩ := ok_bind.mp done
      obtain ⟨present, read, done⟩ := ok_bind.mp done
      obtain ⟨_, flag, done⟩ := ok_bind.mp done
      obtain ⟨⟨value, used⟩, decoded, done⟩ := ok_bind.mp done
      obtain ⟨⟨later, reached⟩, looped, done⟩ := ok_bind.mp done
      cases done
      have inside : off < row.errs.length := by simpa using ok_require.mp inside
      have continues : row.errs.drop off = present :: row.errs.drop (off + 1) := by
        have start : (row.blob .errs).drop off = _ := List.drop_eq_getElem_cons inside
        rw [byteAt_result start] at read
        cases read
        exact start
      obtain ⟨payload, rfl, storable, width, spelled⟩ := decodeErr_sound addressable
        (by simpa using ok_require.mp flag) decoded
      obtain ⟨payloads, length, rfl, storables, rfl, spelledLater⟩ := ih looped
      refine ⟨payload :: payloads, by rw [List.length_cons, length], rfl, ?_, ?_, ?_⟩
      · intro found membership
        rcases List.mem_cons.mp membership with here | there
        · exact storable found here.symm
        · exact storables found there
      · rw [spellErrs, List.length_append]
        omega
      · rw [continues, spelled, spelledLater, spellErrs, List.append_assoc]

theorem decodeErrs_complete (grants : ∀ i trace access, allocators i trace access = true)
    {i off : Nat} {payloads : List (Option GeasValue)} {rest : List UInt8}
    (storables : ∀ payload, some payload ∈ payloads → Storable payload)
    (spelled : row.errs.drop off = spellErrs payloads ++ rest) :
    (decodeErrs allocators row payloads.length i off).result =
      .ok (payloads.map (·.getD .zero), off + (spellErrs payloads).length) := by
  induction payloads generalizing i off with
  | nil => rfl
  | cons payload later ih =>
      have storablesLater : ∀ found, some found ∈ later → Storable found :=
        fun found membership => storables found (List.mem_cons_of_mem _ membership)
      rw [spellErrs, List.append_assoc] at spelled
      obtain ⟨present, used, tail, flag, decoded, width, continues⟩ :=
        decodeErr_complete (grants i) (fun found here => storables found (here ▸ List.mem_cons_self))
          spelled
      have inside : off < row.errs.length := by
        have lengths := congrArg List.length continues
        simp only [List.length_drop, List.length_cons] at lengths
        omega
      have next : row.errs.drop (off + 1 + used) = spellErrs later ++ rest := by
        rw [Nat.add_assoc, width, ← List.drop_drop, spelled, List.drop_left]
      have looped : (decodeErrs allocators row later.length (i + 1) (off + 1 + used)).result = _ :=
        ih storablesLater next
      have read : (byteAt row .errs off).result = .ok present := byteAt_result continues
      rw [List.length_cons, decodeErrs,
        bind_result _ (ok_require.mpr (decide_eq_true inside) : _ = Except.ok ()),
        bind_result _ read,
        bind_result _ (ok_require.mpr (decide_eq_true flag) : _ = Except.ok ()),
        bind_result _ decoded, bind_result _ looped, spellErrs, List.length_append, ← width,
        ← Nat.add_assoc, ← Nat.add_assoc]
      rfl

theorem decodeErrs_inside {n i off : Nat} :
    Logs (InsideBlob row) (decodeErrs allocators row n i off) := by
  induction n generalizing i off with
  | zero => exact Logs.pure _
  | succ n ih =>
      refine (Logs.require _ _).bind fun _ inside => ?_
      have inside : off < row.errs.length := by simpa using ok_require.mp inside
      refine (byteAt_inside inside).bind fun present _ => ?_
      refine (Logs.require _ _).bind fun _ _ => ?_
      have payload : Logs (InsideBlob row) (decodeErr (allocators i) row present (off + 1)) := by
        unfold decodeErr
        split
        · exact decodeAt_inside inside
        · exact Logs.pure _
      exact payload.bind fun _ _ => ih.bind fun _ _ => Logs.pure _

/-! ## The instance behind a row -/

variable {d : GeasContractDesc}

/-- The row's blobs spell the instance, where resume looks at them. -/
structure Replays (d : GeasContractDesc) (row : ParkRow) (c : GeasContract d) : Prop where
  vows : SpellsVows d row.vows c.vowVals
  latches : 0 < d.npledges →
    row.latches = (List.finRange d.npledges).map fun i => (c.pledgeState i).code
  errs : 0 < d.npledges → ∃ payloads, SpellsErrs d row.errs payloads ∧
    ∀ i : Fin d.npledges, c.pledgeErr i = (payloads.getD i none).getD .zero
  fates : 0 < d.nsubs → row.subtxn = (List.finRange d.nsubs).map fun s => (c.subTxn s).code
  closed : ∀ s, c.subTxn s ≠ .txnOpen

/-- Everything a resume call needs of its surroundings is there. -/
structure ResumeEnv.Ready (env : ResumeEnv) : Prop where
  query : env.query = .ok
  nameHeap : env.nameHeap = true
  dispatch : env.dispatch = .ok
  instanceHeap : env.instanceHeap = true
  vowsHeap : env.vowsHeap = true
  latchesHeap : env.latchesHeap = true
  subsHeap : env.subsHeap = true
  vowAllocator : ∀ i trace access, env.vowAllocator i trace access = true
  errAllocator : ∀ i trace access, env.errAllocator i trace access = true
  reconcile : env.reconcile = .ok

variable {env : ResumeEnv}

theorem resumeVows_sound (addressable : row.Addressable) {values : List GeasValue}
    (done : (resumeVows env d row).result = .ok values) : SpellsVows d row.vows values := by
  unfold resumeVows at done
  split at done
  · obtain ⟨_, -, done⟩ := ok_bind.mp done
    obtain ⟨⟨found, last⟩, looped, done⟩ := ok_bind.mp done
    obtain ⟨_, sized, done⟩ := ok_bind.mp done
    cases done
    obtain ⟨types, storables, -, spelled⟩ := decodeVows_sound addressable looped
    have whole : last = row.vows.length := by simpa using ok_require.mp sized
    refine ⟨types, storables, ?_⟩
    rw [whole, List.drop_zero, List.drop_length, List.append_nil] at spelled
    exact spelled
  · next none =>
    obtain ⟨_, sized, done⟩ := ok_bind.mp done
    cases done
    have empty : row.vows = [] := by simpa using ok_require.mp sized
    have nothing : d.vows = [] := List.eq_nil_of_length_eq_zero (Nat.eq_zero_of_not_pos none)
    exact ⟨by rw [nothing]; rfl, nofun, empty⟩

theorem resumeVows_complete (ready : env.Ready) {values : List GeasValue}
    (spelled : SpellsVows d row.vows values) : (resumeVows env d row).result = .ok values := by
  obtain ⟨types, storables, bytes⟩ := spelled
  unfold resumeVows
  split
  · have looped : (decodeVows env.vowAllocator row d.vows 0 0).result = _ :=
      decodeVows_complete ready.vowAllocator types storables
        (show row.vows.drop 0 = encodeWriteAll values ++ [] by rw [bytes, List.append_nil]; rfl)
    have whole : decide (0 + (encodeWriteAll values).length = row.vows.length) = true := by
      rw [Nat.zero_add, bytes]
      exact decide_eq_true rfl
    rw [bind_result _ (ok_require.mpr ready.vowsHeap : _ = Except.ok ()), bind_result _ looped,
      bind_result _ (ok_require.mpr whole : _ = Except.ok ())]
    rfl
  · next none =>
    have nothing : d.vows = [] := List.eq_nil_of_length_eq_zero (Nat.eq_zero_of_not_pos none)
    rw [nothing, List.map_nil, List.map_eq_nil_iff] at types
    have empty : decide (row.vows.length = 0) = true := by
      rw [bytes, types]
      rfl
    rw [bind_result _ (ok_require.mpr empty : _ = Except.ok ()), types]
    rfl

/-- A list read by position gives the list back. -/
theorem map_finRange_getD {α β : Type} {n : Nat} {values : List α} (f : α → β) (fallback : α)
    (length : values.length = n) :
    (List.finRange n).map (fun i : Fin n => f (values.getD i fallback)) = values.map f := by
  subst length
  refine List.ext_getElem (by simp) fun i inside _ => ?_
  simp [List.getD_eq_getElem?_getD]

theorem resumeLatches_sound (addressable : row.Addressable) (entries : 0 < d.npledges)
    {latches : List PledgeLatch} {errs : List GeasValue}
    (done : (resumeLatches env d row).result = .ok (latches, errs)) :
    latches.length = d.npledges ∧ row.latches = latches.map PledgeLatch.code ∧
      ∃ payloads, SpellsErrs d row.errs payloads ∧ errs = payloads.map (·.getD .zero) := by
  unfold resumeLatches at done
  rw [if_pos entries] at done
  obtain ⟨_, -, done⟩ := ok_bind.mp done
  obtain ⟨_, sized, done⟩ := ok_bind.mp done
  obtain ⟨found, replayed, done⟩ := ok_bind.mp done
  obtain ⟨⟨values, last⟩, looped, done⟩ := ok_bind.mp done
  obtain ⟨_, whole, done⟩ := ok_bind.mp done
  cases done
  have sized : row.latches.length = d.npledges := by simpa using ok_require.mp sized
  change (row.blob .latches).length = d.npledges at sized
  have whole : last = row.errs.length := by simpa using ok_require.mp whole
  obtain ⟨length, -, spelled⟩ := replayBytes_sound (fun _ _ => ofByte_latch)
    (by rw [Nat.zero_add, sized]) replayed
  obtain ⟨payloads, count, rfl, storables, -, bytes⟩ := decodeErrs_sound addressable looped
  refine ⟨length, ?_, payloads, ⟨count, storables, ?_⟩, rfl⟩
  · rw [Nat.zero_add, ← sized, List.drop_length, List.append_nil] at spelled
    exact spelled
  · rw [whole, List.drop_zero, List.drop_length, List.append_nil] at bytes
    exact bytes

theorem resumeLatches_complete (ready : env.Ready) (entries : 0 < d.npledges)
    {latches : List PledgeLatch} {payloads : List (Option GeasValue)}
    (length : latches.length = d.npledges) (bytes : row.latches = latches.map PledgeLatch.code)
    (spelled : SpellsErrs d row.errs payloads) :
    (resumeLatches env d row).result = .ok (latches, payloads.map (·.getD .zero)) := by
  obtain ⟨count, storables, errs⟩ := spelled
  have sized : decide (row.latches.length = d.npledges) = true := by
    rw [bytes, List.length_map, length]
    exact decide_eq_true rfl
  have replayed : (replayLatches row d.npledges).result = .ok latches := by
    rw [← length]
    exact replayBytes_complete (fun _ _ => latch_ofByte_code _)
      (show (row.blob .latches).drop 0 = latches.map PledgeLatch.code ++ [] by
        rw [List.append_nil]; exact bytes)
  have looped : (decodeErrs env.errAllocator row d.npledges 0 0).result =
      .ok (payloads.map (·.getD .zero), 0 + (spellErrs payloads).length) := by
    rw [← count]
    exact decodeErrs_complete ready.errAllocator storables
      (show row.errs.drop 0 = spellErrs payloads ++ [] by rw [List.append_nil]; exact errs)
  have whole : decide (0 + (spellErrs payloads).length = row.errs.length) = true := by
    rw [Nat.zero_add, errs]
    exact decide_eq_true rfl
  unfold resumeLatches
  rw [if_pos entries, bind_result _ (ok_require.mpr ready.latchesHeap : _ = Except.ok ()),
    bind_result _ (ok_require.mpr sized : _ = Except.ok ()), bind_result _ replayed,
    bind_result _ looped, bind_result _ (ok_require.mpr whole : _ = Except.ok ())]
  rfl

theorem resumeSubTxn_sound (entries : 0 < d.nsubs) {fates : List TxnFate}
    (done : (resumeSubTxn env d row).result = .ok fates) :
    fates.length = d.nsubs ∧ row.subtxn = fates.map TxnFate.code ∧
      ∀ fate ∈ fates, fate ≠ .txnOpen := by
  unfold resumeSubTxn at done
  rw [if_pos entries] at done
  obtain ⟨_, -, done⟩ := ok_bind.mp done
  obtain ⟨_, sized, done⟩ := ok_bind.mp done
  have sized : row.subtxn.length = d.nsubs := by simpa using ok_require.mp sized
  change (row.blob .subtxn).length = d.nsubs at sized
  obtain ⟨length, known, spelled⟩ := replayBytes_sound (fun _ _ => ofByte_fate)
    (by rw [Nat.zero_add, sized]) done
  refine ⟨length, ?_, fun fate membership => fate_ofByte_code.mp (known fate membership)⟩
  rw [Nat.zero_add, ← sized, List.drop_length, List.append_nil] at spelled
  exact spelled

theorem resumeSubTxn_complete (ready : env.Ready) (entries : 0 < d.nsubs) {fates : List TxnFate}
    (length : fates.length = d.nsubs) (bytes : row.subtxn = fates.map TxnFate.code)
    (closed : ∀ fate ∈ fates, fate ≠ .txnOpen) :
    (resumeSubTxn env d row).result = .ok fates := by
  have sized : decide (row.subtxn.length = d.nsubs) = true := by
    rw [bytes, List.length_map, length]
    exact decide_eq_true rfl
  unfold resumeSubTxn
  rw [if_pos entries, bind_result _ (ok_require.mpr ready.subsHeap : _ = Except.ok ()),
    bind_result _ (ok_require.mpr sized : _ = Except.ok ()), ← length]
  exact replayBytes_complete (fun fate membership => fate_ofByte_code.mpr (closed fate membership))
    (show (row.blob .subtxn).drop 0 = fates.map TxnFate.code ++ [] by
      rw [List.append_nil]; exact bytes)

/-- The fields resume does not take from a blob. -/
structure Dated (row : ParkRow) (state : GeasContractState) (c : GeasContract d) : Prop where
  state : c.state = state
  store : c.store = decide (d.nschemas > 0)
  shapeHash : c.shapeHash = d.shapeHash
  signedAt : c.signedAt = row.signedAt

theorem storeSignReconcile_sound {answer : GeasStatus} {store : Bool}
    (done : (storeSignReconcile d answer).result = .ok store) :
    store = decide (d.nschemas > 0) := by
  unfold storeSignReconcile at done
  split at done
  · next none =>
    cases done
    simp [none]
  · next some =>
    obtain ⟨_, -, done⟩ := ok_bind.mp done
    cases done
    exact (decide_eq_true (Nat.pos_of_ne_zero some)).symm

theorem storeSignReconcile_complete :
    (storeSignReconcile d .ok).result = .ok (decide (d.nschemas > 0)) := by
  unfold storeSignReconcile
  split
  · next none => simp [none]
  · next some =>
    rw [decide_eq_true (Nat.pos_of_ne_zero some)]
    rfl

/-- The fates and the connection of what resume builds. -/
theorem resumeInstance_fates {state : GeasContractState} {c : GeasContract d}
    (done : (resumeInstance env d row state).result = .ok c) :
    (0 < d.nsubs → row.subtxn = (List.finRange d.nsubs).map fun s => (c.subTxn s).code) ∧
      (∀ sub, c.subTxn sub ≠ .txnOpen) ∧ c.store = decide (d.nschemas > 0) := by
  obtain ⟨_, -, done⟩ := ok_bind.mp done
  obtain ⟨_, -, done⟩ := ok_bind.mp done
  obtain ⟨vowVals, -, done⟩ := ok_bind.mp done
  obtain ⟨⟨latches, errs⟩, -, done⟩ := ok_bind.mp done
  obtain ⟨fates, closed, done⟩ := ok_bind.mp done
  obtain ⟨store, reconciled, done⟩ := ok_bind.mp done
  cases done
  refine ⟨?_, ?_, storeSignReconcile_sound reconciled⟩
  · intro entries
    obtain ⟨length, bytes, -⟩ := resumeSubTxn_sound entries closed
    rw [bytes]
    exact (map_finRange_getD _ _ length).symm
  · intro sub
    obtain ⟨length, -, done⟩ := resumeSubTxn_sound (Nat.lt_of_le_of_lt (Nat.zero_le _) sub.isLt) closed
    have inside : sub.val < fates.length := sub.isLt.trans_eq length.symm
    have read : fates.getD sub .txnNone = fates[sub.val] := by
      simp [List.getD_eq_getElem?_getD, List.getElem?_eq_getElem inside]
    change fates.getD sub .txnNone ≠ .txnOpen
    rw [read]
    exact done _ (List.getElem_mem inside)

/-- What resume builds is spelled by the row. -/
theorem resumeInstance_sound (addressable : row.Addressable) {state : GeasContractState}
    {c : GeasContract d} (done : (resumeInstance env d row state).result = .ok c) :
    Replays d row c ∧ Dated row state c := by
  obtain ⟨bytes, closed, store⟩ := resumeInstance_fates done
  obtain ⟨_, -, done⟩ := ok_bind.mp done
  obtain ⟨_, -, done⟩ := ok_bind.mp done
  obtain ⟨vowVals, vows, done⟩ := ok_bind.mp done
  obtain ⟨⟨latches, errs⟩, replayed, done⟩ := ok_bind.mp done
  obtain ⟨fates, -, done⟩ := ok_bind.mp done
  obtain ⟨_, -, done⟩ := ok_bind.mp done
  cases done
  refine ⟨⟨resumeVows_sound addressable vows, ?_, ?_, bytes, closed⟩, rfl, store, rfl, rfl⟩
  · intro entries
    obtain ⟨length, bytes, -⟩ := resumeLatches_sound addressable entries replayed
    rw [bytes]
    exact (map_finRange_getD _ _ length).symm
  · intro entries
    obtain ⟨-, -, payloads, spelled, rfl⟩ := resumeLatches_sound addressable entries replayed
    refine ⟨payloads, spelled, fun i => ?_⟩
    have inside : i.val < payloads.length := i.isLt.trans_eq spelled.1.symm
    simp [List.getD_eq_getElem?_getD, List.getElem?_eq_getElem inside]

/-- A spelled instance is what resume builds. -/
theorem resumeInstance_complete (ready : env.Ready) {c : GeasContract d}
    (replays : Replays d row c) (dated : Dated row c.state c) :
    (resumeInstance env d row c.state).result = .ok c := by
  have dispatched : (Logged.lift (if env.dispatch = .ok then .ok () else .error env.dispatch) :
      Scan Unit).result = .ok () := by
    rw [ready.dispatch]
    rfl
  obtain ⟨latches, errs, replayed, pledgeState, pledgeErr⟩ : ∃ latches errs,
      (resumeLatches env d row).result = .ok (latches, errs) ∧
      (∀ i : Fin d.npledges, latches.getD i .pending = c.pledgeState i) ∧
      ∀ i : Fin d.npledges, errs.getD i .zero = c.pledgeErr i := by
    by_cases entries : 0 < d.npledges
    · obtain ⟨payloads, spelled, payload⟩ := replays.errs entries
      refine ⟨(List.finRange d.npledges).map c.pledgeState, payloads.map (·.getD .zero),
        resumeLatches_complete ready entries (by simp) ?_ spelled, ?_, ?_⟩
      · rw [replays.latches entries, List.map_map]
        rfl
      · intro i
        simp [List.getD_eq_getElem?_getD]
      · intro i
        have inside : i.val < payloads.length := i.isLt.trans_eq spelled.1.symm
        rw [payload i]
        simp [List.getD_eq_getElem?_getD, List.getElem?_eq_getElem inside]
    · refine ⟨[], [], ?_, fun i => absurd (Nat.lt_of_le_of_lt (Nat.zero_le _) i.isLt) entries,
        fun i => absurd (Nat.lt_of_le_of_lt (Nat.zero_le _) i.isLt) entries⟩
      rw [resumeLatches, if_neg entries]
      rfl
  obtain ⟨fates, closed, subTxn⟩ : ∃ fates, (resumeSubTxn env d row).result = .ok fates ∧
      ∀ s : Fin d.nsubs, fates.getD s .txnNone = c.subTxn s := by
    by_cases entries : 0 < d.nsubs
    · refine ⟨(List.finRange d.nsubs).map c.subTxn,
        resumeSubTxn_complete ready entries (by simp) ?_ ?_, ?_⟩
      · rw [replays.fates entries, List.map_map]
        rfl
      · intro fate membership
        obtain ⟨s, -, rfl⟩ := List.mem_map.mp membership
        exact replays.closed s
      · intro s
        simp [List.getD_eq_getElem?_getD]
    · refine ⟨[], ?_, fun s => absurd (Nat.lt_of_le_of_lt (Nat.zero_le _) s.isLt) entries⟩
      rw [resumeSubTxn, if_neg entries]
      rfl
  have reconciled : (storeSignReconcile d env.reconcile).result =
      .ok (decide (d.nschemas > 0)) := by
    rw [ready.reconcile]
    exact storeSignReconcile_complete
  rw [resumeInstance, bind_result _ dispatched,
    bind_result _ (ok_require.mpr ready.instanceHeap : _ = Except.ok ()),
    bind_result _ (resumeVows_complete ready replays.vows), bind_result _ replayed,
    bind_result _ closed, bind_result _ reconciled]
  simp only [pledgeState, pledgeErr, subTxn, ← dated.store, ← dated.shapeHash, ← dated.signedAt]
  rfl

/-! ## Accesses and statuses of a whole call -/

theorem resumeInstance_inside (addressable : row.Addressable) (state : GeasContractState) :
    Logs (InsideBlob row) (resumeInstance env d row state) := by
  have vows : Logs (InsideBlob row) (resumeVows env d row) := by
    unfold resumeVows
    split
    · refine (Logs.require _ _).bind fun _ _ => ?_
      refine (decodeVows_inside addressable (Nat.zero_le _)).bind fun _ _ => ?_
      exact (Logs.require _ _).bind fun _ _ => Logs.pure _
    · exact (Logs.require _ _).bind fun _ _ => Logs.pure _
  have latches : Logs (InsideBlob row) (resumeLatches env d row) := by
    unfold resumeLatches
    split
    · refine (Logs.require _ _).bind fun _ _ => (Logs.require _ _).bind fun _ sized => ?_
      have sized : row.latches.length = d.npledges := by simpa using ok_require.mp sized
      have replayed : Logs (InsideBlob row) (replayLatches row d.npledges) :=
        replayBytes_inside (by rw [Nat.zero_add]; exact sized.ge)
      refine replayed.bind fun _ _ => decodeErrs_inside.bind fun _ _ => ?_
      exact (Logs.require _ _).bind fun _ _ => Logs.pure _
    · exact Logs.pure _
  have fates : Logs (InsideBlob row) (resumeSubTxn env d row) := by
    unfold resumeSubTxn
    split
    · refine (Logs.require _ _).bind fun _ _ => (Logs.require _ _).bind fun _ sized => ?_
      have sized : row.subtxn.length = d.nsubs := by simpa using ok_require.mp sized
      exact replayBytes_inside (by rw [Nat.zero_add]; exact sized.ge)
    · exact Logs.pure _
  have store : Logs (InsideBlob row) (storeSignReconcile d env.reconcile) := by
    unfold storeSignReconcile
    split
    · exact Logs.pure _
    · exact (Logs.lift _).bind fun _ _ => Logs.pure _
  refine (Logs.lift _).bind fun _ _ => (Logs.require _ _).bind fun _ _ => ?_
  refine vows.bind fun _ _ => latches.bind fun _ _ => fates.bind fun _ _ => ?_
  exact store.bind fun _ _ => Logs.pure _

/-- A computation that does not fail with `GEAS_OK`. -/
abbrev Honest {α : Type} (scan : Scan α) : Prop := Stops (· ≠ GeasStatus.ok) scan

theorem honest_answer (answer : GeasStatus) :
    Honest (Logged.lift (if answer = .ok then .ok () else .error answer)) := by
  intro fault failed
  by_cases ok : answer = .ok
  · rw [if_pos ok] at failed
    cases failed
  · rw [if_neg ok] at failed
    cases failed
    exact ok

theorem honest_elim {α : Type} {fault : GeasStatus} (fails : fault ≠ .ok) (found : Option α) :
    Honest (Logged.lift (found.elim (.error fault) .ok)) := by
  cases found with
  | none =>
      rintro other ⟨⟩
      exact fails
  | some value => nofun

theorem decodeAt_honest (blob : Blob) (off : Nat) : Honest (decodeAt allocator row blob off) := by
  intro fault failed
  simp only [decodeAt] at failed
  split at failed
  · cases failed
  · next status =>
    cases failed
    exact status

theorem decodeVows_honest (vows : List GeasVowDesc) (i off : Nat) :
    Honest (decodeVows allocators row vows i off) := by
  induction vows generalizing i off with
  | nil => exact Stops.pure _
  | cons vow rest ih =>
      refine (decodeAt_honest _ _).bind fun _ => (Stops.require (by decide) _).bind fun _ => ?_
      exact (ih _ _).bind fun _ => Stops.pure _

theorem byteAt_honest (blob : Blob) (i : Nat) : Honest (byteAt row blob i) :=
  (Stops.note _).bind fun _ => Stops.pure _

theorem replayBytes_honest {α : Type} {ofByte : UInt8 → Option α} (blob : Blob) (n i : Nat) :
    Honest (replayBytes row blob ofByte n i) := by
  induction n generalizing i with
  | zero => exact Stops.pure _
  | succ n ih =>
      refine (byteAt_honest _ _).bind fun _ => (honest_elim (by decide) _).bind fun _ => ?_
      exact (ih _).bind fun _ => Stops.pure _

theorem decodeErrs_honest (n i off : Nat) : Honest (decodeErrs allocators row n i off) := by
  induction n generalizing i off with
  | zero => exact Stops.pure _
  | succ n ih =>
      refine (Stops.require (by decide) _).bind fun _ => (byteAt_honest _ _).bind fun _ => ?_
      have payload : ∀ present, Honest (decodeErr (allocators i) row present (off + 1)) := by
        intro present
        unfold decodeErr
        split
        · exact decodeAt_honest _ _
        · exact Stops.pure _
      refine (Stops.require (by decide) _).bind fun _ => (payload _).bind fun _ => ?_
      exact (ih _ _).bind fun _ => Stops.pure _

theorem resumeInstance_honest (state : GeasContractState) :
    Honest (resumeInstance env d row state) := by
  have vows : Honest (resumeVows env d row) := by
    unfold resumeVows
    split
    · refine (Stops.require (by decide) _).bind fun _ => (decodeVows_honest _ _ _).bind fun _ => ?_
      exact (Stops.require (by decide) _).bind fun _ => Stops.pure _
    · exact (Stops.require (by decide) _).bind fun _ => Stops.pure _
  have latches : Honest (resumeLatches env d row) := by
    unfold resumeLatches
    split
    · refine (Stops.require (by decide) _).bind fun _ => (Stops.require (by decide) _).bind fun _ => ?_
      refine (replayBytes_honest _ _ _).bind fun _ => (decodeErrs_honest _ _ _).bind fun _ => ?_
      exact (Stops.require (by decide) _).bind fun _ => Stops.pure _
    · exact Stops.pure _
  have fates : Honest (resumeSubTxn env d row) := by
    unfold resumeSubTxn
    split
    · refine (Stops.require (by decide) _).bind fun _ => (Stops.require (by decide) _).bind fun _ => ?_
      exact replayBytes_honest _ _ _
    · exact Stops.pure _
  have store : Honest (storeSignReconcile d env.reconcile) := by
    unfold storeSignReconcile
    split
    · exact Stops.pure _
    · exact (honest_answer _).bind fun _ => Stops.pure _
  refine (honest_answer _).bind fun _ => (Stops.require (by decide) _).bind fun _ => ?_
  refine vows.bind fun _ => latches.bind fun _ => fates.bind fun _ => ?_
  exact store.bind fun _ => Stops.pure _

/-! ## Resume is safe -/

/-- An instance every blob of the row was spent on: one value of the declared type
per vow, one latch byte per pledge, one byte of a closed episode per subcontract,
and nothing left over. -/
structure Published (d : GeasContractDesc) (row : ParkRow) (c : GeasContract d) : Prop where
  vows : SpellsVows d row.vows c.vowVals
  latches : row.latches = (List.finRange d.npledges).map fun i => (c.pledgeState i).code
  errs : ∃ payloads, SpellsErrs d row.errs payloads ∧
    ∀ i : Fin d.npledges, c.pledgeErr i = (payloads.getD i none).getD .zero
  fates : row.subtxn = (List.finRange d.nsubs).map fun s => (c.subTxn s).code
  closed : ∀ s, c.subTxn s ≠ .txnOpen

/-- A call that read inside the blobs only and either failed without a trace or
published an instance the row spells. -/
def SafeResume (d : GeasContractDesc) (row : ParkRow) (rt : GeasRuntime) (call : ResumeResult) :
    Prop :=
  (∀ entry ∈ call.reads, InsideBlob row entry) ∧
    ((call.status ≠ .ok ∧ call.out = none ∧ call.rt = rt) ∨
      (call.status = .ok ∧ ∃ c : GeasContract d, call.out = some ⟨d, c⟩ ∧
        call.rt = { rt with instances := rt.instances ++ [⟨d, c⟩] } ∧ Published d row c))

/-- No bytes stand where the descriptor has no entries. -/
structure NoSurplus (d : GeasContractDesc) (row : ParkRow) : Prop where
  latches : d.npledges = 0 → row.latches = []
  errs : d.npledges = 0 → row.errs = []
  fates : d.nsubs = 0 → row.subtxn = []

/-- The row names the descriptor, its version and shape, a state past Unsigned, and
spells an instance where the descriptor has entries. -/
structure Fits (d : GeasContractDesc) (row : ParkRow) : Prop where
  contract : row.contract = d.name
  version : d.version.toUInt64.toInt64 = row.version
  shapeHash : d.shapeHash = row.shapeHash.toUInt64
  state : (GeasContractState.ofCell row.state).isSome = true
  replays : ∃ c : GeasContract d, Replays d row c

theorem published_iff {c : GeasContract d} :
    Published d row c ↔ Replays d row c ∧ NoSurplus d row := by
  constructor
  · intro published
    refine ⟨⟨published.vows, fun _ => published.latches, fun _ => published.errs,
      fun _ => published.fates, published.closed⟩, ?_, ?_, ?_⟩
    · intro none
      rw [← List.length_eq_zero_iff, published.latches, List.length_map, List.length_finRange, none]
    · intro none
      obtain ⟨payloads, ⟨count, -, bytes⟩, -⟩ := published.errs
      rw [bytes, List.eq_nil_of_length_eq_zero (count.trans none)]
      rfl
    · intro none
      rw [← List.length_eq_zero_iff, published.fates, List.length_map, List.length_finRange, none]
  · rintro ⟨replays, bare⟩
    refine ⟨replays.vows, ?_, ?_, ?_, replays.closed⟩
    · by_cases none : d.npledges = 0
      · rw [bare.latches none, eq_comm, List.map_eq_nil_iff, List.finRange_eq_nil_iff]
        exact none
      · exact replays.latches (Nat.pos_of_ne_zero none)
    · by_cases none : d.npledges = 0
      · refine ⟨[], ⟨none.symm, nofun, bare.errs none⟩, fun i => ?_⟩
        exact absurd i.isLt (by omega)
      · exact replays.errs (Nat.pos_of_ne_zero none)
    · by_cases none : d.nsubs = 0
      · rw [bare.fates none, eq_comm, List.map_eq_nil_iff, List.finRange_eq_nil_iff]
        exact none
      · exact replays.fates (Nat.pos_of_ne_zero none)

section Calls

variable {rt : GeasRuntime} {table : ParkTable} {key : String} {expectedHash : UInt64}

theorem selectRow_result (present : table key = some row) (query : env.query = .ok) :
    (selectRow env table key).result = .ok row := by
  have answered : (Logged.lift (if env.query = .ok then .ok () else .error env.query) :
      Scan Unit).result = .ok () := by
    rw [query]
    rfl
  rw [selectRow, bind_result _ answered, present]
  rfl

theorem rowDesc_sound {found : GeasContractDesc}
    (done : (rowDesc rt row expectedHash).result = .ok found) :
    findDesc rt row.contract = some found ∧ found.version.toUInt64.toInt64 = row.version ∧
      found.shapeHash = row.shapeHash.toUInt64 := by
  obtain ⟨other, looked, done⟩ := ok_bind.mp done
  obtain ⟨_, matching, done⟩ := ok_bind.mp done
  cases done
  have agrees := ok_require.mp matching
  simp only [Bool.and_eq_true, decide_eq_true_eq] at agrees
  refine ⟨?_, agrees.1.1, agrees.1.2⟩
  cases present : findDesc rt row.contract with
  | none =>
      rw [present] at looked
      cases looked
  | some known =>
      rw [present] at looked
      cases looked
      rfl

/-- A successful build ends in an instance of the descriptor it found. -/
theorem resumeBuild_instance {built : Instance}
    (done : (resumeBuild env rt row expectedHash).result = .ok built) :
    ∃ state, (resumeInstance env built.1 row state).result = .ok built.2 := by
  obtain ⟨state, -, done⟩ := ok_bind.mp done
  obtain ⟨_, -, done⟩ := ok_bind.mp done
  obtain ⟨found, -, done⟩ := ok_bind.mp done
  obtain ⟨c, instance', done⟩ := ok_bind.mp done
  obtain ⟨_, -, done⟩ := ok_bind.mp done
  cases done
  exact ⟨state, instance'⟩

/-- What a successful build is. -/
theorem resumeBuild_sound (addressable : row.Addressable) {built : Instance}
    (done : (resumeBuild env rt row expectedHash).result = .ok built) :
    findDesc rt row.contract = some built.1 ∧
      built.1.version.toUInt64.toInt64 = row.version ∧
      built.1.shapeHash = row.shapeHash.toUInt64 ∧
      GeasContractState.ofCell row.state = some built.2.state ∧
      Replays built.1 row built.2 ∧ Dated row built.2.state built.2 ∧
      rt.instances.length ≠ maxInstances := by
  obtain ⟨state, recorded, done⟩ := ok_bind.mp done
  obtain ⟨_, -, done⟩ := ok_bind.mp done
  obtain ⟨found, looked, done⟩ := ok_bind.mp done
  obtain ⟨c, instance', done⟩ := ok_bind.mp done
  obtain ⟨_, room, done⟩ := ok_bind.mp done
  cases done
  obtain ⟨present, version, shapeHash⟩ := rowDesc_sound looked
  obtain ⟨replays, dated⟩ := resumeInstance_sound addressable instance'
  refine ⟨present, version, shapeHash, ?_, replays, dated.state ▸ dated, ?_⟩
  · rw [dated.state]
    cases known : GeasContractState.ofCell row.state with
    | none =>
        rw [known] at recorded
        cases recorded
    | some other =>
        rw [known] at recorded
        cases recorded
        rfl
  · simpa using ok_require.mp room

/-- A fitting row is built, given room in the instance table. -/
theorem resumeBuild_complete (ready : env.Ready) (found : findDesc rt row.contract = some d)
    (version : d.version.toUInt64.toInt64 = row.version)
    (shapeHash : d.shapeHash = row.shapeHash.toUInt64)
    (expected : expectedHash = 0 ∨ expectedHash = d.shapeHash) {c : GeasContract d}
    (state : GeasContractState.ofCell row.state = some c.state) (replays : Replays d row c)
    (dated : Dated row c.state c) (room : rt.instances.length ≠ maxInstances) :
    (resumeBuild env rt row expectedHash).result = .ok ⟨d, c⟩ := by
  have recorded : (Logged.lift ((GeasContractState.ofCell row.state).elim (.error .errType) .ok) :
      Scan GeasContractState).result = .ok c.state := by
    rw [state]
    rfl
  have looked : (rowDesc rt row expectedHash).result = .ok d := by
    have present : (Logged.lift ((findDesc rt row.contract).elim (.error .errName) .ok) :
        Scan GeasContractDesc).result = .ok d := by
      rw [found]
      rfl
    have matching : (d.version.toUInt64.toInt64 = row.version &&
        d.shapeHash = row.shapeHash.toUInt64 &&
        (expectedHash = 0 || expectedHash = d.shapeHash) : Bool) = true := by
      simp only [Bool.and_eq_true, Bool.or_eq_true, decide_eq_true_eq]
      exact ⟨⟨version, shapeHash⟩, expected⟩
    rw [rowDesc, bind_result _ present, bind_result _ (ok_require.mpr matching : _ = Except.ok ())]
    rfl
  rw [resumeBuild, bind_result _ recorded,
    bind_result _ (ok_require.mpr ready.nameHeap : _ = Except.ok ()), bind_result _ looked,
    bind_result _ (resumeInstance_complete ready replays dated),
    bind_result _ (ok_require.mpr (decide_eq_true room) : _ = Except.ok ())]
  rfl

/-- A call that finds its row answers as the build does. -/
theorem geasInstanceResume_of_build (present : table key = some row) (query : env.query = .ok)
    {built : Instance} (done : (resumeBuild env rt row expectedHash).result = .ok built) :
    (geasInstanceResume env rt table key expectedHash).status = .ok ∧
      (geasInstanceResume env rt table key expectedHash).out = some built := by
  have result : (do
      let row ← selectRow env table key
      resumeBuild env rt row expectedHash : Scan Instance).result = .ok built := by
    rw [bind_result _ (selectRow_result present query)]
    exact done
  simp only [geasInstanceResume, result, and_self]

/-- What a call that ends with `GEAS_OK` did. -/
theorem build_of_geasInstanceResume (present : table key = some row)
    (ok : (geasInstanceResume env rt table key expectedHash).status = .ok) :
    ∃ built, (resumeBuild env rt row expectedHash).result = .ok built ∧
      (geasInstanceResume env rt table key expectedHash).out = some built ∧
      (geasInstanceResume env rt table key expectedHash).rt =
        { rt with instances := rt.instances ++ [built] } := by
  have honest : Honest (do
      let row ← selectRow env table key
      resumeBuild env rt row expectedHash) := by
    have select : Honest (selectRow env table key) :=
      (honest_answer _).bind fun _ => honest_elim (by decide) _
    have desc : ∀ other, Honest (rowDesc rt other expectedHash) := fun other =>
      (honest_elim (by decide) _).bind fun _ => (Stops.require (by decide) _).bind fun _ => Stops.pure _
    refine select.bind fun other => (honest_elim (by decide) _).bind fun state => ?_
    refine (Stops.require (by decide) _).bind fun _ => (desc other).bind fun found => ?_
    refine (resumeInstance_honest state).bind fun c => ?_
    exact (Stops.require (by decide) _).bind fun _ => Stops.pure _
  unfold geasInstanceResume at ok ⊢
  cases result : (do
      let row ← selectRow env table key
      resumeBuild env rt row expectedHash : Scan Instance).result with
  | error fault =>
      simp only [result] at ok
      exact absurd ok (honest fault result)
  | ok built =>
      obtain ⟨selected, chosen, done⟩ := ok_bind.mp result
      obtain ⟨_, -, chosen⟩ := ok_bind.mp chosen
      rw [present] at chosen
      cases chosen
      exact ⟨built, done, by simp only [result], by simp only [result]⟩

/-- A call that hands out an instance built it from its row. -/
theorem build_of_out (present : table key = some row) {built : Instance}
    (out : (geasInstanceResume env rt table key expectedHash).out = some built) :
    (resumeBuild env rt row expectedHash).result = .ok built := by
  unfold geasInstanceResume at out
  cases result : (do
      let row ← selectRow env table key
      resumeBuild env rt row expectedHash : Scan Instance).result with
  | error fault =>
      simp only [result] at out
      cases out
  | ok other =>
      simp only [result] at out
      cases out
      obtain ⟨selected, chosen, done⟩ := ok_bind.mp result
      obtain ⟨_, -, chosen⟩ := ok_bind.mp chosen
      rw [present] at chosen
      cases chosen
      exact done

/-- No access of a call leaves the blobs of its row. -/
theorem geasInstanceResume_inside (addressable : row.Addressable) (present : table key = some row) :
    ∀ entry ∈ (geasInstanceResume env rt table key expectedHash).reads, InsideBlob row entry := by
  have inside : Logs (InsideBlob row) (do
      let row ← selectRow env table key
      resumeBuild env rt row expectedHash) := by
    have select : Logs (InsideBlob row) (selectRow env table key) :=
      (Logs.lift _).bind fun _ _ => Logs.lift _
    have desc : Logs (InsideBlob row) (rowDesc rt row expectedHash) :=
      (Logs.lift _).bind fun _ _ => (Logs.require _ _).bind fun _ _ => Logs.pure _
    refine select.bind fun other chosen => ?_
    obtain ⟨_, -, chosen⟩ := ok_bind.mp chosen
    rw [present] at chosen
    cases chosen
    refine (Logs.lift _).bind fun state _ => (Logs.require _ _).bind fun _ _ => ?_
    refine desc.bind fun found _ => (resumeInstance_inside addressable state).bind fun c _ => ?_
    exact (Logs.require _ _).bind fun _ _ => Logs.pure _
  unfold geasInstanceResume
  dsimp only
  split
  · exact inside
  · exact inside

end Calls

/-- Surroundings in which nothing fails. -/
def readyEnv : ResumeEnv where
  query := .ok
  nameHeap := true
  dispatch := .ok
  instanceHeap := true
  vowsHeap := true
  latchesHeap := true
  subsHeap := true
  vowAllocator := fun _ _ _ => true
  errAllocator := fun _ _ _ => true
  reconcile := .ok

theorem readyEnv_ready : readyEnv.Ready where
  query := rfl
  nameHeap := rfl
  dispatch := rfl
  instanceHeap := rfl
  vowsHeap := rfl
  latchesHeap := rfl
  subsHeap := rfl
  vowAllocator _ _ _ := rfl
  errAllocator _ _ _ := rfl
  reconcile := rfl

/-- Resume of a row is safe in all surroundings exactly when a row that fits the
descriptor carries no surplus bytes. -/
theorem resume_safe_iff {d : GeasContractDesc} {row : ParkRow} (addressable : row.Addressable) :
    (∀ (env : ResumeEnv) (rt : GeasRuntime) (table : ParkTable) (key : String)
      (expectedHash : UInt64), findDesc rt row.contract = some d → table key = some row →
      SafeResume d row rt (geasInstanceResume env rt table key expectedHash)) ↔
    (Fits d row → NoSurplus d row) := by
  constructor
  · intro safe fits
    obtain ⟨state, recorded⟩ := Option.isSome_iff_exists.mp fits.state
    obtain ⟨spelled, replays⟩ := fits.replays
    let c : GeasContract d :=
      { spelled with
        state := state
        store := d.nschemas > 0
        shapeHash := d.shapeHash
        signedAt := row.signedAt }
    have replays : Replays d row c :=
      ⟨replays.vows, replays.latches, replays.errs, replays.fates, replays.closed⟩
    let rt : GeasRuntime := ⟨[d], []⟩
    let table : ParkTable := fun _ => some row
    have found : findDesc rt row.contract = some d := by
      simp [rt, findDesc, fits.contract]
    have done : (resumeBuild readyEnv rt row 0).result = .ok ⟨d, c⟩ :=
      resumeBuild_complete readyEnv_ready found fits.version fits.shapeHash (Or.inl rfl) recorded
        replays ⟨rfl, rfl, rfl, rfl⟩ (show 0 ≠ maxInstances by decide)
    have ok : (geasInstanceResume readyEnv rt table "" 0).status = .ok :=
      (geasInstanceResume_of_build rfl rfl done).1
    rcases (safe readyEnv rt table "" 0 found rfl).2 with ⟨failed, -⟩ | ⟨-, resumed, -, -, published⟩
    · exact absurd ok failed
    · exact (published_iff.mp published).2
  · intro bare env rt table key expectedHash found present
    refine ⟨geasInstanceResume_inside addressable present, ?_⟩
    by_cases ok : (geasInstanceResume env rt table key expectedHash).status = .ok
    · obtain ⟨⟨other, c⟩, done, out, grown⟩ := build_of_geasInstanceResume present ok
      obtain ⟨found', version, shapeHash, recorded, replays, -, -⟩ :=
        resumeBuild_sound addressable done
      obtain rfl : d = other := Option.some.inj (found.symm.trans found')
      have named : row.contract = d.name := by
        have holds := List.find?_some found
        exact (by simpa using holds : d.name = row.contract).symm
      have fits : Fits d row := ⟨named, version, shapeHash, by rw [recorded]; rfl, c, replays⟩
      exact Or.inr ⟨ok, c, out, grown, published_iff.mpr ⟨replays, bare fits⟩⟩
    · refine Or.inl ⟨ok, ?_⟩
      unfold geasInstanceResume at ok ⊢
      dsimp only at ok ⊢
      split at ok
      · exact absurd rfl ok
      · next fault => exact ⟨rfl, rfl⟩

/-- A contract without pledges and subcontracts. -/
def bareDesc : GeasContractDesc where
  name := "Bare"
  shapeHash := 1
  version := 1
  pledges := []
  vows := []
  subs := []
  atoms := []
  hasReqs := false
  reqFulfill := []
  reqPartial := []
  reqBreak := []
  nschemas := 0
  subFlags := none

/-- A row of it, with the given latch bytes. -/
def bareRow (latches : List UInt8) : ParkRow where
  contract := "Bare"
  version := 1
  shapeHash := 1
  state := 1
  signedAt := 0
  vows := []
  latches := latches
  errs := []
  subtxn := []

theorem resume_safe_iff_bare :
    (bareRow []).Addressable ∧
      SafeResume bareDesc (bareRow []) ⟨[bareDesc], []⟩
        (geasInstanceResume readyEnv ⟨[bareDesc], []⟩ (fun _ => some (bareRow [])) "k" 0) := by
  have addressable : (bareRow []).Addressable := by
    intro blob
    cases blob <;> exact Nat.zero_le _
  exact ⟨addressable, (resume_safe_iff addressable).mpr
    (fun _ => ⟨fun _ => rfl, fun _ => rfl, fun _ => rfl⟩) readyEnv _ _ "k" 0 rfl rfl⟩

/-- A latch blob is left unread when there is no pledge. -/
theorem surplus_latch_accepted :
    (geasInstanceResume readyEnv ⟨[bareDesc], []⟩ (fun _ => some (bareRow [9])) "k" 0).status =
        .ok ∧
      ¬SafeResume bareDesc (bareRow [9]) ⟨[bareDesc], []⟩
        (geasInstanceResume readyEnv ⟨[bareDesc], []⟩ (fun _ => some (bareRow [9])) "k" 0) := by
  have ok : (geasInstanceResume readyEnv ⟨[bareDesc], []⟩
      (fun _ => some (bareRow [9])) "k" 0).status = .ok := by decide
  refine ⟨ok, ?_⟩
  rintro ⟨-, ⟨failed, -⟩ | ⟨-, c, -, -, published⟩⟩
  · exact failed ok
  · have lengths := congrArg List.length published.latches
    rw [List.length_map, List.length_finRange] at lengths
    exact absurd lengths (by decide)

end Geas.Runtime
