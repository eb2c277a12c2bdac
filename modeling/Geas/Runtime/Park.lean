import Geas.Lib.Logged
import Geas.Runtime.Partial
import Geas.Runtime.Vows
import Geas.Wire.RoundTrip

/-!
# The parked instance

An instance written into one row of the park table and stood back up from it.
Park checks that the instance is between walks, encodes its vow values and `Err`
payloads with the wire codec and writes the latches and episode fates as bytes.
Resume trusts nothing in the row: it walks the four blobs with running offsets
and builds a new instance only when every check passed.

The database keeps what it is given: a table maps a key to the row written last.
Answers of the database and of the allocator are parts of the environment of a
call.  The contract cell of a row is the name up to its terminator, which is all
`find_desc` compares.
-/

namespace Geas.Runtime

open Geas.Abi
open Geas.Lib
open Geas.Lib.Reader (Access Allocator)
open Geas.Wire

/-! ## The bytes of the small enumerations -/

/-- The number of a state. -/
def GeasContractState.code : GeasContractState → Int64
  | .unsigned => 0 | .signed => 1 | .fulfilled => 2 | .partly => 3 | .broken => 4

/-- The state a resumed row may record. -/
def GeasContractState.ofCell (cell : Int64) : Option GeasContractState :=
  if cell = 1 then some .signed
  else if cell = 2 then some .fulfilled
  else if cell = 3 then some .partly
  else if cell = 4 then some .broken
  else none

/-- The byte of a latch. -/
def PledgeLatch.code : PledgeLatch → UInt8
  | .pending => 0 | .fulfilled => 1 | .broken => 2

/-- The latch behind a byte, `none` past `PLEDGE_BROKEN`. -/
def PledgeLatch.ofByte (byte : UInt8) : Option PledgeLatch :=
  if byte = 0 then some .pending
  else if byte = 1 then some .fulfilled
  else if byte = 2 then some .broken
  else none

/-- The byte of an episode's fate. -/
def TxnFate.code : TxnFate → UInt8
  | .txnNone => 0 | .txnOpen => 1 | .txnDone => 2

/-- The fate resume accepts from a byte: `TXN_OPEN` and anything past `TXN_DONE`
is corruption. -/
def TxnFate.ofByte (byte : UInt8) : Option TxnFate :=
  if byte = 0 then some .txnNone
  else if byte = 2 then some .txnDone
  else none

/-- A row of `geas_park`. -/
structure ParkRow where
  contract : String
  version : Int64
  shapeHash : Int64
  state : Int64
  signedAt : Int64
  vows : List UInt8
  latches : List UInt8
  errs : List UInt8
  subtxn : List UInt8

/-- The table by key. -/
abbrev ParkTable := String → Option ParkRow

/-! ## The instance and its block list -/

/-- An instance with its block list: `owned` tells whether the list holds a
block.  `reclaimed` records that an explicit break freed it, which the runtime
itself does not. -/
structure HeapSys (d : GeasContractDesc) where
  sys : Sys d
  owned : Bool
  reclaimed : Bool

variable {d : GeasContractDesc}

/-- A step of the runtime, or an allocation on the instance, by a thunk or by a
host outside any. -/
inductive HeapAction (d : GeasContractDesc) where
  | act (action : Action d)
  | allocate

/-- An explicit break frees the list; an allocation puts a block on it. -/
def heapStep (h : HeapSys d) : HeapAction d → Option (HeapSys d)
  | .act action =>
      (step h.sys action).map fun sys =>
        match action with
        | .brk => if h.sys.c.state = .unsigned then { h with sys := sys } else ⟨sys, false, true⟩
        | _ => { h with sys := sys }
  | .allocate => some { h with owned := true }

/-- An instance as sign or resume publishes it: the dispatch table and the vow
values are on the list. -/
def publishedHeap (c : GeasContract d) : HeapSys d :=
  ⟨⟨c, [], [], []⟩, d.npledges > 0 || d.vows.length > 0, false⟩

/-- The instance right after sign. -/
def signedHeap (d : GeasContractDesc) (vowVals : List GeasValue) (signedAt : Int64) : HeapSys d :=
  publishedHeap (freshContract d vowVals signedAt)

/-! ## Park -/

/-- `park_err_present`: an all-zero struct is the absent payload. -/
def parkErrPresent : GeasValue → Bool
  | .unit tag => tag != 0
  | _ => true

/-- The sizing loop of a blob; a `size_t` total.  An answer of `GEAS_ERR_OOM` is
the codec's size protocol. -/
def parkSize : List GeasValue → Nat → Except GeasStatus Nat
  | [], total => .ok total
  | value :: rest, total =>
      let sized := geasWireEncodeValue value none
      if sized.status ≠ .ok ∧ sized.status ≠ .errOom then .error sized.status
      else parkSize rest ((total + sized.need.getD 0) % (sizeMax + 1))

/-- The writing loop of a blob of `total` bytes, `off` of them written. -/
def parkWrite (total off : Nat) : List GeasValue → Except GeasStatus (List UInt8)
  | [] => .ok []
  | value :: rest =>
      let written := geasWireEncodeValue value (some (total - off))
      if written.status ≠ .ok then .error written.status
      else
        match parkWrite total (off + written.need.getD 0) rest with
        | .ok bytes => .ok (written.written ++ bytes)
        | .error status => .error status

/-- `park_encode_values`: the values back to back. -/
def parkEncodeValues (heap : Bool) (values : List GeasValue) : Except GeasStatus (List UInt8) :=
  match parkSize values 0 with
  | .error status => .error status
  | .ok total => if heap then parkWrite total 0 values else .error .errOom

/-- The writing loop of the payload blob. -/
def parkWriteErrs (total off : Nat) : List GeasValue → Except GeasStatus (List UInt8)
  | [] => .ok []
  | value :: rest =>
      if parkErrPresent value then
        let written := geasWireEncodeValue value (some (total - (off + 1)))
        if written.status ≠ .ok then .error written.status
        else
          match parkWriteErrs total (off + 1 + written.need.getD 0) rest with
          | .ok bytes => .ok (1 :: written.written ++ bytes)
          | .error status => .error status
      else
        match parkWriteErrs total (off + 1) rest with
        | .ok bytes => .ok (0 :: bytes)
        | .error status => .error status

/-- `park_encode_errs`: per pledge a presence byte, then the payload when there is
one. -/
def parkEncodeErrs (heap : Bool) (errs : List GeasValue) : Except GeasStatus (List UInt8) :=
  match parkSize (errs.filter parkErrPresent) errs.length with
  | .error status => .error status
  | .ok total => if heap then parkWriteErrs total 0 errs else .error .errOom

/-- What a park call finds around it: whether `malloc` succeeds, and what the
database answers to the open, the table and the insert. -/
structure ParkEnv where
  vowsHeap : Bool
  errsHeap : Bool
  store : GeasStatus

/-- The gate: the instance is signed, its heap is there, every future was waited
for and no episode is open. -/
def parkGate (h : HeapSys d) : GeasStatus :=
  if h.sys.c.state = .unsigned then .errState
  else if d.npledges > 0 ∧ h.owned = false then .errState
  else if h.sys.futures.any fun f => !f.waited then .errState
  else if (List.finRange d.nsubs).any fun s => h.sys.c.subTxn s = .txnOpen then .errState
  else .ok

/-- The vow blob.  An explicit break left the vow array NULL, which the codec
refuses. -/
def parkVows (env : ParkEnv) (c : GeasContract d) : Except GeasStatus (List UInt8) :=
  if d.vows.length = 0 then .ok []
  else if c.vowVals.isEmpty then .error .errType
  else parkEncodeValues env.vowsHeap c.vowVals

/-- The payload blob. -/
def parkErrs (env : ParkEnv) (c : GeasContract d) : Except GeasStatus (List UInt8) :=
  if d.npledges = 0 then .ok []
  else parkEncodeErrs env.errsHeap ((List.finRange d.npledges).map c.pledgeErr)

/-- The row of an instance whose blobs are encoded. -/
def parkRow (c : GeasContract d) (vows errs : List UInt8) : ParkRow where
  contract := d.name
  version := d.version.toUInt64.toInt64
  shapeHash := d.shapeHash.toInt64
  state := c.state.code
  signedAt := c.signedAt
  vows := vows
  latches := (List.finRange d.npledges).map fun i => (c.pledgeState i).code
  errs := errs
  subtxn := (List.finRange d.nsubs).map fun s => (c.subTxn s).code

/-- The row `geas_instance_park` writes, or the status it ends with. -/
def parkedRow (env : ParkEnv) (h : HeapSys d) : Except GeasStatus ParkRow :=
  if parkGate h ≠ .ok then .error (parkGate h)
  else
    match parkVows env h.sys.c with
    | .error status => .error status
    | .ok vows =>
        match parkErrs env h.sys.c with
        | .error status => .error status
        | .ok errs => if env.store ≠ .ok then .error env.store else .ok (parkRow h.sys.c vows errs)

/-- `geas_instance_park`. -/
def geasInstancePark (env : ParkEnv) (h : HeapSys d) (key : String) (table : ParkTable) :
    GeasStatus × ParkTable :=
  match parkedRow env h with
  | .ok row => (.ok, Function.update table key (some row))
  | .error status => (status, table)

/-! ## Resume -/

/-- The blobs of a row. -/
inductive Blob where
  | vows | latches | errs | subtxn
  deriving DecidableEq, Repr

def ParkRow.blob (row : ParkRow) : Blob → List UInt8
  | .vows => row.vows
  | .latches => row.latches
  | .errs => row.errs
  | .subtxn => row.subtxn

/-- A walk over the blobs that records every access to one of them. -/
abbrev Scan := Logged GeasStatus (Blob × Access)

/-- An access of a codec call made `off` bytes into a blob. -/
def shift (off : Nat) : Access → Access
  | .read offset length => .read (off + offset) length
  | access => access

/-- `geas_wire_decode_value` at an offset of a blob: the value and the bytes it
used. -/
def decodeAt (allocator : Allocator) (row : ParkRow) (blob : Blob) (off : Nat) :
    Scan (GeasValue × Nat) :=
  let decoded := geasWireDecodeValue allocator ((row.blob blob).drop off)
  { result := if decoded.status = .ok then .ok (decoded.out, decoded.consumed)
      else .error decoded.status
    log := decoded.trace.map fun access => (blob, shift off access) }

/-- The vow loop from vow `i` at offset `off`: each value has its declared type.
Returns the values and the offset reached. -/
def decodeVows (allocator : Nat → Allocator) (row : ParkRow) :
    List GeasVowDesc → Nat → Nat → Scan (List GeasValue × Nat)
  | [], _, off => pure ([], off)
  | vow :: rest, i, off => do
      let (value, used) ← decodeAt (allocator i) row .vows off
      Logged.require .errType (value.ty = vow.ty)
      let (values, last) ← decodeVows allocator row rest (i + 1) (off + used)
      pure (value :: values, last)

/-- One byte of a blob, read where the caller has checked the length. -/
def byteAt (row : ParkRow) (blob : Blob) (i : Nat) : Scan UInt8 := do
  Logged.note (blob, .read i 1)
  pure ((row.blob blob).getD i 0)

/-- A loop over `n` bytes from byte `i`, each read as `ofByte` reads it. -/
def replayBytes {α : Type} (row : ParkRow) (blob : Blob) (ofByte : UInt8 → Option α) :
    Nat → Nat → Scan (List α)
  | 0, _ => pure []
  | n + 1, i => do
      let byte ← byteAt row blob i
      let value ← Logged.lift ((ofByte byte).elim (.error .errType) .ok)
      let values ← replayBytes row blob ofByte n (i + 1)
      pure (value :: values)

/-- The latch loop. -/
def replayLatches (row : ParkRow) (n : Nat) : Scan (List PledgeLatch) :=
  replayBytes row .latches PledgeLatch.ofByte n 0

/-- The payload behind a presence byte; an absent one leaves the slot zeroed. -/
def decodeErr (allocator : Allocator) (row : ParkRow) (present : UInt8) (off : Nat) :
    Scan (GeasValue × Nat) :=
  if present = 1 then decodeAt allocator row .errs off else pure (.zero, 0)

/-- The payload loop: `n` pledges from pledge `i` at offset `off`. -/
def decodeErrs (allocator : Nat → Allocator) (row : ParkRow) :
    Nat → Nat → Nat → Scan (List GeasValue × Nat)
  | 0, _, off => pure ([], off)
  | n + 1, i, off => do
      Logged.require .errType (off < row.errs.length)
      let present ← byteAt row .errs off
      Logged.require .errType (present ≤ 1)
      let (value, used) ← decodeErr (allocator i) row present (off + 1)
      let (values, last) ← decodeErrs allocator row n (i + 1) (off + 1 + used)
      pure (value :: values, last)

/-- The fate loop. -/
def replaySubTxn (row : ParkRow) (n : Nat) : Scan (List TxnFate) :=
  replayBytes row .subtxn TxnFate.ofByte n 0

/-- What a resume call finds around it: what the database answers to the open, the
table and the query, whether each allocation succeeds, whether every pledge has a
body, and whether the store side reopens. -/
structure ResumeEnv where
  query : GeasStatus
  nameHeap : Bool
  dispatch : GeasStatus
  instanceHeap : Bool
  vowsHeap : Bool
  latchesHeap : Bool
  subsHeap : Bool
  vowAllocator : Nat → Allocator
  errAllocator : Nat → Allocator
  reconcile : GeasStatus

/-- The vow values of the new instance. -/
def resumeVows (env : ResumeEnv) (d : GeasContractDesc) (row : ParkRow) : Scan (List GeasValue) :=
  if d.vows.length > 0 then do
    Logged.require .errOom env.vowsHeap
    let (values, off) ← decodeVows env.vowAllocator row d.vows 0 0
    Logged.require .errType (off = row.vows.length)
    pure values
  else do
    Logged.require .errType (row.vows.length = 0)
    pure []

/-- The latches and payloads of the new instance. -/
def resumeLatches (env : ResumeEnv) (d : GeasContractDesc) (row : ParkRow) :
    Scan (List PledgeLatch × List GeasValue) :=
  if d.npledges > 0 then do
    Logged.require .errOom env.latchesHeap
    Logged.require .errType (row.latches.length = d.npledges)
    let latches ← replayLatches row d.npledges
    let (errs, off) ← decodeErrs env.errAllocator row d.npledges 0 0
    Logged.require .errType (off = row.errs.length)
    pure (latches, errs)
  else pure ([], [])

/-- The episode fates of the new instance. -/
def resumeSubTxn (env : ResumeEnv) (d : GeasContractDesc) (row : ParkRow) : Scan (List TxnFate) :=
  if d.nsubs > 0 then do
    Logged.require .errOom env.subsHeap
    Logged.require .errType (row.subtxn.length = d.nsubs)
    replaySubTxn row d.nsubs
  else pure []

/-- The store side of sign and resume: a contract without schemas has none. -/
def storeSignReconcile (d : GeasContractDesc) (answer : GeasStatus) : Scan Bool :=
  if d.nschemas = 0 then pure false
  else do
    Logged.lift (if answer = .ok then .ok () else .error answer)
    pure true

/-- The instance built from a row whose contract was found. -/
def resumeInstance (env : ResumeEnv) (d : GeasContractDesc) (row : ParkRow)
    (state : GeasContractState) : Scan (GeasContract d) := do
  Logged.lift (if env.dispatch = .ok then .ok () else .error env.dispatch)
  Logged.require .errOom env.instanceHeap
  let vowVals ← resumeVows env d row
  let (latches, errs) ← resumeLatches env d row
  let fates ← resumeSubTxn env d row
  let store ← storeSignReconcile d env.reconcile
  pure
    { state := state
      pledgeState := fun i => latches.getD i .pending
      pledgeErr := fun i => errs.getD i .zero
      subTxn := fun s => fates.getD s .txnNone
      store := store
      vowVals := vowVals
      shapeHash := d.shapeHash
      signedAt := row.signedAt }

/-- An instance of some descriptor. -/
abbrev Instance := (d : GeasContractDesc) × GeasContract d

/-- `GEAS_MAX_INSTANCES`. -/
def maxInstances : Nat := 256

/-- The runtime as far as resume uses it: the registered descriptors and the
instance table. -/
structure GeasRuntime where
  descs : List GeasContractDesc
  instances : List Instance

/-- `find_desc`. -/
def findDesc (rt : GeasRuntime) (name : String) : Option GeasContractDesc :=
  rt.descs.find? fun d => d.name == name

/-- The row of a key, after the answers of the database. -/
def selectRow (env : ResumeEnv) (table : ParkTable) (key : String) : Scan ParkRow := do
  Logged.lift (if env.query = .ok then .ok () else .error env.query)
  Logged.lift ((table key).elim (.error .errName) .ok)

/-- The descriptor a row names, with the skew rule sign runs. -/
def rowDesc (rt : GeasRuntime) (row : ParkRow) (expectedHash : UInt64) : Scan GeasContractDesc := do
  let d ← Logged.lift ((findDesc rt row.contract).elim (.error .errName) .ok)
  Logged.require .errVersion (d.version.toUInt64.toInt64 = row.version &&
    d.shapeHash = row.shapeHash.toUInt64 &&
    (expectedHash = 0 || expectedHash = d.shapeHash))
  pure d

/-- Everything up to the publication. -/
def resumeBuild (env : ResumeEnv) (rt : GeasRuntime) (row : ParkRow) (expectedHash : UInt64) :
    Scan Instance := do
  let state ← Logged.lift ((GeasContractState.ofCell row.state).elim (.error .errType) .ok)
  Logged.require .errOom env.nameHeap
  let d ← rowDesc rt row expectedHash
  let c ← resumeInstance env d row state
  Logged.require .errOom (rt.instances.length ≠ maxInstances)
  pure ⟨d, c⟩

/-- What a call of resume leaves behind: its status, `*out`, the runtime, and the
accesses to the row's blobs. -/
structure ResumeResult where
  status : GeasStatus
  out : Option Instance
  rt : GeasRuntime
  reads : List (Blob × Access)

/-- `geas_instance_resume`. -/
def geasInstanceResume (env : ResumeEnv) (rt : GeasRuntime) (table : ParkTable) (key : String)
    (expectedHash : UInt64) : ResumeResult :=
  let built := do
    let row ← selectRow env table key
    resumeBuild env rt row expectedHash
  match built.result with
  | .ok c => ⟨.ok, some c, { rt with instances := rt.instances ++ [c] }, built.log⟩
  | .error status => ⟨status, none, rt, built.log⟩

end Geas.Runtime
