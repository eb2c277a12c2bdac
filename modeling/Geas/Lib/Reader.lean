import Mathlib.Data.List.Basic

/-!
# Bounds-checked readers

A reader walks a byte buffer through a cursor, may ask an allocator for memory
and may fail.  Every read and every allocation is recorded in the cursor's
trace, failed runs included, so that a run can be judged by what it touched and
not only by what it returned.

Three kinds of rules are provided.  `Preserves` carries an invariant of the
cursor through any run, failing or not.  `Advance` describes what a successful
run consumed.  `Delivers` computes a reader on a buffer whose next bytes are
known.
-/

namespace Geas.Lib

namespace Reader

/-- One observable action of a reader. -/
inductive Access where
  /-- `length` bytes were read starting at `offset`. -/
  | read (offset length : Nat)
  /-- An array of `count` elements was requested with `left` bytes unread. -/
  | array (count left : Nat)
  /-- A block of `length` bytes was requested with `left` bytes unread. -/
  | block (length left : Nat)
  /-- One fixed-size cell was requested. -/
  | cell
  deriving DecidableEq, Repr

/-- Position in the buffer, bytes still unread and the accesses made so far. -/
structure Cursor where
  offset : Nat
  left : Nat
  trace : List Access
  deriving DecidableEq, Repr

/-- An allocator answers each request, given the accesses that came before. -/
abbrev Allocator := List Access → Access → Bool

end Reader

/-- A computation over a cursor that may fail.  The cursor survives a failure. -/
def Reader (ε α : Type) : Type := Reader.Cursor → Except ε α × Reader.Cursor

namespace Reader

instance {ε : Type} : Monad (Reader ε) where
  pure value := fun cursor => (.ok value, cursor)
  bind first next := fun cursor =>
    match first cursor with
    | (.ok value, cursor) => next value cursor
    | (.error fault, cursor) => (.error fault, cursor)

variable {ε α β : Type}

/-- Stop with a fault. -/
def fail (fault : ε) : Reader ε α := fun cursor => (.error fault, cursor)

/-- Stop with a fault unless a condition holds. -/
def require (fault : ε) (condition : Bool) : Reader ε Unit :=
  if condition then pure () else fail fault

/-- Stop with a fault unless the number of unread bytes passes a test. -/
def requireLeft (fault : ε) (test : Nat → Bool) : Reader ε Unit := fun cursor =>
  if test cursor.left then (.ok (), cursor) else (.error fault, cursor)

/-- Read the next `length` bytes, the one gate to the buffer. -/
def take (buffer : List UInt8) (fault : ε) (length : Nat) : Reader ε (List UInt8) :=
  fun cursor =>
    if cursor.left < length then (.error fault, cursor)
    else
      (.ok ((buffer.drop cursor.offset).take length),
        { offset := cursor.offset + length
          left := cursor.left - length
          trace := cursor.trace ++ [.read cursor.offset length] })

/-- Ask for memory.  The request is recorded whether or not it is granted. -/
def allocate (allocator : Allocator) (fault : ε) (request : Nat → Access) : Reader ε Unit :=
  fun cursor =>
    let access := request cursor.left
    (if allocator cursor.trace access then .ok () else .error fault,
      { cursor with trace := cursor.trace ++ [access] })

/-- Run `body` the given number of times, handing it the results so far. -/
def collect (body : List α → Reader ε α) : Nat → List α → Reader ε (List α)
  | 0, results => pure results
  | count + 1, results => do
      let value ← body results
      collect body count (results ++ [value])

@[simp] theorem pure_apply (value : α) (cursor : Cursor) :
    (pure value : Reader ε α) cursor = (.ok value, cursor) := rfl

@[simp] theorem fail_apply (fault : ε) (cursor : Cursor) :
    (fail fault : Reader ε α) cursor = (.error fault, cursor) := rfl

/-- A successful sequence is two successful runs in a row. -/
theorem bind_ok {first : Reader ε α} {next : α → Reader ε β} {cursor last : Cursor} {result : β} :
    (first >>= next) cursor = (.ok result, last) ↔
      ∃ value middle, first cursor = (.ok value, middle) ∧ next value middle = (.ok result, last) := by
  change (match first cursor with
    | (.ok value, cursor) => next value cursor
    | (.error fault, cursor) => (.error fault, cursor)) = _ ↔ _
  rcases first cursor with ⟨outcome | value, middle⟩
  · simp
  · constructor
    · intro run
      exact ⟨value, middle, rfl, run⟩
    · rintro ⟨value', middle', equal, run⟩
      cases equal
      exact run

/-- The second half of a sequence runs where the first one stopped. -/
theorem bind_run {first : Reader ε α} {next : α → Reader ε β} {cursor middle : Cursor} {value : α}
    (run : first cursor = (.ok value, middle)) :
    (first >>= next) cursor = next value middle := by
  change (match first cursor with
    | (.ok value, cursor) => next value cursor
    | (.error fault, cursor) => (.error fault, cursor)) = _
  rw [run]

/-- A fault in the first half is the fault of the sequence. -/
theorem bind_fault {first : Reader ε α} {next : α → Reader ε β} {cursor middle : Cursor} {fault : ε}
    (run : first cursor = (.error fault, middle)) :
    (first >>= next) cursor = (.error fault, middle) := by
  change (match first cursor with
    | (.ok value, cursor) => next value cursor
    | (.error fault, cursor) => (.error fault, cursor)) = _
  rw [run]

theorem require_ok {fault : ε} {condition : Bool} {cursor last : Cursor} {result : Unit} :
    require fault condition cursor = (.ok result, last) ↔ condition = true ∧ cursor = last := by
  cases condition <;> simp [require]

theorem requireLeft_ok {fault : ε} {test : Nat → Bool} {cursor last : Cursor} {result : Unit} :
    requireLeft fault test cursor = (.ok result, last) ↔
      test cursor.left = true ∧ cursor = last := by
  unfold requireLeft
  cases passed : test cursor.left <;> simp

@[simp] theorem fail_ok {fault : ε} {cursor last : Cursor} {result : α} :
    (fail fault : Reader ε α) cursor = (.ok result, last) ↔ False := by
  simp

/-! ## Invariants of any run -/

/-- The run from `cursor`, failing or not, ends where `invariant` holds, and a
failing one ends in an allowed fault. -/
structure KeptAt (invariant : Cursor → Prop) (allowed : ε → Prop) (reader : Reader ε α)
    (cursor : Cursor) : Prop where
  after : invariant (reader cursor).2
  fault : ∀ fault, (reader cursor).1 = .error fault → allowed fault

/-- `invariant` survives every run of the reader, failing runs included, and a
failing run ends in an allowed fault. -/
def Preserves (invariant : Cursor → Prop) (allowed : ε → Prop) (reader : Reader ε α) : Prop :=
  ∀ cursor, invariant cursor → KeptAt invariant allowed reader cursor

section Preserves

variable {invariant : Cursor → Prop} {allowed : ε → Prop}

theorem preserves_pure (value : α) : Preserves invariant allowed (pure value : Reader ε α) :=
  fun _ holds => ⟨holds, fun _ failed => nomatch failed⟩

theorem preserves_fail {fault : ε} (fine : allowed fault) :
    Preserves invariant allowed (fail fault : Reader ε α) := by
  intro cursor holds
  refine ⟨holds, ?_⟩
  rintro _ ⟨⟩
  exact fine

theorem KeptAt.bind {first : Reader ε α} {next : α → Reader ε β} {cursor : Cursor}
    (kept : KeptAt invariant allowed first cursor)
    (nextKeeps : ∀ value, Preserves invariant allowed (next value)) :
    KeptAt invariant allowed (first >>= next) cursor := by
  cases run : first cursor with
  | mk outcome middle =>
      have after : invariant middle := by simpa [run] using kept.after
      cases outcome with
      | error fault =>
          refine ⟨by rwa [bind_fault run], ?_⟩
          rw [bind_fault run]
          rintro _ ⟨⟩
          exact kept.fault fault (by rw [run])
      | ok value =>
          have later := nextKeeps value middle after
          exact ⟨by rw [bind_run run]; exact later.after, by rw [bind_run run]; exact later.fault⟩

theorem preserves_bind {first : Reader ε α} {next : α → Reader ε β}
    (firstKeeps : Preserves invariant allowed first)
    (nextKeeps : ∀ value, Preserves invariant allowed (next value)) :
    Preserves invariant allowed (first >>= next) :=
  fun cursor holds => (firstKeeps cursor holds).bind nextKeeps

theorem preserves_require {fault : ε} (fine : allowed fault) (condition : Bool) :
    Preserves invariant allowed (require fault condition) := by
  cases condition
  · exact preserves_fail fine
  · exact preserves_pure ()

/-- A test on the unread bytes may be used by what follows at the same cursor. -/
theorem preserves_requireLeft_bind {fault : ε} (fine : allowed fault) {test : Nat → Bool}
    {next : Unit → Reader ε β}
    (nextKeeps : ∀ cursor, test cursor.left = true → invariant cursor →
      KeptAt invariant allowed (next ()) cursor) :
    Preserves invariant allowed (requireLeft fault test >>= next) := by
  intro cursor holds
  cases passed : test cursor.left with
  | true =>
      have run : requireLeft fault test cursor = (.ok (), cursor) := by
        simp [requireLeft, passed]
      have later := nextKeeps cursor passed holds
      exact ⟨by rw [bind_run run]; exact later.after, by rw [bind_run run]; exact later.fault⟩
  | false =>
      have run : requireLeft fault test cursor = (.error fault, cursor) := by
        simp [requireLeft, passed]
      refine ⟨by rwa [bind_fault run], ?_⟩
      rw [bind_fault run]
      rintro _ ⟨⟩
      exact fine

theorem preserves_collect {body : List α → Reader ε α}
    (bodyKeeps : ∀ results, Preserves invariant allowed (body results)) (count : Nat)
    (results : List α) : Preserves invariant allowed (collect body count results) := by
  induction count generalizing results with
  | zero => exact preserves_pure results
  | succ count ih => exact preserves_bind (bodyKeeps results) fun value => ih (results ++ [value])

end Preserves

/-- The cursor stands inside the buffer: what it has passed and what it has left
make up the whole. -/
def Cursor.Within (buffer : List UInt8) (cursor : Cursor) : Prop :=
  cursor.offset + cursor.left = buffer.length

/-- Every access of the trace satisfies `safe`, and the cursor is inside. -/
structure Cursor.Safe (buffer : List UInt8) (safe : Access → Prop) (cursor : Cursor) : Prop where
  within : cursor.Within buffer
  accesses : ∀ access ∈ cursor.trace, safe access

theorem preserves_take {buffer : List UInt8} {safe : Access → Prop} {allowed : ε → Prop}
    (inside : ∀ offset length, offset + length ≤ buffer.length → safe (.read offset length))
    {fault : ε} (fine : allowed fault) (length : Nat) :
    Preserves (Cursor.Safe buffer safe) allowed (take buffer fault length) := by
  intro cursor holds
  have within := holds.within
  unfold Cursor.Within at within
  unfold take
  by_cases short : cursor.left < length
  · refine ⟨by simpa [short] using holds, ?_⟩
    simp only [if_pos short]
    rintro _ ⟨⟩
    exact fine
  · refine ⟨?_, by simp [short]⟩
    simp only [if_neg short]
    refine ⟨?_, ?_⟩
    · simp only [Cursor.Within]
      omega
    · intro access membership
      rcases List.mem_append.mp membership with earlier | latest
      · exact holds.accesses access earlier
      · rw [List.mem_singleton.mp latest]
        exact inside cursor.offset length (by omega)

/-- An allocation keeps the trace safe when the request is safe where it is
made. -/
theorem Cursor.Safe.allocate {buffer : List UInt8} {safe : Access → Prop} {allowed : ε → Prop}
    {cursor : Cursor} (holds : cursor.Safe buffer safe) {allocator : Allocator} {fault : ε}
    (fine : allowed fault) {request : Nat → Access} (granted : safe (request cursor.left)) :
    KeptAt (Cursor.Safe buffer safe) allowed (allocate allocator fault request) cursor := by
  refine ⟨⟨holds.within, ?_⟩, ?_⟩
  · intro access membership
    rcases List.mem_append.mp membership with earlier | latest
    · exact holds.accesses access earlier
    · rw [List.mem_singleton.mp latest]
      exact granted
  · intro other failed
    simp only [Reader.allocate] at failed
    split at failed
    · cases failed
    · cases failed
      exact fine

theorem preserves_allocate {buffer : List UInt8} {safe : Access → Prop} {allowed : ε → Prop}
    {allocator : Allocator} {fault : ε} (fine : allowed fault) {request : Nat → Access}
    (granted : ∀ left, safe (request left)) :
    Preserves (Cursor.Safe buffer safe) allowed (allocate allocator fault request) :=
  fun cursor holds => holds.allocate fine (granted cursor.left)

/-! ## What a successful run consumed -/

/-- The run from `first` to `last` consumed exactly `consumed`. -/
structure Advance (buffer : List UInt8) (first : Cursor) (consumed : List UInt8)
    (last : Cursor) : Prop where
  bytes : buffer.drop first.offset = consumed ++ buffer.drop last.offset
  offset : last.offset = first.offset + consumed.length
  within : last.Within buffer

namespace Advance

variable {buffer : List UInt8} {first middle last : Cursor} {front back : List UInt8}

theorem refl (within : first.Within buffer) : Advance buffer first [] first :=
  ⟨rfl, rfl, within⟩

theorem trans (left : Advance buffer first front middle)
    (right : Advance buffer middle back last) : Advance buffer first (front ++ back) last := by
  refine ⟨?_, ?_, right.within⟩
  · rw [left.bytes, right.bytes, List.append_assoc]
  · rw [right.offset, left.offset, List.length_append, Nat.add_assoc]

/-- Bytes consumed and bytes left make up what was there. -/
theorem length (advance : Advance buffer first front last) (within : first.Within buffer) :
    front.length + last.left = first.left := by
  have offset := advance.offset
  have lastWithin := advance.within
  unfold Cursor.Within at within lastWithin
  omega

end Advance

theorem take_ok {buffer : List UInt8} {fault : ε} {length : Nat} {first last : Cursor}
    {bytes : List UInt8} (within : first.Within buffer)
    (run : take buffer fault length first = (.ok bytes, last)) :
    bytes.length = length ∧ Advance buffer first bytes last := by
  unfold Cursor.Within at within
  unfold take at run
  split at run
  · cases run
  · cases run
    have width : ((buffer.drop first.offset).take length).length = length := by
      rw [List.length_take, List.length_drop]
      omega
    refine ⟨width, ?_, ?_, ?_⟩
    · rw [← List.drop_drop, List.take_append_drop]
    · rw [width]
    · simp only [Cursor.Within]
      omega

theorem allocate_ok {buffer : List UInt8} {allocator : Allocator} {fault : ε}
    {request : Nat → Access} {first last : Cursor} {result : Unit}
    (within : first.Within buffer)
    (run : allocate allocator fault request first = (.ok result, last)) :
    Advance buffer first [] last := by
  have moved : last = { first with trace := first.trace ++ [request first.left] } :=
    (congrArg Prod.snd run).symm
  subst moved
  exact ⟨rfl, rfl, within⟩

/-! ## Running on known bytes -/

/-- Wherever the buffer continues with `bytes`, the reader consumes exactly them
and returns `value`. -/
def Delivers (buffer : List UInt8) (reader : Reader ε α) (bytes : List UInt8) (value : α) : Prop :=
  ∀ first rest, first.Within buffer → buffer.drop first.offset = bytes ++ rest →
    ∃ last, reader first = (.ok value, last) ∧ Advance buffer first bytes last

namespace Delivers

variable {buffer : List UInt8}

protected theorem pure (value : α) : Delivers buffer (pure value : Reader ε α) [] value :=
  fun first _ within _ => ⟨first, rfl, Advance.refl within⟩

protected theorem require {fault : ε} {condition : Bool} (holds : condition = true) :
    Delivers buffer (require fault condition) [] () :=
  fun first _ within _ => ⟨first, by simp [require, holds], Advance.refl within⟩

protected theorem take (fault : ε) (bytes : List UInt8) :
    Delivers buffer (take buffer fault bytes.length) bytes bytes := by
  intro cursor rest within next
  have lengths := congrArg List.length next
  rw [List.length_drop, List.length_append] at lengths
  have room := within
  unfold Cursor.Within at room
  have run : take buffer fault bytes.length cursor = (.ok bytes,
      { offset := cursor.offset + bytes.length
        left := cursor.left - bytes.length
        trace := cursor.trace ++ [.read cursor.offset bytes.length] }) := by
    unfold take
    rw [if_neg (by omega), next, List.take_left']
    rfl
  exact ⟨_, run, (take_ok within run).2⟩

protected theorem allocate {allocator : Allocator} {fault : ε}
    (grants : ∀ trace access, allocator trace access = true) (request : Nat → Access) :
    Delivers buffer (allocate allocator fault request) [] () := by
  intro cursor rest within _
  have run : allocate allocator fault request cursor = (.ok (),
      { cursor with trace := cursor.trace ++ [request cursor.left] }) := by
    simp [allocate, grants]
  exact ⟨_, run, allocate_ok within run⟩

protected theorem bind {first : Reader ε α} {next : α → Reader ε β} {front back : List UInt8}
    {value : α} {result : β} (head : Delivers buffer first front value)
    (tail : Delivers buffer (next value) back result) :
    Delivers buffer (first >>= next) (front ++ back) result := by
  intro cursor rest within continues
  rw [List.append_assoc] at continues
  obtain ⟨middle, ran, advance⟩ := head cursor (back ++ rest) within continues
  have remains : buffer.drop middle.offset = back ++ rest :=
    List.append_cancel_left (advance.bytes.symm.trans continues)
  obtain ⟨last, ran', advance'⟩ := tail middle rest advance.within remains
  exact ⟨last, by rw [bind_run ran, ran'], advance.trans advance'⟩

/-- A first half that consumes nothing. -/
theorem silent {first : Reader ε α} {next : α → Reader ε β} {back : List UInt8} {value : α}
    {result : β} (head : Delivers buffer first [] value)
    (tail : Delivers buffer (next value) back result) :
    Delivers buffer (first >>= next) back result :=
  head.bind tail

/-- A second half that consumes nothing. -/
theorem finish {first : Reader ε α} {next : α → Reader ε β} {front : List UInt8} {value : α}
    {result : β} (head : Delivers buffer first front value)
    (tail : Delivers buffer (next value) [] result) :
    Delivers buffer (first >>= next) front result := by
  simpa using head.bind tail

/-- A test on the unread bytes passes when it passes for every amount that
covers what is still to be consumed. -/
theorem requireLeft {fault : ε} {test : Nat → Bool} {next : Unit → Reader ε β}
    {back : List UInt8} {result : β} (passes : ∀ left, back.length ≤ left → test left = true)
    (tail : Delivers buffer (next ()) back result) :
    Delivers buffer (requireLeft fault test >>= next) back result := by
  intro cursor rest within continues
  have lengths := congrArg List.length continues
  rw [List.length_drop, List.length_append] at lengths
  have room := within
  unfold Cursor.Within at room
  have run : Reader.requireLeft fault test cursor = (.ok (), cursor) := by
    simp [Reader.requireLeft, passes cursor.left (by omega)]
  obtain ⟨last, ran, advance⟩ := tail cursor rest within continues
  exact ⟨last, by rw [bind_run run, ran], advance⟩

end Delivers

end Reader

end Geas.Lib
