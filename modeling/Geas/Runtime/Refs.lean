import Geas.Runtime.Instance
import Mathlib.Data.List.Forall2

/-!
# Reference arguments

A reference argument names a cell of host memory.  Its value is copied into a
slot of the argument frame when the call is made, the body works on the slot, and
the slot is written back when the outcome is delivered, by the host's callback or
in place.  Only scalars and strings pass by reference.

Host memory is a parameter: what a cell reads as at a type, and a store of one
value.  The slots of a frame are a function of their position, so there is one for
each reference.
-/

namespace Geas.Runtime

open Geas.Abi

/-- Host memory as the runtime touches it. -/
structure HostMemory (H : Type) where
  load : H → Nat → GeasTypeTag → GeasValue
  load_ty : ∀ host cell tag, (load host cell tag).ty = tag.code
  store : H → Nat → GeasValue → H

/-- A reference argument; `writeBack` is the host's callback applied to its own
`host_ptr` and `user`. -/
structure GeasRef (H : Type) where
  hostPtr : Option Nat
  ty : UInt32
  writeBack : Option (H → GeasValue → H)

variable {H : Type}

/-- The tag of a type that passes by reference. -/
def byRef (ty : UInt32) : Option GeasTypeTag :=
  match GeasTypeTag.ofCode ty with
  | some .int => some .int
  | some .uint => some .uint
  | some .float => some .float
  | some .bool => some .bool
  | some .byte => some .byte
  | some .char => some .char
  | some .string => some .string
  | _ => none

/-- `ref_copy_in`; `granted` tells whether the copy of a string gets memory. -/
def refCopyIn (memory : HostMemory H) (host : H) (granted : Bool) (r : GeasRef H) :
    Except GeasStatus GeasValue :=
  match r.hostPtr with
  | none => .error .errType
  | some cell =>
      match byRef r.ty with
      | none => .error .errType
      | some tag =>
          if tag = .string ∧ granted = false then .error .errOom
          else .ok (memory.load host cell tag)

/-- `ref_write_back`.  A NULL `host_ptr` does not get past the copy in. -/
def refWriteBack (memory : HostMemory H) (host : H) (r : GeasRef H) (slot : GeasValue) :
    GeasStatus × H :=
  if slot.ty ≠ r.ty then (.errType, host)
  else
    match r.writeBack with
    | some callback => (.ok, callback host slot)
    | none =>
        match byRef r.ty, r.hostPtr with
        | some _, some cell => (.ok, memory.store host cell slot)
        | _, _ => (.errType, host)

/-- The references with their slots. -/
def slotted (refs : List (GeasRef H)) (slots : Nat → GeasValue) : List (GeasRef H × GeasValue) :=
  refs.mapIdx fun i r => (r, slots i)

/-- The second loop of `write_back_refs`, which stops at the first failure. -/
def writeEach (memory : HostMemory H) : H → List (GeasRef H × GeasValue) → GeasStatus × H
  | host, [] => (.ok, host)
  | host, (r, slot) :: rest =>
      if (refWriteBack memory host r slot).1 ≠ .ok then refWriteBack memory host r slot
      else writeEach memory (refWriteBack memory host r slot).2 rest

/-- `write_back_refs`: every slot's type is checked before the first write. -/
def writeBackRefs (memory : HostMemory H) (host : H) (refs : List (GeasRef H))
    (slots : Nat → GeasValue) : GeasStatus × H :=
  if (slotted refs slots).any fun (r, slot) => slot.ty ≠ r.ty then (.errType, host)
  else writeEach memory host (slotted refs slots)

/-- A fulfillment as the host calls it.  `args` is what allocating the frame and
copying the value arguments into it answers, `refsHeap` whether the copy of the
references gets memory, `strings` whether the copy of the `i`-th one's string
does. -/
structure Call (H : Type) where
  pledgeName : String
  nargs : Nat
  argsNull : Bool
  refs : List (GeasRef H)
  refsNull : Bool
  args : GeasStatus
  refsHeap : Bool
  strings : Nat → Bool

/-- The loop over the references in `prepare_frame`. -/
def copyRefs (memory : HostMemory H) (host : H) (strings : Nat → Bool) :
    List (GeasRef H) → Nat → Except GeasStatus (List GeasValue)
  | [], _ => .ok []
  | r :: rest, i =>
      match refCopyIn memory host (strings i) r with
      | .error status => .error status
      | .ok slot =>
          match copyRefs memory host strings rest (i + 1) with
          | .error status => .error status
          | .ok slots => .ok (slot :: slots)

/-- `prepare_frame`, with the slots of the references. -/
def prepareFrame (memory : HostMemory H) (host : H) (call : Call H) :
    Except GeasStatus (List GeasValue) :=
  if call.nargs + call.refs.length = 0 then .ok []
  else if call.args ≠ .ok then .error call.args
  else copyRefs memory host call.strings call.refs 0

/-- What the validation of a call looks at. -/
def Call.request (call : Call H) (frame : GeasStatus) : Request :=
  ⟨call.pledgeName, call.nargs, call.refs.length, call.argsNull, call.refsNull, frame⟩

/-- The slots of a frame by position. -/
def slotsOf (copied : List GeasValue) (i : Nat) : GeasValue := copied.getD i .zero

/-- What copying in refuses, writing back never meets. -/
def Writable (r : GeasRef H) : Prop := (byRef r.ty).isSome = true ∧ r.hostPtr.isSome = true

theorem writable_of_copied {memory : HostMemory H} {host : H} {granted : Bool} {r : GeasRef H}
    {slot : GeasValue} (copied : refCopyIn memory host granted r = .ok slot) : Writable r := by
  unfold refCopyIn at copied
  split at copied
  · cases copied
  · next cell pointer =>
    split at copied
    · cases copied
    · next tag scalar =>
      exact ⟨by rw [scalar]; rfl, by rw [pointer]; rfl⟩

theorem writable_of_copyRefs {memory : HostMemory H} {host : H} {strings : Nat → Bool}
    {refs : List (GeasRef H)} {i : Nat} {copied : List GeasValue}
    (done : copyRefs memory host strings refs i = .ok copied) : ∀ r ∈ refs, Writable r := by
  induction refs generalizing i copied with
  | nil => nofun
  | cons r rest ih =>
      simp only [copyRefs] at done
      split at done
      · cases done
      · next slot first =>
        split at done
        · cases done
        · next slots looped =>
          exact List.forall_mem_cons.mpr ⟨writable_of_copied first, ih looped⟩

theorem writable_of_prepareFrame {memory : HostMemory H} {host : H} {call : Call H}
    {copied : List GeasValue} (done : prepareFrame memory host call = .ok copied) :
    ∀ r ∈ call.refs, Writable r := by
  unfold prepareFrame at done
  split at done
  · next empty =>
    have none : call.refs = [] := List.eq_nil_of_length_eq_zero (Nat.add_eq_zero_iff.mp empty).2
    rw [none]
    nofun
  · split at done
    · cases done
    · exact writable_of_copyRefs done

/-- A copy that fails does not fail with `GEAS_OK`. -/
theorem copyRefs_honest (memory : HostMemory H) (host : H) (strings : Nat → Bool)
    (refs : List (GeasRef H)) (i : Nat) : copyRefs memory host strings refs i ≠ .error .ok := by
  induction refs generalizing i with
  | nil => nofun
  | cons r rest ih =>
      intro failed
      simp only [copyRefs] at failed
      split at failed
      · next status fault =>
        unfold refCopyIn at fault
        split at fault
        · cases fault
          cases failed
        · split at fault
          · cases fault
            cases failed
          · split at fault
            · cases fault
              cases failed
            · cases fault
      · split at failed
        · next looped => exact ih (i + 1) (looped.trans failed)
        · cases failed

theorem prepareFrame_honest (memory : HostMemory H) (host : H) (call : Call H) :
    prepareFrame memory host call ≠ .error .ok := by
  intro failed
  unfold prepareFrame at failed
  split at failed
  · cases failed
  · split at failed
    · next fault => exact fault (Except.error.inj failed)
    · exact copyRefs_honest memory host call.strings call.refs 0 failed

/-- Every write of the list, in order. -/
def written (memory : HostMemory H) (host : H) (pairs : List (GeasRef H × GeasValue)) : H :=
  pairs.foldl (fun host (r, slot) => (refWriteBack memory host r slot).2) host

theorem refWriteBack_ok (memory : HostMemory H) (host : H) {r : GeasRef H} {slot : GeasValue}
    (writable : Writable r) (same : slot.ty = r.ty) : (refWriteBack memory host r slot).1 = .ok := by
  obtain ⟨tag, scalar⟩ := Option.isSome_iff_exists.mp writable.1
  obtain ⟨cell, pointer⟩ := Option.isSome_iff_exists.mp writable.2
  rw [refWriteBack, if_neg (not_not.mpr same)]
  cases r.writeBack with
  | some callback => rfl
  | none => rw [scalar, pointer]

theorem writeEach_eq (memory : HostMemory H) (host : H) {pairs : List (GeasRef H × GeasValue)}
    (ok : ∀ pair ∈ pairs, Writable pair.1 ∧ pair.2.ty = pair.1.ty) :
    writeEach memory host pairs = (.ok, written memory host pairs) := by
  induction pairs generalizing host with
  | nil => rfl
  | cons pair rest ih =>
      obtain ⟨writable, same⟩ := ok pair List.mem_cons_self
      have first := refWriteBack_ok memory host writable same
      rw [writeEach, if_neg (not_not.mpr first),
        ih _ fun other membership => ok other (List.mem_cons_of_mem _ membership)]
      rfl

/-- Writing back writes every slot, or none. -/
theorem writeBackRefs_all_or_none (memory : HostMemory H) (host : H) {refs : List (GeasRef H)}
    (slots : Nat → GeasValue) (writable : ∀ r ∈ refs, Writable r) :
    writeBackRefs memory host refs slots = (.errType, host) ∨
      writeBackRefs memory host refs slots = (.ok, written memory host (slotted refs slots)) := by
  unfold writeBackRefs
  split
  · exact Or.inl rfl
  · next agree =>
    refine Or.inr (writeEach_eq memory host fun pair membership => ⟨?_, ?_⟩)
    · obtain ⟨i, inside, rfl⟩ := List.mem_mapIdx.mp membership
      exact writable _ (List.getElem_mem inside)
    · by_contra mismatch
      exact agree (List.any_eq_true.mpr ⟨pair, membership, by simpa using mismatch⟩)

/-! ## Slots that the body leaves alone -/

theorem code_of_byRef {ty : UInt32} {tag : GeasTypeTag} (scalar : byRef ty = some tag) :
    tag.code = ty := by
  unfold byRef at scalar
  split at scalar
  all_goals first
    | cases scalar
      exact (GeasTypeTag.code_of_ofCode ‹_›).symm
    | cases scalar

/-- A slot starts with the type of its reference. -/
theorem refCopyIn_ty {memory : HostMemory H} {host : H} {granted : Bool} {r : GeasRef H}
    {slot : GeasValue} (copied : refCopyIn memory host granted r = .ok slot) : slot.ty = r.ty := by
  unfold refCopyIn at copied
  split at copied
  · cases copied
  · split at copied
    · cases copied
    · next tag scalar =>
      split at copied
      · cases copied
      · cases copied
        exact (memory.load_ty ..).trans (code_of_byRef scalar)

theorem copyRefs_ty {memory : HostMemory H} {host : H} {strings : Nat → Bool}
    {refs : List (GeasRef H)} {i : Nat} {copied : List GeasValue}
    (done : copyRefs memory host strings refs i = .ok copied) :
    List.Forall₂ (fun r slot => slot.ty = r.ty) refs copied := by
  induction refs generalizing i copied with
  | nil =>
      cases done
      exact .nil
  | cons r rest ih =>
      simp only [copyRefs] at done
      split at done
      · cases done
      · next slot first =>
        split at done
        · cases done
        · next slots looped =>
          cases done
          exact .cons (refCopyIn_ty first) (ih looped)

theorem prepareFrame_ty {memory : HostMemory H} {host : H} {call : Call H}
    {copied : List GeasValue} (done : prepareFrame memory host call = .ok copied) :
    List.Forall₂ (fun r slot => slot.ty = r.ty) call.refs copied := by
  unfold prepareFrame at done
  split at done
  · next empty =>
    cases done
    rw [List.eq_nil_of_length_eq_zero (Nat.add_eq_zero_iff.mp empty).2]
    exact .nil
  · split at done
    · cases done
    · exact copyRefs_ty done

/-- What was copied in and left alone can be written back: a type error there is the
body's doing. -/
theorem writeBackRefs_untouched {memory : HostMemory H} {host : H} {call : Call H}
    {copied : List GeasValue} (prepared : prepareFrame memory host call = .ok copied) (host' : H) :
    writeBackRefs memory host' call.refs (slotsOf copied) =
      (.ok, written memory host' (slotted call.refs (slotsOf copied))) := by
  have agree : ∀ pair ∈ slotted call.refs (slotsOf copied), pair.2.ty = pair.1.ty := by
    intro pair membership
    obtain ⟨i, inside, rfl⟩ := List.mem_mapIdx.mp membership
    obtain ⟨same, types⟩ := List.forall₂_iff_get.mp (prepareFrame_ty prepared)
    have covered : i < copied.length := by
      rw [← same]
      exact inside
    have slot : slotsOf copied i = copied.get ⟨i, covered⟩ := by simp [slotsOf, covered]
    rw [slot]
    exact types i inside covered
  unfold writeBackRefs
  rw [if_neg]
  · apply writeEach_eq
    intro pair membership
    refine ⟨?_, agree pair membership⟩
    obtain ⟨i, inside, rfl⟩ := List.mem_mapIdx.mp membership
    exact writable_of_prepareFrame prepared _ (List.getElem_mem inside)
  · intro mismatch
    obtain ⟨pair, membership, differs⟩ := List.any_eq_true.mp mismatch
    exact absurd (agree pair membership) (by simpa using differs)

end Geas.Runtime
