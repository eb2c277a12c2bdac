import Geas.Runtime.Park
import Geas.Runtime.Copies

/-!
# Signing

Sign resolves the descriptor and the dispatch table, builds the instance and publishes
it, and every refusal in between leaves nothing behind.  This module says exactly when
it answers `GEAS_OK` and what it publishes then.  Memory does not run out here.
-/

namespace Geas.Runtime

open Geas.Abi

/-! ## The dispatch table -/

/-- A pledge body. -/
abbrev PledgeFn := Nat

/-- The address of a pledge descriptor: its contract and its place there. -/
abbrev PledgeSite := String × Nat

/-- The runtime as sign uses it.  `bodies` is the `fn` field of the registered pledge
descriptors. -/
structure SignRuntime extends GeasRuntime where
  bindings : List (PledgeSite × PledgeFn)
  bodies : PledgeSite → Option PledgeFn

/-- `find_binding`. -/
def findBinding (rt : SignRuntime) (site : PledgeSite) : Option PledgeFn :=
  (rt.bindings.find? fun binding => binding.1 == site).map Prod.snd

/-- What a pledge runs: the host's binding before the compiled body. -/
def pledgeFn (rt : SignRuntime) (site : PledgeSite) : Option PledgeFn :=
  match findBinding rt site with
  | some fn => some fn
  | none => rt.bodies site

/-- The loop of `resolve_dispatch`, over the pledges from `i` on. -/
def resolveFrom (rt : SignRuntime) (contract : String) (i : Nat) :
    Nat → Except GeasStatus (List PledgeFn)
  | 0 => .ok []
  | left + 1 =>
      match pledgeFn rt (contract, i) with
      | none => .error .errUnbound
      | some fn =>
          match resolveFrom rt contract (i + 1) left with
          | .error status => .error status
          | .ok fns => .ok (fn :: fns)

/-- `resolve_dispatch`. -/
def resolveDispatch (rt : SignRuntime) (d : GeasContractDesc) : Except GeasStatus (List PledgeFn) :=
  resolveFrom rt d.name 0 d.npledges

/-! ## The store side -/

/-- What sign finds around it: the answers of the database behind a dsn to the open and
to each schema's reconcile, and the clock. -/
structure SignEnv where
  storeOpen : List UInt8 → GeasStatus
  reconcile : List UInt8 → Nat → GeasStatus
  clock : Int64

/-- The reconcile loop of `store_sign_reconcile`, over the schemas from `i` on. -/
def reconcileFrom (env : SignEnv) (dsn : List UInt8) (i : Nat) : Nat → GeasStatus
  | 0 => .ok
  | left + 1 =>
      if env.reconcile dsn i ≠ .ok then env.reconcile dsn i
      else reconcileFrom env dsn (i + 1) left

/-- `store_sign_reconcile` over the vow values bound so far. -/
def signStore (env : SignEnv) (d : GeasContractDesc) (vowVals : List GeasValue) : GeasStatus :=
  if d.nschemas = 0 then .ok
  else
    match (findVowDesc d "dsn").bind fun slot => vowVals[(slot : Nat)]? with
    | some (.string _ (some dsn)) =>
        if env.storeOpen dsn ≠ .ok then env.storeOpen dsn
        else reconcileFrom env dsn 0 d.nschemas
    | _ => .errUnbound

/-! ## Sign -/

/-- What a call of sign leaves behind: its status, `*out` with its dispatch table, and
the runtime. -/
structure SignResult where
  status : GeasStatus
  out : Option (Instance × List PledgeFn)
  rt : SignRuntime

/-- `geas_contract_sign`. -/
def geasContractSign (env : SignEnv) (rt : SignRuntime) (contractName : String)
    (vows : List GeasVowBinding) (expectedHash : UInt64) : Option SignResult :=
  match findDesc rt.toGeasRuntime contractName with
  | none => some ⟨.errName, none, rt⟩
  | some d =>
      if expectedHash ≠ 0 ∧ expectedHash ≠ d.shapeHash then some ⟨.errVersion, none, rt⟩
      else
        match resolveDispatch rt d with
        | .error status => some ⟨status, none, rt⟩
        | .ok fns =>
            match bindVows d vows with
            | none => none
            | some (.error status) => some ⟨status, none, rt⟩
            | some (.ok vowVals) =>
                let status := signStore env d vowVals
                if status ≠ .ok then some ⟨status, none, rt⟩
                else if rt.instances.length = maxInstances then some ⟨.errOom, none, rt⟩
                else
                  let c : Instance := ⟨d, freshContract d vowVals env.clock⟩
                  some ⟨.ok, some (c, fns), { rt with instances := rt.instances ++ [c] }⟩

/-! ## Copying an override -/

mutual
/-- Every block inside the value can be read. -/
def Readable : GeasValue → Prop
  | .string _ bytes => bytes.isSome
  | .list _ _ (some elements) | .map _ _ (some elements) => AllReadable elements
  | .tuple _ (some fields) | .record _ (some fields) | .sum _ (some fields) => AllReadable fields
  | .list _ _ none | .map _ _ none | .tuple _ none | .record _ none | .sum _ none => False
  | .option _ (some content) | .result _ (some content) => Readable content
  | _ => True

/-- `Readable` of every element. -/
def AllReadable : List GeasValue → Prop
  | [] => True
  | value :: rest => Readable value ∧ AllReadable rest
end

mutual
/-- Every type code inside the value is of the enumeration. -/
def DefinedTags : GeasValue → Prop
  | .list _ _ (some elements) | .map _ _ (some elements) => AllDefinedTags elements
  | .tuple _ (some fields) | .record _ (some fields) | .sum _ (some fields) =>
      AllDefinedTags fields
  | .option _ (some content) | .result _ (some content) => DefinedTags content
  | .unknown _ _ _ => False
  | _ => True

/-- `DefinedTags` of every element. -/
def AllDefinedTags : List GeasValue → Prop
  | [] => True
  | value :: rest => DefinedTags value ∧ AllDefinedTags rest
end

/-- A copy of what can be read succeeds exactly when a condition holds. -/
inductive CopyEnds {α : Type} (allowed : Prop) (copy : α) : Copy α → Prop where
  | copied (allows : allowed) : CopyEnds allowed copy (some (.ok copy))
  | refused (fails : ¬ allowed) : CopyEnds allowed copy (some (.error .errType))

namespace CopyEnds

variable {α β : Type} {allowed allowed' : Prop} {copy : α} {copy' : β} {action : Copy α}

/-- A copy followed by a step that cannot fail. -/
theorem map (ends : CopyEnds allowed copy action) (next : α → β) :
    CopyEnds allowed (next copy) (action >>= fun value => pure (next value)) := by
  cases ends with
  | copied allows => exact .copied allows
  | refused fails => exact .refused fails

/-- Two copies in a row. -/
theorem both {action' : Copy β} (head : CopyEnds allowed copy action)
    (tail : CopyEnds allowed' copy' action') {γ : Type} (next : α → β → γ) :
    CopyEnds (allowed ∧ allowed') (next copy copy')
      (action >>= fun value => action' >>= fun value' => pure (next value value')) := by
  cases head with
  | refused fails => exact .refused fun both => fails both.1
  | copied allows =>
      cases tail with
      | copied allows' => exact .copied ⟨allows, allows'⟩
      | refused fails => exact .refused fun both => fails both.2

end CopyEnds

mutual
theorem deepCopy_ends {value : GeasValue} (readable : Readable value) :
    CopyEnds (DefinedTags value) (copied value) (geasValueDeepCopy value) := by
  cases value with
  | string tag bytes =>
      cases bytes with
      | none => cases readable
      | some bytes => exact .copied trivial
  | list tag elemTy data =>
      cases data with
      | none => cases readable
      | some elements =>
          exact (deepCopyAll_ends readable).map fun copies =>
            GeasValue.list tag elemTy (some copies)
  | map tag elemTy data =>
      cases data with
      | none => cases readable
      | some slots =>
          exact (deepCopyAll_ends readable).map fun copies =>
            GeasValue.map tag elemTy (some copies)
  | tuple tag data =>
      cases data with
      | none => cases readable
      | some fields =>
          exact (deepCopyAll_ends readable).map fun copies =>
            GeasValue.tuple tag (some copies)
  | record tag data =>
      cases data with
      | none => cases readable
      | some fields =>
          exact (deepCopyAll_ends readable).map fun copies =>
            GeasValue.record tag (some copies)
  | sum tag data =>
      cases data with
      | none => cases readable
      | some fields =>
          exact (deepCopyAll_ends readable).map fun copies =>
            GeasValue.sum tag (some copies)
  | option tag box =>
      cases box with
      | none => exact .copied trivial
      | some content =>
          exact (deepCopy_ends (show Readable content from readable)).map fun copy =>
            GeasValue.option tag (some copy)
  | result tag box =>
      cases box with
      | none => exact .copied trivial
      | some content =>
          exact (deepCopy_ends (show Readable content from readable)).map fun copy =>
            GeasValue.result tag (some copy)
  | unknown => exact .refused id
  | unit | int | uint | float | bool | byte | char | pledgeRef | inst => exact .copied trivial

theorem deepCopyAll_ends {values : List GeasValue} (readable : AllReadable values) :
    CopyEnds (AllDefinedTags values) (copiedAll values) (deepCopyAll values) := by
  cases values with
  | nil => exact .copied trivial
  | cons value rest =>
      exact (deepCopy_ends readable.1).both (deepCopyAll_ends readable.2) (· :: ·)
end

theorem copyVowValue_ends {value : GeasValue} (readable : Readable value) :
    CopyEnds (value.ty ≠ GeasTypeTag.inst.code ∧ DefinedTags value) (copied value)
      (copyVowValue value) := by
  unfold copyVowValue
  split
  · next handle => exact .refused fun both => both.1 handle
  · next other =>
    have ends := deepCopy_ends readable
    generalize geasValueDeepCopy value = attempt at ends ⊢
    cases ends with
    | copied holds => exact .copied ⟨other, holds⟩
    | refused fails => exact .refused fun both => fails both.2

/-! ## Vows -/

/-- An override of a vow: one under its name, where no vow before it has that name. -/
def overrides (d : GeasContractDesc) (slot : Fin d.vows.length) (binding : GeasVowBinding) : Bool :=
  binding.name.bind (findVowDesc d) == some slot

/-- An override sign accepts: it names a declared vow, carries that vow's type, is no
instance handle and uses only defined type codes. -/
def ValidOverride (d : GeasContractDesc) (binding : GeasVowBinding) : Prop :=
  ∃ slot, binding.name.bind (findVowDesc d) = some slot ∧
    binding.value.ty = (d.vows.get slot).ty ∧
    binding.value.ty ≠ GeasTypeTag.inst.code ∧ DefinedTags binding.value

/-- The last override of a vow. -/
def lastOverride (d : GeasContractDesc) (vows : List GeasVowBinding) (slot : Fin d.vows.length) :
    Option GeasVowBinding :=
  vows.reverse.find? (overrides d slot)

/-- The value a vow is signed with: its last override, else its default. -/
def vowValue (d : GeasContractDesc) (vows : List GeasVowBinding) (slot : Fin d.vows.length) :
    Option GeasValue :=
  match lastOverride d vows slot with
  | some binding => some (copied binding.value)
  | none => (d.vows.get slot).default.map copied

/-- Every default can be copied. -/
def DefaultsCopyable (d : GeasContractDesc) : Prop :=
  ∀ vow ∈ d.vows, ∀ value, vow.default = some value →
    copyVowValue value = some (.ok (copied value))

variable {d : GeasContractDesc}

theorem lastOverride_cons (binding : GeasVowBinding) (rest : List GeasVowBinding)
    (slot : Fin d.vows.length) :
    lastOverride d (binding :: rest) slot =
      match lastOverride d rest slot with
      | some later => some later
      | none => if overrides d slot binding then some binding else none := by
  unfold lastOverride
  rw [List.reverse_cons, List.find?_append]
  cases rest.reverse.find? (overrides d slot) with
  | some later => rfl
  | none =>
      rw [Option.none_or, List.find?_cons]
      split <;> simp [*]

/-- The slots a successful override loop leaves. -/
def Overridden (d : GeasContractDesc) (vows : List GeasVowBinding)
    (slots result : List (Option GeasValue)) : Prop :=
  ∀ slot : Fin d.vows.length, result[(slot : Nat)]? =
    match lastOverride d vows slot with
    | some binding => some (some (copied binding.value))
    | none => slots[(slot : Nat)]?

/-- The override loop accepts exactly the valid overrides. -/
theorem bindOverrides_ends {vows : List GeasVowBinding} {slots : List (Option GeasValue)}
    (readable : ∀ binding ∈ vows, Readable binding.value) (whole : slots.length = d.vows.length) :
    (∃ result, bindOverrides d vows slots = some (.ok result) ∧
      (∀ binding ∈ vows, ValidOverride d binding) ∧ result.length = d.vows.length ∧
      Overridden d vows slots result) ∨
    ∃ status, status ≠ .ok ∧ bindOverrides d vows slots = some (.error status) ∧
      ¬ ∀ binding ∈ vows, ValidOverride d binding := by
  induction vows generalizing slots with
  | nil => exact .inl ⟨slots, rfl, List.forall_mem_nil _, whole, fun _ => rfl⟩
  | cons binding rest ih =>
      have first := readable binding List.mem_cons_self
      have refuse : ¬ ValidOverride d binding → ¬ ∀ b ∈ binding :: rest, ValidOverride d b :=
        fun bad all => bad (all binding List.mem_cons_self)
      rw [bindOverrides]
      cases named : binding.name.bind (findVowDesc d) with
      | none =>
          refine .inr ⟨.errName, by decide, rfl, refuse ?_⟩
          rintro ⟨slot, found, -⟩
          rw [named] at found
          cases found
      | some slot =>
          dsimp only
          by_cases typed : binding.value.ty = (d.vows.get slot).ty
          · rw [if_neg (not_not.mpr typed)]
            generalize copyAttempt : copyVowValue binding.value = attempt
            have ends := copyVowValue_ends first
            rw [copyAttempt] at ends
            cases ends with
            | refused fails =>
                refine .inr ⟨.errType, by decide, rfl, refuse ?_⟩
                rintro ⟨_, _, _, valid⟩
                exact fails valid
            | copied valid =>
                have kept : (slots.set slot (some (copied binding.value))).length =
                    d.vows.length := by rw [List.length_set, whole]
                have accepted : ValidOverride d binding := ⟨slot, named, typed, valid⟩
                rcases ih (fun b mem => readable b (List.mem_cons_of_mem _ mem)) kept with
                  ⟨result, done, allValid, length, filled⟩ | ⟨status, failed, done, someBad⟩
                · refine .inl ⟨result, done, ?_, length, fun other => ?_⟩
                  · exact List.forall_mem_cons.mpr ⟨accepted, allValid⟩
                  · rw [filled other, lastOverride_cons]
                    cases lastOverride d rest other with
                    | some later => rfl
                    | none =>
                        dsimp only
                        by_cases own : slot = other
                        · subst own
                          rw [List.getElem?_set_self (by omega), if_pos (by simp [overrides, named])]
                        · rw [List.getElem?_set_ne (by omega), if_neg (by simp [overrides, named, own])]
                · refine .inr ⟨status, failed, done, fun all => someBad fun b mem => ?_⟩
                  exact all b (List.mem_cons_of_mem _ mem)
          · rw [if_pos typed]
            refine .inr ⟨.errType, by decide, rfl, refuse ?_⟩
            rintro ⟨slot', found, typed', -⟩
            rw [named] at found
            cases found
            exact typed typed'

/-- What the default loop makes of an entry. -/
def settled (entry : GeasVowDesc × Option GeasValue) : Option GeasValue :=
  match entry.2 with
  | some value => some value
  | none => entry.1.default.map copied

/-- The default loop needs a value or a default in every slot. -/
theorem bindDefaults_ends {entries : List (GeasVowDesc × Option GeasValue)}
    (copyable : ∀ entry ∈ entries, ∀ value, entry.1.default = some value →
      copyVowValue value = some (.ok (copied value))) :
    (∃ values, bindDefaults entries = some (.ok values) ∧
      entries.map settled = values.map some) ∨
    bindDefaults entries = some (.error .errUnbound) ∧ ∃ entry ∈ entries, settled entry = none := by
  induction entries with
  | nil => exact .inl ⟨[], rfl, rfl⟩
  | cons entry rest ih =>
      obtain ⟨vow, bound⟩ := entry
      have later := ih fun entry mem => copyable entry (List.mem_cons_of_mem _ mem)
      cases bound with
      | some value =>
          rw [bindDefaults]
          rcases later with ⟨values, done, same⟩ | ⟨done, entry, mem, unbound⟩
          · exact .inl ⟨value :: values, by rw [done]; rfl, by rw [List.map_cons, same]; rfl⟩
          · exact .inr ⟨by rw [done]; rfl, entry, List.mem_cons_of_mem _ mem, unbound⟩
      | none =>
          rw [bindDefaults]
          cases fallback : vow.default with
          | none =>
              exact .inr ⟨rfl, (vow, none), List.mem_cons_self, by rw [settled, fallback]; rfl⟩
          | some value =>
              dsimp only
              rw [copyable (vow, none) List.mem_cons_self value fallback]
              rcases later with ⟨values, done, same⟩ | ⟨done, entry, mem, unbound⟩
              · refine .inl ⟨copied value :: values, by rw [done]; rfl, ?_⟩
                rw [List.map_cons, same, settled, fallback]
                rfl
              · exact .inr ⟨by rw [done]; rfl, entry, List.mem_cons_of_mem _ mem, unbound⟩

theorem settled_zip {vows : List GeasVowBinding} {result : List (Option GeasValue)}
    (length : result.length = d.vows.length)
    (filled : Overridden d vows (List.replicate d.vows.length none) result)
    (slot : Fin d.vows.length) :
    ((d.vows.zip result).map settled)[(slot : Nat)]? = some (vowValue d vows slot) := by
  have here : d.vows[(slot : Nat)]? = some (d.vows.get slot) :=
    List.getElem?_eq_getElem slot.2
  obtain ⟨bound, at_slot⟩ : ∃ bound, result[(slot : Nat)]? = some bound :=
    ⟨_, List.getElem?_eq_getElem (by omega)⟩
  rw [List.getElem?_map, List.zip, List.getElem?_zipWith, here, at_slot]
  have filled := filled slot
  rw [at_slot] at filled
  rw [vowValue]
  cases last : lastOverride d vows slot with
  | some binding =>
      rw [last] at filled
      cases filled
      rfl
  | none =>
      rw [last] at filled
      dsimp only at filled
      rw [List.getElem?_replicate, if_pos slot.2] at filled
      cases filled
      rfl

/-- Binding accepts exactly the valid overrides that leave no vow without a value. -/
theorem bindVows_ends {vows : List GeasVowBinding}
    (readable : ∀ binding ∈ vows, Readable binding.value) (copyable : DefaultsCopyable d)
    (capacity : d.vows.length ≤ maxVows) :
    (∃ values, bindVows d vows = some (.ok values) ∧
      (∀ binding ∈ vows, ValidOverride d binding) ∧
      ∀ slot : Fin d.vows.length, ∃ value, values[(slot : Nat)]? = some value ∧
        vowValue d vows slot = some value) ∨
    ∃ status, status ≠ .ok ∧ bindVows d vows = some (.error status) ∧
      ¬ ((∀ binding ∈ vows, ValidOverride d binding) ∧
        ∀ slot, (vowValue d vows slot).isSome) := by
  rw [bindVows]
  by_cases none : d.vows.length = 0
  · rw [if_pos none]
    cases vows with
    | nil =>
        refine .inl ⟨[], rfl, nofun, fun slot => ?_⟩
        exact absurd slot.2 (by omega)
    | cons binding rest =>
        refine .inr ⟨.errName, nofun, rfl, fun both => ?_⟩
        obtain ⟨slot, -⟩ := both.1 binding List.mem_cons_self
        exact absurd slot.2 (by omega)
  · rw [if_neg none, if_neg (by omega)]
    rcases bindOverrides_ends readable (List.length_replicate (n := d.vows.length)) with
      ⟨result, done, valid, length, filled⟩ | ⟨status, failed, done, bad⟩
    · have entry_copyable : ∀ entry ∈ d.vows.zip result, ∀ value,
          entry.1.default = some value → copyVowValue value = some (.ok (copied value)) :=
        fun entry mem value => copyable entry.1 (List.of_mem_zip mem).1 value
      rw [done]
      change _ ∨ ∃ status, _ ∧ bindDefaults _ = _ ∧ _
      rcases bindDefaults_ends entry_copyable with ⟨values, done, same⟩ | ⟨done, entry, mem, unbound⟩
      · refine .inl ⟨values, done, valid, fun slot => ?_⟩
        have at_slot := settled_zip length filled slot
        rw [same, List.getElem?_map, Option.map_eq_some_iff] at at_slot
        obtain ⟨value, at_slot, same⟩ := at_slot
        exact ⟨value, at_slot, same.symm⟩
      · refine .inr ⟨.errUnbound, nofun, done, fun both => ?_⟩
        obtain ⟨i, bound, rfl⟩ := List.mem_iff_getElem.mp mem
        have inside : i < d.vows.length := by
          rw [List.length_zip] at bound
          omega
        have at_slot := settled_zip length filled ⟨i, inside⟩
        rw [List.getElem?_map, List.getElem?_eq_getElem bound, Option.map_some, unbound] at at_slot
        have given := both.2 ⟨i, inside⟩
        rw [← Option.some.inj at_slot] at given
        cases given
    · rw [done]
      exact .inr ⟨status, failed, rfl, fun both => bad both.1⟩

/-! ## Dispatch and store -/

theorem resolveFrom_ends (rt : SignRuntime) (contract : String) (i left : Nat) :
    (∃ fns, resolveFrom rt contract i left = .ok fns ∧
      ∀ j < left, (pledgeFn rt (contract, i + j)).isSome) ∨
    resolveFrom rt contract i left = .error .errUnbound ∧
      ∃ j < left, pledgeFn rt (contract, i + j) = none := by
  induction left generalizing i with
  | zero => exact .inl ⟨[], rfl, nofun⟩
  | succ left ih =>
      rw [resolveFrom]
      cases here : pledgeFn rt (contract, i) with
      | none => exact .inr ⟨rfl, 0, Nat.succ_pos left, here⟩
      | some fn =>
          dsimp only
          rcases ih (i + 1) with ⟨fns, done, all⟩ | ⟨done, j, below, unbound⟩
          · rw [done]
            refine .inl ⟨fn :: fns, rfl, fun j below => ?_⟩
            cases j with
            | zero => rw [Nat.add_zero, here, Option.isSome_some]
            | succ j =>
                rw [Nat.add_comm j, ← Nat.add_assoc]
                exact all j (by omega)
          · rw [done]
            refine .inr ⟨rfl, j + 1, by omega, ?_⟩
            rw [Nat.add_comm j, ← Nat.add_assoc]
            exact unbound

theorem reconcileFrom_ok_iff (env : SignEnv) (dsn : List UInt8) (i left : Nat) :
    reconcileFrom env dsn i left = .ok ↔ ∀ j < left, env.reconcile dsn (i + j) = .ok := by
  induction left generalizing i with
  | zero => exact ⟨fun _ => nofun, fun _ => rfl⟩
  | succ left ih =>
      rw [reconcileFrom]
      by_cases here : env.reconcile dsn i = .ok
      · rw [if_neg (not_not.mpr here), ih]
        constructor
        · intro later j below
          cases j with
          | zero => exact here
          | succ j =>
              rw [Nat.add_comm j, ← Nat.add_assoc]
              exact later j (by omega)
        · intro all j below
          rw [Nat.add_assoc, Nat.add_comm 1]
          exact all (j + 1) (by omega)
      · rw [if_pos here]
        exact ⟨fun ok => absurd ok here, fun all => absurd (all 0 (Nat.succ_pos left)) here⟩

/-- The database of a store-backed contract: the `String` its `dsn` vow is signed with
opens, and every schema reconciles. -/
def StoreReady (env : SignEnv) (d : GeasContractDesc) (vows : List GeasVowBinding) : Prop :=
  d.nschemas = 0 ∨
    ∃ slot tag dsn, findVowDesc d "dsn" = some slot ∧
      vowValue d vows slot = some (.string tag (some dsn)) ∧ env.storeOpen dsn = .ok ∧
      ∀ i < d.nschemas, env.reconcile dsn i = .ok

theorem signStore_ok_iff {env : SignEnv} {vows : List GeasVowBinding} {values : List GeasValue}
    (bound : ∀ slot : Fin d.vows.length, ∃ value, values[(slot : Nat)]? = some value ∧
      vowValue d vows slot = some value) :
    signStore env d values = .ok ↔ StoreReady env d vows := by
  rw [signStore, StoreReady]
  by_cases none : d.nschemas = 0
  · rw [if_pos none]
    exact ⟨fun _ => .inl none, fun _ => rfl⟩
  · rw [if_neg none]
    cases found : findVowDesc d "dsn" with
    | none => simp [none]
    | some slot =>
        obtain ⟨value, at_slot, given⟩ := bound slot
        rw [Option.bind_some, at_slot]
        constructor
        · intro ok
          split at ok
          · next same =>
            cases same
            split at ok
            · next closed => exact absurd ok closed
            · next opens =>
              refine .inr ⟨slot, _, _, rfl, given, not_not.mp opens, fun i below => ?_⟩
              have each := (reconcileFrom_ok_iff env _ 0 d.nschemas).mp ok i below
              rwa [Nat.zero_add] at each
          · cases ok
        · rintro (zero | ⟨slot', tag, dsn, same, given', opens, each⟩)
          · exact absurd zero none
          · cases same
            rw [given] at given'
            cases given'
            dsimp only
            rw [if_neg (not_not.mpr opens)]
            refine (reconcileFrom_ok_iff env _ 0 d.nschemas).mpr fun j below => ?_
            rw [Nat.zero_add]
            exact each j below

/-! ## Sign -/

/-- What a sign needs. -/
structure Signable (env : SignEnv) (rt : SignRuntime) (d : GeasContractDesc)
    (vows : List GeasVowBinding) (expectedHash : UInt64) : Prop where
  hash : expectedHash = 0 ∨ expectedHash = d.shapeHash
  pledges : ∀ i < d.npledges, (pledgeFn rt (d.name, i)).isSome
  overrides : ∀ binding ∈ vows, ValidOverride d binding
  valued : ∀ slot, (vowValue d vows slot).isSome
  store : StoreReady env d vows

/-- What a successful sign publishes. -/
structure SignedAs (env : SignEnv) (rt : SignRuntime) (d : GeasContractDesc)
    (vows : List GeasVowBinding) (result : SignResult) (c : GeasContract d) : Prop where
  out : ∃ fns, result.out = some (⟨d, c⟩, fns)
  rt : result.rt = { rt with instances := rt.instances ++ [⟨d, c⟩] }
  vows : ∀ slot : Fin d.vows.length, c.vowVals[(slot : Nat)]? = vowValue d vows slot
  latches : ∀ p, c.pledgeState p = .pending
  episodes : ∀ s, c.subTxn s = .txnNone
  state : c.state = .signed

/-- Sign answers `GEAS_OK` exactly when everything it needs is there, publishes the
instance then, and changes nothing otherwise. -/
theorem sign_exact {env : SignEnv} {rt : SignRuntime} {d : GeasContractDesc}
    {vows : List GeasVowBinding} {expectedHash : UInt64}
    (registered : findDesc rt.toGeasRuntime d.name = some d)
    (readable : ∀ binding ∈ vows, Readable binding.value) (copyable : DefaultsCopyable d)
    (capacity : d.vows.length ≤ maxVows ∧ rt.instances.length ≠ maxInstances) :
    ∃ result, geasContractSign env rt d.name vows expectedHash = some result ∧
      (result.status = .ok ↔ Signable env rt d vows expectedHash) ∧
      (result.status = .ok → ∃ c, SignedAs env rt d vows result c) ∧
      (result.status ≠ .ok → result.out = none ∧ result.rt = rt) := by
  have refusal : ∀ {status : GeasStatus}, status ≠ .ok →
      ¬ Signable env rt d vows expectedHash →
      ∃ result, some (⟨status, none, rt⟩ : SignResult) = some result ∧
        (result.status = .ok ↔ Signable env rt d vows expectedHash) ∧
        (result.status = .ok → ∃ c, SignedAs env rt d vows result c) ∧
        (result.status ≠ .ok → result.out = none ∧ result.rt = rt) := by
    intro status failed missing
    exact ⟨_, rfl, ⟨fun ok => absurd ok failed, fun able => absurd able missing⟩,
      fun ok => absurd ok failed, fun _ => ⟨rfl, rfl⟩⟩
  rw [geasContractSign, registered]
  dsimp only
  by_cases skew : expectedHash ≠ 0 ∧ expectedHash ≠ d.shapeHash
  · rw [if_pos skew]
    exact refusal nofun fun able => able.hash.elim skew.1 skew.2
  rw [if_neg skew]
  rcases resolveFrom_ends rt d.name 0 d.npledges with ⟨fns, done, all⟩ | ⟨done, j, below, unbound⟩
  · rw [resolveDispatch, done]
    dsimp only
    rcases bindVows_ends readable copyable capacity.1 with
      ⟨values, done, valid, bound⟩ | ⟨status, failed, done, bad⟩
    · rw [done]
      dsimp only
      by_cases ready : signStore env d values = .ok
      · rw [if_neg (not_not.mpr ready), if_neg capacity.2]
        refine ⟨_, rfl, ⟨fun _ => ?_, fun _ => rfl⟩, fun _ => ?_, fun failed => absurd rfl failed⟩
        · refine ⟨?_, fun i below => ?_, valid, fun slot => ?_, (signStore_ok_iff bound).mp ready⟩
          · by_contra neither
            exact skew ⟨fun zero => neither (.inl zero), fun same => neither (.inr same)⟩
          · have here := all i below
            rwa [Nat.zero_add] at here
          · obtain ⟨value, -, given⟩ := bound slot
            rw [given, Option.isSome_some]
        · refine ⟨_, ⟨fns, rfl⟩, rfl, fun slot => ?_, fun _ => rfl, fun _ => rfl, rfl⟩
          obtain ⟨value, at_slot, given⟩ := bound slot
          exact at_slot.trans given.symm
      · rw [if_pos ready]
        exact refusal ready fun able => ready ((signStore_ok_iff bound).mpr able.store)
    · rw [done]
      exact refusal failed fun able => bad ⟨able.overrides, able.valued⟩
  · rw [resolveDispatch, done]
    refine refusal nofun fun able => ?_
    have here := able.pledges j below
    rw [Nat.zero_add] at unbound
    rw [unbound] at here
    cases here

/-- A contract with one vow per entry, none with a default. -/
def vowsDesc (names : List String) : GeasContractDesc where
  name := "Deal"
  shapeHash := 7
  version := 1
  pledges := []
  vows := names.map fun name => ⟨name, GeasTypeTag.int.code, none⟩
  subs := []
  atoms := []
  hasReqs := false
  reqFulfill := []
  reqPartial := []
  reqBreak := []
  nschemas := 0
  subFlags := none

/-- A runtime that knows one contract. -/
def oneContract (d : GeasContractDesc) : SignRuntime where
  descs := [d]
  instances := []
  bindings := []
  bodies := fun _ => none

/-- A sign outside any store. -/
def plainEnv : SignEnv := ⟨fun _ => .errStore, fun _ _ => .errStore, 0⟩

/-- A vow overridden twice is signed with the second value. -/
theorem last_override_signs :
    ∃ result c, geasContractSign plainEnv (oneContract (vowsDesc ["x"])) "Deal"
        [⟨some "x", .int 0 1⟩, ⟨some "x", .int 0 2⟩] 7 = some result ∧
      SignedAs plainEnv (oneContract (vowsDesc ["x"])) (vowsDesc ["x"])
        [⟨some "x", .int 0 1⟩, ⟨some "x", .int 0 2⟩] result c := by
  have readable : ∀ binding ∈ ([⟨some "x", .int 0 1⟩, ⟨some "x", .int 0 2⟩] : List GeasVowBinding),
      Readable binding.value :=
    List.forall_mem_cons.mpr ⟨trivial, List.forall_mem_cons.mpr ⟨trivial, nofun⟩⟩
  have copyable : DefaultsCopyable (vowsDesc ["x"]) :=
    List.forall_mem_cons.mpr ⟨nofun, nofun⟩
  obtain ⟨result, done, -, published, -⟩ :=
    @sign_exact plainEnv (oneContract (vowsDesc ["x"])) (vowsDesc ["x"]) _ 7 rfl readable copyable
      (by decide)
  have ok : result.status = .ok := by
    cases done
    rfl
  obtain ⟨c, signed⟩ := published ok
  exact ⟨result, c, done, signed⟩

/-- Two vows share a name, and an override of that name leaves the second without a
value, though every vow has an override under its name. -/
theorem second_vow_unbound :
    let d := vowsDesc ["x", "x"]
    let vows : List GeasVowBinding := [⟨some "x", .int 0 1⟩]
    (∀ vow ∈ d.vows, ∃ binding ∈ vows, binding.name = some vow.name ∧ binding.value.ty = vow.ty) ∧
      (∀ binding ∈ vows, ValidOverride d binding) ∧
      (geasContractSign plainEnv (oneContract d) d.name vows 0).map (·.status) =
        some .errUnbound := by
  refine ⟨?_, ?_, rfl⟩
  · decide
  · exact List.forall_mem_cons.mpr ⟨⟨⟨0, by decide⟩, rfl, rfl, by decide, trivial⟩, nofun⟩

end Geas.Runtime
