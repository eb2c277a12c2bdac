import Geas.Lib.OrderedMap
import Geas.Runtime.Copies

/-!
# Maps

A map keeps its keys and values interleaved in one block that grows by doubling.  A set
copies both halves before it commits anything.  Whatever sets and copies built a map, it
is the map in insertion order of what was set.
-/

namespace Geas.Runtime

open Geas.Abi
open Geas.Wire
open Geas.Lib.OrderedMap

/-- A map value: its slots, how many of them `cap` says are allocated, and how many bytes
the block behind them really has. -/
structure GeasMap where
  keyTy : UInt32
  slots : List GeasValue
  cap : Nat
  room : Nat

/-- `geas_map_new`. -/
def geasMapNew (keyTy : UInt32) : GeasMap := ⟨keyTy, [], 0, 0⟩

/-- The scan of `map_find`, from a slot on. -/
def mapFindFrom (key : GeasValue) : List GeasValue → Nat → Option Nat
  | stored :: _ :: rest, i =>
      if geasValueEq stored key then some (i + 1) else mapFindFrom key rest (i + 2)
  | _, _ => none

/-- `map_find`: the slot of a key's value. -/
def mapFind (m : GeasMap) (key : GeasValue) : Option Nat := mapFindFrom key m.slots 0

/-- The growth of `geas_map_set`: a block of twice the slots, when two more do not fit. -/
def growMap (m : GeasMap) : HeapCopy GeasMap :=
  if m.slots.length + 2 > m.cap then do
    let cap := if m.cap ≠ 0 then m.cap * 2 % 2 ^ 64 else 8
    match ← geasBytes (cap * valueSize % 2 ^ 64) with
    | none => throw .errOom
    | some room => do
        fill (m.slots.length * valueSize) room
        pure { m with cap := cap, room := room }
  else pure m

/-- `geas_map_set`: its status and the map it leaves. -/
def geasMapSet (m : GeasMap) (key value : GeasValue) :
    StateT HeapAnswers Option (GeasStatus × GeasMap) := do
  if key.ty ≠ m.keyTy then return (.errType, m)
  match ← (heapDeepCopy value).run with
  | .error status => return (status, m)
  | .ok valueCopy =>
      match mapFind m key with
      | some hit => return (.ok, { m with slots := m.slots.set hit valueCopy })
      | none =>
          match ← (heapDeepCopy key).run with
          | .error status => return (status, m)
          | .ok keyCopy =>
              match ← (growMap m).run with
              | .error status => return (status, m)
              | .ok grown =>
                  match ← (fill ((grown.slots.length + 2) * valueSize) grown.room).run with
                  | .error status => return (status, grown)
                  | .ok () =>
                      return (.ok, { grown with slots := grown.slots ++ [keyCopy, valueCopy] })

/-- `geas_map_get`. -/
def geasMapGet (m : GeasMap) (key : GeasValue) : Option GeasValue :=
  if key.ty ≠ m.keyTy then none
  else
    match mapFind m key with
    | none => none
    | some hit => m.slots[hit]?

/-- The value a map is. -/
def GeasMap.value (m : GeasMap) : GeasValue := .map 0 m.keyTy (some m.slots)

/-- `geas_value_deep_copy` of a map, whose `cap` is its length. -/
def copyMap (m : GeasMap) : HeapCopy GeasMap := do
  valueBlock m.slots.length
  let copies ← heapCopyAll m.slots
  pure ⟨m.keyTy, copies, m.slots.length, m.slots.length * valueSize⟩

/-- The maps that sets and copies build from an empty one, with what was set: each key and
value as the set copied it. -/
inductive MapRun (keyTy : UInt32) : GeasMap → List (GeasValue × GeasValue) → Prop where
  | new : MapRun keyTy (geasMapNew keyTy) []
  | set {m m' log key value heap heap'} (run : MapRun keyTy m log)
      (done : geasMapSet m key value heap = some ((.ok, m'), heap')) :
      MapRun keyTy m' (log ++ [(copied key, copied value)])
  | refused {m m' log key value status heap heap'} (run : MapRun keyTy m log)
      (done : geasMapSet m key value heap = some ((status, m'), heap')) (failed : status ≠ .ok) :
      MapRun keyTy m' log
  | copy {m m' log heap heap'} (run : MapRun keyTy m log)
      (done : copyMap m heap = some (.ok m', heap')) : MapRun keyTy m' log

/-! ## Slots and pairs -/

/-- The slots of a list of pairs. -/
def pairSlots (pairs : List (GeasValue × GeasValue)) : List GeasValue :=
  pairs.flatMap fun pair => [pair.1, pair.2]

@[simp] theorem pairSlots_cons (pair : GeasValue × GeasValue)
    (pairs : List (GeasValue × GeasValue)) :
    pairSlots (pair :: pairs) = pair.1 :: pair.2 :: pairSlots pairs := rfl

theorem pairSlots_append (pairs : List (GeasValue × GeasValue)) (key value : GeasValue) :
    pairSlots (pairs ++ [(key, value)]) = pairSlots pairs ++ [key, value] := by
  rw [pairSlots, List.flatMap_append]
  rfl

theorem mapKeys_pairs (pairs : List (GeasValue × GeasValue)) :
    mapKeys (pairSlots pairs) = pairs.map Prod.fst := by
  induction pairs with
  | nil => rfl
  | cons pair rest ih => rw [pairSlots_cons, mapKeys, ih, List.map_cons]

/-- What the scan finds, as a map in insertion order says it. -/
theorem mapFindFrom_pairs (key value : GeasValue) (pairs : List (GeasValue × GeasValue))
    (i : Nat) :
    (mapFindFrom key (pairSlots pairs) i = none ∧ get? geasValueEq pairs key = none ∧
      put geasValueEq (copied key) value pairs = pairs ++ [(copied key, value)]) ∨
    ∃ j, mapFindFrom key (pairSlots pairs) i = some (i + j) ∧ geasValueEq key key = true ∧
      (pairSlots pairs)[j]? = get? geasValueEq pairs key ∧
      (pairSlots pairs).set j value = pairSlots (put geasValueEq (copied key) value pairs) := by
  induction pairs generalizing i with
  | nil => exact .inl ⟨rfl, rfl, rfl⟩
  | cons pair rest ih =>
      simp only [pairSlots_cons, mapFindFrom, get?, List.find?_cons, put,
        geasValueEq_copied_right]
      by_cases hit : geasValueEq pair.1 key = true
      · simp only [hit, if_true, Option.map_some]
        exact .inr ⟨1, rfl, geasValueEq_trans (geasValueEq_symm hit) hit, rfl, rfl⟩
      · simp only [Bool.not_eq_true] at hit
        simp only [hit, Bool.false_eq_true, if_false]
        rcases ih (i + 2) with ⟨miss, absent, grown⟩ | ⟨j, found, known, read, written⟩
        · exact .inl ⟨miss, absent, by rw [grown, List.cons_append]⟩
        · refine .inr ⟨j + 2, by rw [found]; congr 1; omega, known, ?_, ?_⟩
          · simpa only [List.getElem?_cons_succ, get?] using read
          · simpa only [List.set_cons_succ, pairSlots_cons] using
              congrArg (pair.1 :: pair.2 :: ·) written

/-! ## Blocks -/

/-- A map of whole pairs whose block holds as many values as `cap` says. -/
structure Backed (m : GeasMap) : Prop where
  even : m.slots.length % 2 = 0
  fits : m.slots.length ≤ m.cap
  cap : m.cap * valueSize ≤ m.room
  room : m.room + blockSize ≤ ptrdiffMax

theorem geasBytes_ok {n room : Nat} {heap heap' : HeapAnswers}
    (done : geasBytes n heap = some (.ok (some room), heap')) :
    room + blockSize = (blockSize + n) % 2 ^ 64 ∧ room + blockSize ≤ ptrdiffMax := by
  unfold geasBytes ExceptT.mk at done
  dsimp only at done
  split at done
  · cases done
  · next granted =>
    split at done
    · cases done
    · cases done
      omega

theorem fill_ok {size room : Nat} {heap heap' : HeapAnswers} {result : Except GeasStatus Unit}
    (done : (fill size room).run heap = some (result, heap')) :
    size ≤ room ∧ result = .ok () ∧ heap' = heap := by
  unfold fill at done
  split at done
  · next inside =>
    cases done
    exact ⟨inside, rfl, rfl⟩
  · cases done

theorem fill_inside {size room : Nat} (inside : size ≤ room) : fill size room = pure () :=
  if_pos inside

theorem valueBlock_ok {n : Nat} {heap heap' : HeapAnswers}
    (done : valueBlock n heap = some (.ok (), heap')) : n * valueSize + blockSize ≤ ptrdiffMax := by
  unfold valueBlock at done
  split at done
  · next none =>
    subst none
    decide
  · obtain ⟨room, middle, block, filled⟩ := heapCopy_bind done
    cases room with
    | none => cases filled
    | some room =>
        have small := (geasBytes_ok block).2
        have inside := (fill_ok filled).1
        omega

/-- The grown `cap` has room for two more slots, and none of its products wraps, since the
old block exists. -/
theorem Backed.grown {m : GeasMap} {cap : Nat} (backed : Backed m)
    (full : m.slots.length + 2 > m.cap)
    (grown : (if m.cap ≠ 0 then m.cap * 2 % 2 ^ 64 else 8) = cap) :
    m.slots.length + 2 ≤ cap ∧ blockSize + cap * valueSize < 2 ^ 64 := by
  have even := backed.even
  have fits := backed.fits
  have bytes := backed.cap
  have room := backed.room
  simp only [ptrdiffMax, valueSize, blockSize] at bytes room ⊢
  split at grown <;> omega

theorem growMap_ok {m m' : GeasMap} {heap heap' : HeapAnswers} (backed : Backed m)
    (done : growMap m heap = some (.ok m', heap')) :
    Backed m' ∧ m'.slots.length + 2 ≤ m'.cap ∧ m'.slots = m.slots ∧ m'.keyTy = m.keyTy := by
  unfold growMap at done
  split at done
  · next full =>
    obtain ⟨block, middle, asked, done⟩ := heapCopy_bind done
    generalize grown : (if m.cap ≠ 0 then m.cap * 2 % 2 ^ 64 else 8) = cap at asked done
    have enough := backed.grown full grown
    cases block with
    | none => cases done
    | some block =>
        obtain ⟨_, _, -, done⟩ := heapCopy_bind done
        cases done
        obtain ⟨given, small⟩ := geasBytes_ok asked
        have whole : cap * valueSize % 2 ^ 64 = cap * valueSize :=
          Nat.mod_eq_of_lt (by omega)
        rw [whole, Nat.mod_eq_of_lt enough.2] at given
        exact ⟨⟨backed.even, by dsimp only; omega, by dsimp only; omega, small⟩, enough.1, rfl, rfl⟩
  · next spare =>
    cases done
    exact ⟨backed, by omega, rfl, rfl⟩

/-- A copy that fails does not answer `GEAS_OK`. -/
theorem heapDeepCopy_fails (value : GeasValue) : FailsOnly (· ≠ .ok) (heapDeepCopy value) :=
  .heapDeepCopy nofun nofun value

theorem growMap_fails (m : GeasMap) : FailsOnly (· ≠ .ok) (growMap m) := by
  unfold growMap
  split
  · refine .bind (.geasBytes _) fun block => ?_
    cases block with
    | none => exact .throw nofun
    | some room => exact .bind (.fill _ _) fun _ => .pure _
  · exact .pure _

/-- What a sequence of two steps did. -/
theorem ran_bind {α β : Type} {first : StateT HeapAnswers Option α}
    {next : α → StateT HeapAnswers Option β} {result : β} {heap heap' : HeapAnswers}
    (done : (first >>= next) heap = some (result, heap')) :
    ∃ value middle, first heap = some (value, middle) ∧
      next value middle = some (result, heap') := by
  change (first heap >>= fun x => next x.1 x.2) = _ at done
  rcases ran : first heap with _ | ⟨value, middle⟩
  · rw [ran] at done
    cases done
  · rw [ran] at done
    exact ⟨value, middle, rfl, done⟩

theorem undefined_bind {α β : Type} {first : HeapCopy α} {next : α → HeapCopy β}
    {heap : HeapAnswers} (undefined : (first >>= next) heap = none) :
    first heap = none ∨
      ∃ value middle, first heap = some (.ok value, middle) ∧ next value middle = none := by
  change (first heap >>= fun x => ExceptT.bindCont next x.1 x.2) = _ at undefined
  rcases ran : first heap with _ | ⟨status | value, middle⟩
  · exact .inl rfl
  · rw [ran] at undefined
    cases undefined
  · rw [ran] at undefined
    exact .inr ⟨value, middle, rfl, undefined⟩

theorem ran_undefined {α β : Type} {first : StateT HeapAnswers Option α}
    {next : α → StateT HeapAnswers Option β} {heap : HeapAnswers}
    (undefined : (first >>= next) heap = none) :
    first heap = none ∨
      ∃ value middle, first heap = some (value, middle) ∧ next value middle = none := by
  change (first heap >>= fun x => next x.1 x.2) = _ at undefined
  rcases ran : first heap with _ | ⟨value, middle⟩
  · exact .inl rfl
  · rw [ran] at undefined
    exact .inr ⟨value, middle, rfl, undefined⟩

/-- A key that can be copied equals itself. -/
theorem keyable_refl {key copy : GeasValue} {heap heap' : HeapAnswers}
    (keyable : tagKeyable key.ty = true) (done : heapDeepCopy key heap = some (.ok copy, heap')) :
    geasValueEq key key = true := by
  cases key with
  | int _ i | uint _ i | bool _ i | byte _ i | char _ i => exact BEq.refl i
  | string _ bytes =>
      cases bytes with
      | none => cases done
      | some bytes => exact BEq.refl bytes
  | unknown => cases done
  | _ => cases keyable

/-- What a set does to a map whose slots hold `pairs`: nothing, or a write. -/
theorem geasMapSet_cases {m m' : GeasMap} {pairs : List (GeasValue × GeasValue)}
    {key value : GeasValue} {status : GeasStatus} {heap heap' : HeapAnswers}
    (keyable : tagKeyable m.keyTy = true) (backed : Backed m) (slots : m.slots = pairSlots pairs)
    (done : geasMapSet m key value heap = some ((status, m'), heap')) :
    (status ≠ .ok ∧ m' = m) ∨
      (status = .ok ∧ Backed m' ∧ m'.keyTy = m.keyTy ∧ key.ty = m.keyTy ∧
        geasValueEq key key = true ∧ m'.slots = pairSlots (put geasValueEq (copied key) (copied value) pairs)) := by
  rw [geasMapSet] at done
  by_cases wrong : key.ty ≠ m.keyTy
  · rw [if_pos wrong] at done
    cases done
    exact .inl ⟨nofun, rfl⟩
  · rw [if_neg wrong] at done
    obtain ⟨valueCopy, _, valueRan, done⟩ := ran_bind done
    cases valueCopy with
    | error status =>
        cases done
        exact .inl ⟨heapDeepCopy_fails value _ _ _ valueRan, rfl⟩
    | ok valueCopy =>
        have valueEq := deepCopy_eq_copied (heapDeepCopy_ok valueRan)
        subst valueEq
        rw [ne_eq, Decidable.not_not] at wrong
        rcases mapFindFrom_pairs key (copied value) pairs 0 with
          ⟨miss, -, grown⟩ | ⟨j, found, known, -, written⟩
        · rw [mapFind, slots, miss] at done
          obtain ⟨keyCopy, _, keyRan, done⟩ := ran_bind done
          cases keyCopy with
          | error status =>
              cases done
              exact .inl ⟨heapDeepCopy_fails key _ _ _ keyRan, rfl⟩
          | ok keyCopy =>
              have keyEq := deepCopy_eq_copied (heapDeepCopy_ok keyRan)
              subst keyEq
              obtain ⟨m₁, _, grew, done⟩ := ran_bind done
              cases m₁ with
              | error status =>
                  cases done
                  exact .inl ⟨growMap_fails m _ _ _ grew, rfl⟩
              | ok m₁ =>
                  obtain ⟨backed₁, spare, same, keyTy⟩ := growMap_ok backed grew
                  obtain ⟨result, _, filled, done⟩ := ran_bind done
                  obtain ⟨-, rfl, -⟩ := fill_ok filled
                  cases done
                  refine .inr ⟨rfl, ⟨?_, ?_, backed₁.cap, backed₁.room⟩, keyTy, wrong,
                    keyable_refl (wrong ▸ keyable) keyRan, ?_⟩
                  · have even := backed₁.even
                    simp only [List.length_append, List.length_cons, List.length_nil]
                    omega
                  · simpa only [List.length_append, List.length_cons, List.length_nil] using spare
                  · rw [grown, pairSlots_append, same, slots]
        · rw [mapFind, slots, found] at done
          cases done
          refine .inr ⟨rfl, ⟨?_, ?_, backed.cap, backed.room⟩, rfl, wrong, known, ?_⟩
          · rw [List.length_set]
            exact slots ▸ backed.even
          · rw [List.length_set]
            exact slots ▸ backed.fits
          · rw [Nat.zero_add]
            exact written

/-! ## Finite maps -/

/-- A map is the map in insertion order of the writes in a log. -/
structure FiniteMap (m : GeasMap) (log : List (GeasValue × GeasValue)) : Prop where
  distinct : (mapKeys m.slots).Pairwise fun left right => geasValueEq left right = false
  order : mapKeys m.slots = firstKeys geasValueEq log
  last : ∀ key, geasMapGet m key = lastWritten geasValueEq log key
  missing : ∀ key, geasMapGet m key = none ↔ ∀ write ∈ log, geasValueEq write.1 key = false
  even : m.slots.length % 2 = 0
  fits : m.slots.length ≤ m.cap

theorem geasBytes_defined {n : Nat} {heap : HeapAnswers} (whole : blockSize + n < 2 ^ 64) :
    geasBytes n heap ≠ none := by
  unfold geasBytes ExceptT.mk
  dsimp only
  rw [Nat.mod_eq_of_lt whole]
  split
  · nofun
  · rw [if_neg (by omega)]
    nofun

/-- Growing never leaves a block. -/
theorem growMap_defined {m : GeasMap} {heap : HeapAnswers} (backed : Backed m) :
    growMap m heap ≠ none := by
  intro undefined
  unfold growMap at undefined
  split at undefined
  · next full =>
    generalize grown : (if m.cap ≠ 0 then m.cap * 2 % 2 ^ 64 else 8) = cap at undefined
    obtain ⟨enough, whole⟩ := backed.grown full grown
    have small : cap * valueSize % 2 ^ 64 = cap * valueSize := Nat.mod_eq_of_lt (by omega)
    dsimp only at undefined
    rw [small] at undefined
    rcases undefined_bind undefined with here | ⟨block, middle, asked, undefined⟩
    · exact geasBytes_defined whole here
    · cases block with
      | none => cases undefined
      | some block =>
          have given := (geasBytes_ok asked).1
          rw [Nat.mod_eq_of_lt whole] at given
          have inside : m.slots.length * valueSize ≤ block := by
            simp only [valueSize] at *
            omega
          dsimp only at undefined
          rw [fill_inside inside] at undefined
          cases undefined
  · cases undefined

/-- A set is undefined only where a copy is. -/
theorem geasMapSet_defined {m : GeasMap} {key value : GeasValue} {heap : HeapAnswers}
    (backed : Backed m) (keyRead : ∀ heap, heapDeepCopy key heap ≠ none)
    (valueRead : ∀ heap, heapDeepCopy value heap ≠ none) :
    geasMapSet m key value heap ≠ none := by
  intro undefined
  rw [geasMapSet] at undefined
  split at undefined
  · cases undefined
  · rcases ran_undefined undefined with here | ⟨valueCopy, _, -, undefined⟩
    · exact valueRead _ here
    cases valueCopy with
    | error status => cases undefined
    | ok valueCopy =>
        dsimp only at undefined
        cases found : mapFind m key with
        | some hit =>
            rw [found] at undefined
            cases undefined
        | none =>
            rw [found] at undefined
            rcases ran_undefined undefined with here | ⟨keyCopy, _, -, undefined⟩
            · exact keyRead _ here
            cases keyCopy with
            | error status => cases undefined
            | ok keyCopy =>
                rcases ran_undefined undefined with here | ⟨m₁, _, grew, undefined⟩
                · exact growMap_defined backed here
                cases m₁ with
                | error status => cases undefined
                | ok m₁ =>
                    obtain ⟨backed₁, spare, -⟩ := growMap_ok backed grew
                    have inside : (m₁.slots.length + 2) * valueSize ≤ m₁.room := by
                      have bytes := backed₁.cap
                      simp only [valueSize] at *
                      omega
                    rcases ran_undefined undefined with here | ⟨result, _, filled, undefined⟩
                    · rw [fill_inside inside] at here
                      cases here
                    · obtain ⟨-, rfl, -⟩ := fill_ok filled
                      cases undefined

/-- What every map that sets and copies build satisfies. -/
structure Built (keyTy : UInt32) (m : GeasMap) (log pairs : List (GeasValue × GeasValue)) :
    Prop where
  keyed : m.keyTy = keyTy
  slots : m.slots = pairSlots pairs
  holds : OfLog geasValueEq log pairs
  backed : Backed m
  typed : ∀ write ∈ log, write.1.ty = keyTy
  copies : copiedAll m.slots = m.slots

variable {keyTy : UInt32} {m m' : GeasMap} {log pairs : List (GeasValue × GeasValue)}
  {key value : GeasValue} {status : GeasStatus} {heap heap' : HeapAnswers}

/-- A read answers what was written last. -/
theorem Built.get (built : Built keyTy m log pairs) (key : GeasValue) :
    geasMapGet m key = lastWritten geasValueEq log key := by
  rw [geasMapGet]
  split
  · next wrong =>
    rw [lastWritten, List.find?_eq_none.mpr, Option.map_none]
    intro write mem
    rw [geasValueEq_of_ty_ne, Bool.false_eq_true]
    · exact not_false
    · rw [built.typed write (List.mem_reverse.mp mem), ← built.keyed]
      exact Ne.symm wrong
  · rw [← built.holds.last key, mapFind, built.slots]
    rcases mapFindFrom_pairs key key pairs 0 with ⟨miss, absent, -⟩ | ⟨j, found, -, read, -⟩
    · rw [miss, absent]
    · rw [found, ← read, Nat.zero_add]

theorem Built.finiteMap (built : Built keyTy m log pairs) : FiniteMap m log where
  distinct := by
    rw [built.slots, mapKeys_pairs]
    exact built.holds.distinct
  order := by
    rw [built.slots, mapKeys_pairs]
    exact built.holds.order
  last := built.get
  missing key := by rw [built.get, lastWritten_eq_none]
  even := built.backed.even
  fits := built.backed.fits

/-- A write keeps slots that are copies. -/
theorem copiedAll_put (pairs : List (GeasValue × GeasValue))
    (copies : copiedAll (pairSlots pairs) = pairSlots pairs) (key value : GeasValue) :
    copiedAll (pairSlots (put geasValueEq (copied key) (copied value) pairs)) =
      pairSlots (put geasValueEq (copied key) (copied value) pairs) := by
  induction pairs with
  | nil => simp [put, pairSlots, copiedAll, copied_copied]
  | cons pair rest ih =>
      simp only [pairSlots_cons, copiedAll, List.cons.injEq] at copies
      rw [put]
      split
      · simp only [pairSlots_cons, copiedAll, copied_copied, copies]
      · simp only [pairSlots_cons, copiedAll, copies, ih copies.2.2]

/-- A successful set lengthens the log by what it copied. -/
theorem Built.set (built : Built keyTy m log pairs) (backed : Backed m') (kept : m'.keyTy = m.keyTy)
    (typed : key.ty = m.keyTy)
    (slots : m'.slots = pairSlots (put geasValueEq (copied key) (copied value) pairs)) :
    Built keyTy m' (log ++ [(copied key, copied value)])
      (put geasValueEq (copied key) (copied value) pairs) where
  keyed := kept.trans built.keyed
  slots := slots
  holds := by
    have symm : ∀ a b, geasValueEq a b = true → geasValueEq b a = true :=
      fun _ _ => geasValueEq_symm
    exact built.holds.put symm (fun _ _ _ => geasValueEq_trans) _ _
  backed := backed
  typed write mem := by
    rcases List.mem_append.mp mem with old | new
    · exact built.typed write old
    · rw [List.mem_singleton.mp new, copied_ty, typed, built.keyed]
  copies := by
    rw [slots]
    exact copiedAll_put pairs (built.slots ▸ built.copies) key value

/-- A copy of a map holds what the map holds, in a block without spare slots. -/
theorem Built.copy (built : Built keyTy m log pairs) (done : copyMap m heap = some (.ok m', heap')) :
    Built keyTy m' log pairs := by
  obtain ⟨_, _, block, done⟩ := heapCopy_bind done
  obtain ⟨copies, _, each, done⟩ := heapCopy_bind done
  cases done
  have same : copies = m.slots :=
    (deepCopyAll_eq_copied (heapCopyAll_ok each)).trans built.copies
  subst same
  exact ⟨built.keyed, built.slots, built.holds,
    ⟨built.backed.even, Nat.le_refl _, Nat.le_refl _, valueBlock_ok block⟩, built.typed, built.copies⟩

theorem MapRun.built (keyable : tagKeyable keyTy = true) (run : MapRun keyTy m log) :
    ∃ pairs, Built keyTy m log pairs := by
  induction run with
  | new =>
      have empty : 0 + blockSize ≤ ptrdiffMax := by decide
      exact ⟨[], rfl, rfl, .empty, ⟨rfl, Nat.le_refl _, Nat.le_refl _, empty⟩, nofun, rfl⟩
  | set run done ih =>
      obtain ⟨pairs, built⟩ := ih
      rcases geasMapSet_cases (built.keyed ▸ keyable) built.backed built.slots done with
        ⟨failed, -⟩ | ⟨-, backed, kept, typed, -, slots⟩
      · exact absurd rfl failed
      · exact ⟨_, built.set backed kept typed slots⟩
  | refused run done failed ih =>
      obtain ⟨pairs, built⟩ := ih
      rcases geasMapSet_cases (built.keyed ▸ keyable) built.backed built.slots done with
        ⟨-, rfl⟩ | ⟨ok, -⟩
      · exact ⟨pairs, built⟩
      · exact absurd ok failed
  | copy run done ih =>
      obtain ⟨pairs, built⟩ := ih
      exact ⟨pairs, built.copy done⟩

/-- A map that sets and copies build is the map in insertion order of what was set.  A set
that fails leaves it as it was, one that succeeds changes the value of its own key, and
none reads or writes outside the map's block. -/
theorem maps_are_finite_maps (keyable : tagKeyable keyTy = true) (run : MapRun keyTy m log) :
    FiniteMap m log ∧
      (∀ key value status m' heap heap',
        geasMapSet m key value heap = some ((status, m'), heap') →
        (status ≠ .ok → m' = m) ∧
          (status = .ok → geasMapGet m' key = some (copied value) ∧
            ∀ other, geasValueEq key other = false → geasMapGet m' other = geasMapGet m other)) ∧
      ∀ key value, (∀ heap, heapDeepCopy key heap ≠ none) →
        (∀ heap, heapDeepCopy value heap ≠ none) → ∀ heap, geasMapSet m key value heap ≠ none := by
  obtain ⟨pairs, built⟩ := run.built keyable
  refine ⟨built.finiteMap, fun key value status m' heap heap' done => ?_,
    fun key value keyRead valueRead heap => geasMapSet_defined built.backed keyRead valueRead⟩
  rcases geasMapSet_cases (built.keyed ▸ keyable) built.backed built.slots done with
    ⟨failed, rfl⟩ | ⟨rfl, backed, kept, typed, known, slots⟩
  · exact ⟨fun _ => rfl, fun ok => absurd ok failed⟩
  · refine ⟨fun failed => absurd rfl failed, fun _ => ?_⟩
    have later := built.set backed kept typed slots
    refine ⟨?_, fun other apart => ?_⟩
    · rw [later.get, lastWritten_append, geasValueEq_copied, if_pos known]
    · rw [later.get, lastWritten_append, geasValueEq_copied, apart, built.get,
        if_neg Bool.false_ne_true]

/-- A map of one pair, copied. -/
theorem one_pair_map :
    ∃ m, MapRun GeasTypeTag.int.code m [(.int 0 1, .bool 0 1)] ∧
      geasMapGet m (.int 0 1) = some (.bool 0 1) := by
  have written : geasMapSet (geasMapNew GeasTypeTag.int.code) (.int 0 1) (.bool 0 1)
      (fun _ => true) =
      some ((.ok, ⟨GeasTypeTag.int.code, [.int 0 1, .bool 0 1], 8, 320⟩), fun _ => true) := rfl
  have duplicated : copyMap ⟨GeasTypeTag.int.code, [.int 0 1, .bool 0 1], 8, 320⟩
      (fun _ => true) =
      some (.ok ⟨GeasTypeTag.int.code, [.int 0 1, .bool 0 1], 2, 80⟩, fun _ => true) := rfl
  have run := MapRun.copy (.set .new written) duplicated
  exact ⟨_, run, (maps_are_finite_maps rfl run).1.last _⟩

end Geas.Runtime
