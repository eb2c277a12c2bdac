import Geas.Wire.Decode

/-!
# Encoding and decoding are inverse

Soundness reads a successful decoding run backwards: what the decoder returned
is canonical, its map keys are distinct, and the bytes it consumed are the
spelling of the value.  Completeness runs the decoder on a spelling and finds
the value again.  Both go by induction on the nesting levels, with one loop
lemma shared by every container.
-/

namespace Geas.Wire

open Geas.Abi
open Geas.Lib
open Geas.Lib.Word
open Geas.Lib.Reader

/-! ## Reading the fixed-width fields -/

theorem exists_header {bytes : List UInt8} (width : bytes.length = 8) :
    ∃ ty tag, bytes = header ty tag := by
  refine ⟨getU32 (bytes.take 4), getU32 (bytes.drop 4), ?_⟩
  rw [header, putU32_getU32 (by simp [width]), putU32_getU32 (by simp [width]),
    List.take_append_drop]

theorem exists_putU64 {bytes : List UInt8} (width : bytes.length = 8) :
    ∃ word, bytes = putU64 word :=
  ⟨getU64 bytes, (putU64_getU64 width).symm⟩

theorem exists_putU32 {bytes : List UInt8} (width : bytes.length = 4) :
    ∃ word, bytes = putU32 word :=
  ⟨getU32 bytes, (putU32_getU32 width).symm⟩

theorem exists_count {bytes : List UInt8} (width : bytes.length = 8) :
    ∃ n, n ≤ sizeMax ∧ bytes = count n := by
  refine ⟨(getU64 bytes).toNat, ?_, ?_⟩
  · have bound := (getU64 bytes).toNat_lt
    unfold sizeMax
    omega
  · rw [count, UInt64.ofNat_toNat, putU64_getU64 width]

theorem exists_count_putU32 {bytes : List UInt8} (width : bytes.length = 12) :
    ∃ n word, n ≤ sizeMax ∧ bytes = count n ++ putU32 word := by
  obtain ⟨n, fits, front⟩ := exists_count (show (bytes.take 8).length = 8 by simp [width])
  obtain ⟨word, back⟩ := exists_putU32 (show (bytes.drop 8).length = 4 by simp [width])
  exact ⟨n, word, fits, by rw [← front, ← back, List.take_append_drop]⟩

@[simp] theorem getU32_header (ty tag : UInt32) : getU32 (header ty tag) = ty :=
  getU32_putU32 ty _

@[simp] theorem getU32_header_drop (ty tag : UInt32) : getU32 ((header ty tag).drop 4) = tag := by
  have tail : (header ty tag).drop 4 = putU32 tag ++ [] := rfl
  rw [tail, getU32_putU32]

@[simp] theorem getU32_putU32_alone (word : UInt32) : getU32 (putU32 word) = word :=
  getU32_putU32 word []

@[simp] theorem getU64_putU64_alone (word : UInt64) : getU64 (putU64 word) = word :=
  getU64_putU64 word []

theorem getU64_count {n : Nat} (fits : n ≤ sizeMax) (rest : List UInt8) :
    (getU64 (count n ++ rest)).toNat = n := by
  unfold sizeMax at fits
  rw [count, getU64_putU64, UInt64.toNat_ofNat']
  exact Nat.mod_eq_of_lt (by omega)

theorem getU64_count_alone {n : Nat} (fits : n ≤ sizeMax) : (getU64 (count n)).toNat = n := by
  simpa using getU64_count fits []

theorem getU32_count_drop (n : Nat) (word : UInt32) :
    getU32 ((count n ++ putU32 word).drop 8) = word := by
  have tail : (count n ++ putU32 word).drop 8 = putU32 word := rfl
  rw [tail, getU32_putU32_alone]

/-! ## The acceptance tests of the element loop -/

/-- Every element passes the test against the elements before it. -/
def acceptsAll (accepts : List GeasValue → GeasValue → Bool) :
    List GeasValue → List GeasValue → Bool
  | _, [] => true
  | earlier, value :: rest => accepts earlier value && acceptsAll accepts (earlier ++ [value]) rest

theorem acceptsAll_field (earlier fields : List GeasValue) :
    acceptsAll fieldAccepts earlier fields = true := by
  induction fields generalizing earlier with
  | nil => rfl
  | cons field rest ih => simp [acceptsAll, fieldAccepts, ih]

theorem acceptsAll_list (elemTy : UInt32) (i : Nat) (earlier elements : List GeasValue) :
    acceptsAll (listAccepts elemTy) earlier elements = slotsFit (listSlot elemTy) i elements := by
  induction elements generalizing i earlier with
  | nil => rfl
  | cons element rest ih => simp only [acceptsAll, slotsFit, listAccepts, listSlot, ih (i + 1)]

/-- A slot in key position adds a key, one in value position does not. -/
theorem mapKeys_concat (slots : List GeasValue) (slot : GeasValue) :
    mapKeys (slots ++ [slot]) =
      if slots.length % 2 = 0 then mapKeys slots ++ [slot] else mapKeys slots := by
  induction slots using mapKeys.induct with
  | case1 => rfl
  | case2 key => rfl
  | case3 key value rest ih =>
      have parity : (key :: value :: rest).length % 2 = rest.length % 2 := by
        simp only [List.length_cons]
        omega
      simp only [List.cons_append, mapKeys, ih, parity]
      split <;> rfl

/-- The keys of the slots repeat nothing. -/
def KeysApart (slots : List GeasValue) : Prop :=
  (mapKeys slots).Pairwise fun left right => geasValueEq left right = false

theorem mapAccepts_iff (keyTy : UInt32) (earlier : List GeasValue) (slot : GeasValue) :
    mapAccepts keyTy earlier slot = true ∧ KeysApart earlier ↔
      mapSlot keyTy earlier.length slot = true ∧ KeysApart (earlier ++ [slot]) := by
  unfold KeysApart mapAccepts mapSlot
  rw [mapKeys_concat]
  by_cases even : earlier.length % 2 = 0
  · simp only [even, bne_self_eq_false, Bool.false_or, Bool.and_eq_true, List.all_eq_true,
      Bool.not_eq_true', if_true, List.pairwise_append, List.pairwise_singleton,
      List.mem_singleton, forall_eq, true_and]
    tauto
  · have odd : earlier.length % 2 = 1 := by omega
    simp [odd]

/-- The running test of a map accepts the slots exactly when the keys have the
declared type and repeat nothing. -/
theorem acceptsAll_map (keyTy : UInt32) (earlier slots : List GeasValue) :
    acceptsAll (mapAccepts keyTy) earlier slots = true ∧ KeysApart earlier ↔
      slotsFit (mapSlot keyTy) earlier.length slots = true ∧ KeysApart (earlier ++ slots) := by
  induction slots generalizing earlier with
  | nil => simp [acceptsAll, slotsFit]
  | cons slot rest ih =>
      have next := ih (earlier ++ [slot])
      rw [List.length_append, List.length_singleton, List.append_assoc,
        List.singleton_append] at next
      simp only [acceptsAll, slotsFit, Bool.and_eq_true]
      have here := mapAccepts_iff keyTy earlier slot
      tauto

theorem allKeysDistinct_iff (values : List GeasValue) :
    AllKeysDistinct values ↔ ∀ value ∈ values, KeysDistinct value := by
  induction values with
  | nil => simp [AllKeysDistinct]
  | cons value rest ih => simp [AllKeysDistinct, ih]

/-! ## Soundness -/

section Sound

variable {allocator : Allocator} {buffer : List UInt8}

/-- A reader of values is sound when whatever it returns is canonical, keeps its
map keys apart and is spelled by the bytes consumed. -/
def Sound (buffer : List UInt8) (levels : Nat) (reader : Reader GeasStatus GeasValue) : Prop :=
  ∀ first last value, first.Within buffer → reader first = (.ok value, last) →
    Canonical levels value ∧ KeysDistinct value ∧ Advance buffer first (encodeWrite value) last

theorem collect_sound {levels : Nat} {nested : Reader GeasStatus GeasValue}
    (sound : Sound buffer levels nested) (accepts : List GeasValue → GeasValue → Bool)
    (claimed : Nat) (earlier : List GeasValue) {first last : Cursor} {values : List GeasValue}
    (within : first.Within buffer)
    (run : collect (fun earlier => do
      let value ← nested
      require .errType (accepts earlier value)
      pure value) claimed earlier first = (.ok values, last)) :
    ∃ added, values = earlier ++ added ∧ added.length = claimed ∧
      (∀ value ∈ added, Canonical levels value ∧ KeysDistinct value) ∧
      acceptsAll accepts earlier added = true ∧
      Advance buffer first (encodeWriteAll added) last := by
  induction claimed generalizing earlier first with
  | zero =>
      simp only [collect, pure_apply, Prod.mk.injEq, Except.ok.injEq] at run
      obtain ⟨rfl, rfl⟩ := run
      exact ⟨[], by simp, rfl, by simp, rfl, Advance.refl within⟩
  | succ claimed ih =>
      simp only [collect, bind_ok, require_ok, pure_apply, Prod.mk.injEq, Except.ok.injEq] at run
      obtain ⟨value, middle, ⟨_, _, ran, _, _, ⟨accepted, rfl⟩, rfl, rfl⟩, rest⟩ := run
      obtain ⟨canonical, distinct, advance⟩ := sound first _ _ within ran
      obtain ⟨added, rfl, length, all, accepts, advance'⟩ := ih _ advance.within rest
      refine ⟨_ :: added, by simp, by simp [length], ?_, ?_, advance.trans advance'⟩
      · simpa using ⟨⟨canonical, distinct⟩, all⟩
      · simp [acceptsAll, accepted, accepts]

theorem allocateArray_ok {claimed : Nat} {first last : Cursor} {result : Unit}
    (within : first.Within buffer)
    (run : allocateArray allocator claimed first = (.ok result, last)) :
    Advance buffer first [] last := by
  unfold allocateArray at run
  split at run
  · cases run
    exact Advance.refl within
  · exact allocate_ok within run

theorem allocateString_ok {length : Nat} {first last : Cursor} {result : Unit}
    (within : first.Within buffer)
    (run : allocateString allocator length first = (.ok result, last)) :
    Advance buffer first [] last := by
  unfold allocateString at run
  split at run
  · cases run
    exact Advance.refl within
  · exact allocate_ok within run

/-- The array path of every container. -/
theorem container_sound {levels : Nat} {nested : Reader GeasStatus GeasValue}
    (sound : Sound buffer levels nested) {accepts : List GeasValue → GeasValue → Bool}
    {claimed : Nat} {build : List GeasValue → GeasValue} {first last : Cursor} {value : GeasValue}
    (within : first.Within buffer)
    (run : (do
      requireLeft GeasStatus.errType (countPlausible claimed)
      allocateArray allocator claimed
      let elements ← decodeElements nested accepts claimed
      pure (build elements)) first = (.ok value, last)) :
    ∃ elements, value = build elements ∧ elements.length = claimed ∧
      (∀ element ∈ elements, Canonical levels element ∧ KeysDistinct element) ∧
      acceptsAll accepts [] elements = true ∧
      Advance buffer first (encodeWriteAll elements) last := by
  simp only [bind_ok, requireLeft_ok, pure_apply, Prod.mk.injEq, Except.ok.injEq] at run
  obtain ⟨_, _, ⟨_, rfl⟩, _, _, allocated, elements, _, ran, rfl, rfl⟩ := run
  have advance := allocateArray_ok within allocated
  obtain ⟨added, values_eq, length, all, accepted, advance'⟩ :=
    collect_sound sound accepts claimed [] advance.within ran
  rw [List.nil_append] at values_eq
  subst values_eq
  exact ⟨elements, rfl, length, all, accepted, advance.trans advance'⟩

/-- A body is sound for a header when, together with the header's bytes, it
spells what it returns. -/
def BodySound (buffer : List UInt8) (levels : Nat) (ty tag : UInt32)
    (reader : Reader GeasStatus GeasValue) : Prop :=
  ∀ first last value, first.Within buffer → reader first = (.ok value, last) →
    Canonical (levels + 1) value ∧ KeysDistinct value ∧
      ∃ body, encodeWrite value = header ty tag ++ body ∧ Advance buffer first body last

theorem word_sound {width : Nat} {first last : Cursor} {tag : UInt32} {value : GeasValue}
    {build : List UInt8 → GeasValue} (within : first.Within buffer)
    (run : (do
      require GeasStatus.errType (tag == 0)
      let h ← take buffer .errType width
      pure (build h)) first = (.ok value, last)) :
    ∃ bytes, tag = 0 ∧ value = build bytes ∧ bytes.length = width ∧
      Advance buffer first bytes last := by
  simp only [bind_ok, require_ok, pure_apply, Prod.mk.injEq, Except.ok.injEq] at run
  obtain ⟨_, _, ⟨zero, rfl⟩, bytes, _, ran, rfl, rfl⟩ := run
  obtain ⟨length, advance⟩ := take_ok within ran
  exact ⟨bytes, by simpa using zero, rfl, length, advance⟩

/-- A counted container without an element type: tuple, record and sum. -/
theorem fields_sound {levels : Nat} {nested : Reader GeasStatus GeasValue}
    (sound : Sound buffer levels nested) {build : List GeasValue → GeasValue}
    {first last : Cursor} {value : GeasValue} (within : first.Within buffer)
    (run : (do
      let h ← take buffer GeasStatus.errType 8
      requireLeft .errType (countPlausible (getU64 h).toNat)
      allocateArray allocator (getU64 h).toNat
      let fields ← decodeElements nested fieldAccepts (getU64 h).toNat
      pure (build fields)) first = (.ok value, last)) :
    ∃ fields, value = build fields ∧
      (∀ field ∈ fields, Canonical levels field ∧ KeysDistinct field) ∧
      Advance buffer first (count fields.length ++ encodeWriteAll fields) last := by
  obtain ⟨h, middle, ran, rest⟩ := bind_ok.mp run
  obtain ⟨width, advance⟩ := take_ok within ran
  obtain ⟨n, fits, rfl⟩ := exists_count width
  simp only [getU64_count_alone fits] at rest
  obtain ⟨fields, rfl, rfl, all, _, advance'⟩ := container_sound sound advance.within rest
  exact ⟨fields, rfl, all, advance.trans advance'⟩

theorem decodeBody_sound {levels : Nat} {nested : Reader GeasStatus GeasValue}
    (sound : Sound buffer levels nested) (type : GeasTypeTag) (tag : UInt32) :
    BodySound buffer levels type.code tag (decodeBody allocator buffer nested (some type) tag) := by
  intro first last value within run
  cases type with
  | unit =>
      simp only [decodeBody, bind_ok, require_ok, pure_apply, Prod.mk.injEq,
        Except.ok.injEq] at run
      obtain ⟨_, _, ⟨zero, rfl⟩, rfl, rfl⟩ := run
      refine ⟨by simpa [Canonical] using zero, by simp [KeysDistinct], [], ?_, Advance.refl within⟩
      rw [encodeWrite, List.append_nil]
  | int =>
      obtain ⟨bytes, rfl, rfl, width, advance⟩ := word_sound within run
      obtain ⟨word, rfl⟩ := exists_putU64 width
      exact ⟨by simp [Canonical], by simp [KeysDistinct], _, by simp [encodeWrite], advance⟩
  | uint =>
      obtain ⟨bytes, rfl, rfl, width, advance⟩ := word_sound within run
      obtain ⟨word, rfl⟩ := exists_putU64 width
      exact ⟨by simp [Canonical], by simp [KeysDistinct], _, by simp [encodeWrite], advance⟩
  | float =>
      obtain ⟨bytes, rfl, rfl, width, advance⟩ := word_sound within run
      obtain ⟨word, rfl⟩ := exists_putU64 width
      exact ⟨by simp [Canonical], by simp [KeysDistinct], _, by simp [encodeWrite], advance⟩
  | bool =>
      simp only [decodeBody, bind_ok, require_ok, pure_apply, Prod.mk.injEq,
        Except.ok.injEq] at run
      obtain ⟨_, _, ⟨zero, rfl⟩, bytes, _, ran, _, _, ⟨small, rfl⟩, rfl, rfl⟩ := run
      obtain ⟨width, advance⟩ := take_ok within ran
      obtain ⟨b, rfl⟩ := List.length_eq_one_iff.mp width
      refine ⟨?_, by simp [KeysDistinct], _, by simp [encodeWrite], advance⟩
      exact ⟨by simpa using zero, by simpa using small⟩
  | byte =>
      obtain ⟨bytes, rfl, rfl, width, advance⟩ := word_sound within run
      obtain ⟨b, rfl⟩ := List.length_eq_one_iff.mp width
      exact ⟨by simp [Canonical], by simp [KeysDistinct], _, by simp [encodeWrite], advance⟩
  | char =>
      simp only [decodeBody, bind_ok, require_ok, pure_apply, Prod.mk.injEq,
        Except.ok.injEq] at run
      obtain ⟨_, _, ⟨zero, rfl⟩, bytes, _, ran, _, _, ⟨formed, rfl⟩, rfl, rfl⟩ := run
      obtain ⟨width, advance⟩ := take_ok within ran
      obtain ⟨word, rfl⟩ := exists_putU32 width
      refine ⟨?_, by simp [KeysDistinct], _, by simp [encodeWrite], advance⟩
      exact ⟨by simpa using zero, by simpa using formed⟩
  | string =>
      simp only [decodeBody, bind_ok, require_ok, requireLeft_ok, pure_apply, Prod.mk.injEq,
        Except.ok.injEq] at run
      obtain ⟨_, _, ⟨zero, rfl⟩, h, middle, measured, _, _, ⟨_, rfl⟩, bytes, _, ran, _, _,
        copied, rfl, rfl⟩ := run
      obtain ⟨width, advance⟩ := take_ok within measured
      obtain ⟨n, fits, rfl⟩ := exists_count width
      rw [getU64_count_alone fits] at ran copied
      obtain ⟨rfl, advance'⟩ := take_ok advance.within ran
      have advance'' := allocateString_ok advance'.within copied
      refine ⟨by simpa [Canonical] using zero, by simp [KeysDistinct], _, ?_,
        (advance.trans advance').trans advance''⟩
      simp [encodeWrite]
  | list =>
      simp only [decodeBody] at run
      obtain ⟨_, _, tested, run⟩ := bind_ok.mp run
      obtain ⟨zero, rfl⟩ := require_ok.mp tested
      obtain ⟨h, middle, ran, rest⟩ := bind_ok.mp run
      obtain ⟨width, advance⟩ := take_ok within ran
      obtain ⟨n, elemTy, fits, rfl⟩ := exists_count_putU32 width
      simp only [getU64_count fits, getU32_count_drop] at rest
      obtain ⟨_, _, tested, rest⟩ := bind_ok.mp rest
      obtain ⟨crosses, rfl⟩ := require_ok.mp tested
      obtain ⟨elements, rfl, rfl, all, accepted, advance'⟩ :=
        container_sound sound advance.within rest
      rw [acceptsAll_list elemTy 0] at accepted
      refine ⟨?_, ?_, _, by rw [encodeWrite], advance.trans advance'⟩
      · exact ⟨by simpa using zero, crosses, accepted, fun element mem => (all element mem).1⟩
      · rw [KeysDistinct, allKeysDistinct_iff]
        exact fun element mem => (all element mem).2
  | map =>
      simp only [decodeBody] at run
      obtain ⟨_, _, tested, run⟩ := bind_ok.mp run
      obtain ⟨zero, rfl⟩ := require_ok.mp tested
      obtain ⟨h, middle, ran, rest⟩ := bind_ok.mp run
      obtain ⟨width, advance⟩ := take_ok within ran
      obtain ⟨n, keyTy, fits, rfl⟩ := exists_count_putU32 width
      simp only [getU64_count fits, getU32_count_drop] at rest
      obtain ⟨_, _, tested, rest⟩ := bind_ok.mp rest
      obtain ⟨even, rfl⟩ := require_ok.mp tested
      obtain ⟨_, _, tested, rest⟩ := bind_ok.mp rest
      obtain ⟨keyable, rfl⟩ := require_ok.mp tested
      obtain ⟨slots, rfl, rfl, all, accepted, advance'⟩ :=
        container_sound sound advance.within rest
      obtain ⟨fit, apart⟩ := (acceptsAll_map keyTy [] slots).mp ⟨accepted, List.Pairwise.nil⟩
      refine ⟨?_, ?_, _, by rw [encodeWrite], advance.trans advance'⟩
      · exact ⟨by simpa using zero, keyable, by simpa using even, fit,
          fun slot mem => (all slot mem).1⟩
      · rw [KeysDistinct, allKeysDistinct_iff]
        exact ⟨apart, fun slot mem => (all slot mem).2⟩
  | tuple =>
      obtain ⟨_, _, tested, run⟩ := bind_ok.mp run
      obtain ⟨zero, rfl⟩ := require_ok.mp tested
      obtain ⟨fields, rfl, all, advance⟩ := fields_sound sound within run
      refine ⟨⟨by simpa using zero, fun field mem => (all field mem).1⟩, ?_, _,
        by rw [encodeWrite], advance⟩
      rw [KeysDistinct, allKeysDistinct_iff]
      exact fun field mem => (all field mem).2
  | record =>
      obtain ⟨_, _, tested, run⟩ := bind_ok.mp run
      obtain ⟨zero, rfl⟩ := require_ok.mp tested
      obtain ⟨fields, rfl, all, advance⟩ := fields_sound sound within run
      refine ⟨⟨by simpa using zero, fun field mem => (all field mem).1⟩, ?_, _,
        by rw [encodeWrite], advance⟩
      rw [KeysDistinct, allKeysDistinct_iff]
      exact fun field mem => (all field mem).2
  | sum =>
      obtain ⟨fields, rfl, all, advance⟩ := fields_sound sound within run
      refine ⟨fun field mem => (all field mem).1, ?_, _, by rw [encodeWrite], advance⟩
      rw [KeysDistinct, allKeysDistinct_iff]
      exact fun field mem => (all field mem).2
  | option =>
      simp only [decodeBody] at run
      obtain ⟨_, _, tested, run⟩ := bind_ok.mp run
      obtain ⟨small, rfl⟩ := require_ok.mp tested
      split at run
      · next zero =>
        cases run
        exact ⟨zero, by simp [KeysDistinct], [], by rw [encodeWrite, List.append_nil],
          Advance.refl within⟩
      · next nonzero =>
        obtain ⟨_, middle, boxed, run⟩ := bind_ok.mp run
        have advance := allocate_ok within boxed
        obtain ⟨content, _, ran, run⟩ := bind_ok.mp run
        cases run
        obtain ⟨canonical, distinct, advance'⟩ := sound _ _ _ advance.within ran
        have one : tag = 1 := tag_eq_one_iff.mp ⟨by simpa using small, nonzero⟩
        exact ⟨⟨one, canonical⟩, by simpa [KeysDistinct] using distinct, _,
          by rw [encodeWrite, if_pos one, List.nil_append], advance.trans advance'⟩
  | result =>
      simp only [decodeBody] at run
      obtain ⟨_, _, tested, run⟩ := bind_ok.mp run
      obtain ⟨small, rfl⟩ := require_ok.mp tested
      obtain ⟨_, middle, boxed, run⟩ := bind_ok.mp run
      have advance := allocate_ok within boxed
      obtain ⟨content, _, ran, run⟩ := bind_ok.mp run
      cases run
      obtain ⟨canonical, distinct, advance'⟩ := sound _ _ _ advance.within ran
      exact ⟨⟨by simpa using small, canonical⟩, by simpa [KeysDistinct] using distinct, _,
        by rw [encodeWrite, List.nil_append], advance.trans advance'⟩
  | pledgeRef => cases run
  | inst => cases run

/-- A successful decoding run returns a canonical value with distinct map keys,
and consumes exactly its spelling. -/
theorem decodeRec_sound (levels : Nat) :
    Sound buffer levels (decodeRec allocator buffer levels) := by
  induction levels with
  | zero =>
      intro first last value within run
      cases run
  | succ levels ih =>
      intro first last value within run
      rw [decodeRec] at run
      obtain ⟨h, middle, ran, run⟩ := bind_ok.mp run
      obtain ⟨width, advance⟩ := take_ok within ran
      obtain ⟨ty, tag, rfl⟩ := exists_header width
      simp only [getU32_header, getU32_header_drop] at run
      cases defined : GeasTypeTag.ofCode ty with
      | none =>
          rw [defined] at run
          cases run
      | some type =>
          rw [defined] at run
          obtain rfl := GeasTypeTag.code_of_ofCode defined
          obtain ⟨canonical, distinct, body, spelled, advance'⟩ :=
            decodeBody_sound ih type tag _ _ _ advance.within run
          exact ⟨canonical, distinct, by rw [spelled]; exact advance.trans advance'⟩

end Sound

/-! ## Completeness -/

section Complete

variable {allocator : Allocator} {buffer : List UInt8}

/-- A reader of values is complete when it finds every canonical value with
distinct map keys in its spelling. -/
def Complete (buffer : List UInt8) (levels : Nat) (reader : Reader GeasStatus GeasValue) : Prop :=
  ∀ value, Canonical levels value → KeysDistinct value → (encodeWrite value).length ≤ sizeMax →
    Delivers buffer reader (encodeWrite value) value

theorem collect_delivers {levels : Nat} {nested : Reader GeasStatus GeasValue}
    (complete : Complete buffer levels nested) {accepts : List GeasValue → GeasValue → Bool}
    (added : List GeasValue) (earlier : List GeasValue)
    (canonical : ∀ value ∈ added, Canonical levels value) (distinct : AllKeysDistinct added)
    (fits : (encodeWriteAll added).length ≤ sizeMax)
    (accepted : acceptsAll accepts earlier added = true) :
    Delivers buffer (collect (fun earlier => do
      let value ← nested
      require .errType (accepts earlier value)
      pure value) added.length earlier) (encodeWriteAll added) (earlier ++ added) := by
  induction added generalizing earlier with
  | nil => simpa [collect, encodeWriteAll] using Delivers.pure earlier
  | cons value rest ih =>
      simp only [encodeWriteAll, List.length_append] at fits
      simp only [acceptsAll, Bool.and_eq_true] at accepted
      have tail := ih (earlier ++ [value])
        (fun later membership => canonical later (List.mem_cons_of_mem _ membership))
        distinct.2 (by omega) accepted.2
      rw [List.append_assoc, List.singleton_append] at tail
      have head := complete value (canonical value List.mem_cons_self) distinct.1 (by omega)
      exact (head.finish ((Delivers.require accepted.1).silent (Delivers.pure value))).bind tail

theorem allocateArray_delivers (grants : ∀ trace access, allocator trace access = true)
    (claimed : Nat) : Delivers buffer (allocateArray allocator claimed) [] () := by
  unfold allocateArray
  split
  · exact Delivers.pure ()
  · exact Delivers.allocate grants _

theorem allocateString_delivers (grants : ∀ trace access, allocator trace access = true)
    (length : Nat) : Delivers buffer (allocateString allocator length) [] () := by
  unfold allocateString
  split
  · exact Delivers.pure ()
  · exact Delivers.allocate grants _

/-- The array path of every container.  A count is credible where its elements
follow, since each of them is at least a header long. -/
theorem container_delivers {levels : Nat} {nested : Reader GeasStatus GeasValue}
    (grants : ∀ trace access, allocator trace access = true)
    (complete : Complete buffer levels nested) {accepts : List GeasValue → GeasValue → Bool}
    {elements : List GeasValue} (build : List GeasValue → GeasValue)
    (canonical : ∀ element ∈ elements, Canonical levels element)
    (distinct : AllKeysDistinct elements) (fits : (encodeWriteAll elements).length ≤ sizeMax)
    (accepted : acceptsAll accepts [] elements = true) :
    Delivers buffer (do
      requireLeft GeasStatus.errType (countPlausible elements.length)
      allocateArray allocator elements.length
      let elements ← decodeElements nested accepts elements.length
      pure (build elements)) (encodeWriteAll elements) (build elements) := by
  have enough := encodeWriteAll_length_ge elements
  refine Delivers.requireLeft ?_ ((allocateArray_delivers grants _).silent
    ((collect_delivers complete elements [] canonical distinct fits accepted).finish
      (Delivers.pure _)))
  intro left room
  simp only [countPlausible, decide_eq_true_eq]
  omega

/-- A counted container without an element type. -/
theorem fields_delivers {levels : Nat} {nested : Reader GeasStatus GeasValue}
    (grants : ∀ trace access, allocator trace access = true)
    (complete : Complete buffer levels nested) {fields : List GeasValue}
    (build : List GeasValue → GeasValue) (canonical : ∀ field ∈ fields, Canonical levels field)
    (distinct : AllKeysDistinct fields)
    (fits : (count fields.length ++ encodeWriteAll fields).length ≤ sizeMax) :
    Delivers buffer (do
      let h ← take buffer GeasStatus.errType 8
      requireLeft .errType (countPlausible (getU64 h).toNat)
      allocateArray allocator (getU64 h).toNat
      let fields ← decodeElements nested fieldAccepts (getU64 h).toNat
      pure (build fields)) (count fields.length ++ encodeWriteAll fields) (build fields) := by
  have enough := encodeWriteAll_length_ge fields
  rw [List.length_append, count_length] at fits
  refine (Delivers.take GeasStatus.errType (count fields.length)).bind ?_
  simp only [getU64_count_alone (show fields.length ≤ sizeMax by omega)]
  exact container_delivers grants complete build canonical distinct (by omega)
    (acceptsAll_field [] fields)

/-- One level of the decoder: the header, then the body its type code selects. -/
theorem decodeRec_delivers {levels : Nat} (type : GeasTypeTag) {tag : UInt32}
    {body : List UInt8} {value : GeasValue}
    (delivers : Delivers buffer
      (decodeBody allocator buffer (decodeRec allocator buffer levels) (some type) tag) body value) :
    Delivers buffer (decodeRec allocator buffer (levels + 1)) (header type.code tag ++ body)
      value := by
  rw [decodeRec]
  refine (Delivers.take GeasStatus.errType (header type.code tag)).bind ?_
  rw [getU32_header, getU32_header_drop, GeasTypeTag.ofCode_code]
  exact delivers

/-- A scalar whose body is one fixed-width word. -/
theorem word_delivers (bytes : List UInt8) (build : List UInt8 → GeasValue) :
    Delivers buffer (do
      require GeasStatus.errType ((0 : UInt32) == 0)
      let h ← take buffer .errType bytes.length
      pure (build h)) bytes (build bytes) :=
  (Delivers.require rfl).silent ((Delivers.take _ bytes).finish (Delivers.pure _))

theorem string_delivers (grants : ∀ trace access, allocator trace access = true)
    {bytes : List UInt8} (fits : (count bytes.length ++ bytes).length ≤ sizeMax)
    (nested : Reader GeasStatus GeasValue) :
    Delivers buffer (decodeBody allocator buffer nested (some .string) 0)
      (count bytes.length ++ bytes) (.string 0 (some bytes)) := by
  rw [List.length_append, count_length] at fits
  refine (Delivers.require rfl).silent
    ((Delivers.take GeasStatus.errType (count bytes.length)).bind ?_)
  simp only [getU64_count_alone (show bytes.length ≤ sizeMax by omega)]
  refine Delivers.requireLeft (fun left room => by simpa using room)
    ((Delivers.take _ bytes).finish
      ((allocateString_delivers grants _).silent (Delivers.pure _)))

theorem list_delivers {levels : Nat} {nested : Reader GeasStatus GeasValue}
    (grants : ∀ trace access, allocator trace access = true)
    (complete : Complete buffer levels nested) {elemTy : UInt32} {elements : List GeasValue}
    (canonical : Canonical (levels + 1) (.list 0 elemTy (some elements)))
    (distinct : AllKeysDistinct elements)
    (fits : (count elements.length ++ putU32 elemTy ++ encodeWriteAll elements).length ≤ sizeMax) :
    Delivers buffer (decodeBody allocator buffer nested (some .list) 0)
      (count elements.length ++ putU32 elemTy ++ encodeWriteAll elements)
      (.list 0 elemTy (some elements)) := by
  obtain ⟨-, crosses, typed, all⟩ := canonical
  have enough := encodeWriteAll_length_ge elements
  simp only [List.length_append, count_length, putU32_length] at fits
  refine (Delivers.require rfl).silent
    ((Delivers.take GeasStatus.errType (count elements.length ++ putU32 elemTy)).bind ?_)
  simp only [getU64_count (show elements.length ≤ sizeMax by omega), getU32_count_drop]
  exact (Delivers.require crosses).silent
    (container_delivers grants complete _ all distinct (by omega)
      (by rw [acceptsAll_list elemTy 0]; exact typed))

theorem map_delivers {levels : Nat} {nested : Reader GeasStatus GeasValue}
    (grants : ∀ trace access, allocator trace access = true)
    (complete : Complete buffer levels nested) {keyTy : UInt32} {slots : List GeasValue}
    (canonical : Canonical (levels + 1) (.map 0 keyTy (some slots)))
    (apart : KeysApart slots) (distinct : AllKeysDistinct slots)
    (fits : (count slots.length ++ putU32 keyTy ++ encodeWriteAll slots).length ≤ sizeMax) :
    Delivers buffer (decodeBody allocator buffer nested (some .map) 0)
      (count slots.length ++ putU32 keyTy ++ encodeWriteAll slots)
      (.map 0 keyTy (some slots)) := by
  obtain ⟨-, keyable, even, typed, all⟩ := canonical
  have enough := encodeWriteAll_length_ge slots
  have accepted := (acceptsAll_map keyTy [] slots).mpr ⟨typed, apart⟩
  simp only [List.length_append, count_length, putU32_length] at fits
  refine (Delivers.require rfl).silent
    ((Delivers.take GeasStatus.errType (count slots.length ++ putU32 keyTy)).bind ?_)
  simp only [getU64_count (show slots.length ≤ sizeMax by omega), getU32_count_drop]
  exact (Delivers.require (by simpa using even)).silent
    ((Delivers.require keyable).silent
      (container_delivers grants complete _ all distinct (by omega) accepted.1))

/-- The decoder finds every canonical value with distinct map keys in its
spelling, whatever follows it. -/
theorem decodeRec_complete (grants : ∀ trace access, allocator trace access = true)
    (levels : Nat) : Complete buffer levels (decodeRec allocator buffer levels) := by
  induction levels with
  | zero =>
      intro value canonical
      exact canonical.elim
  | succ levels ih =>
      intro value canonical distinct fits
      cases value with
      | unit tag =>
          obtain rfl : tag = 0 := canonical
          rw [encodeWrite, ← List.append_nil (header _ _)]
          exact decodeRec_delivers .unit
            ((Delivers.require rfl).silent (Delivers.pure (GeasValue.unit 0)))
      | int tag i =>
          obtain rfl : tag = 0 := canonical
          have delivers : Delivers buffer _ _ _ :=
            word_delivers (putU64 i.toUInt64) fun h => .int 0 (getU64 h).toInt64
          rw [getU64_putU64_alone, Int64.toInt64_toUInt64] at delivers
          exact decodeRec_delivers .int delivers
      | uint tag u =>
          obtain rfl : tag = 0 := canonical
          have delivers : Delivers buffer _ _ _ :=
            word_delivers (putU64 u) fun h => .uint 0 (getU64 h)
          rw [getU64_putU64_alone] at delivers
          exact decodeRec_delivers .uint delivers
      | float tag bits =>
          obtain rfl : tag = 0 := canonical
          have delivers : Delivers buffer _ _ _ :=
            word_delivers (putU64 bits) fun h => .float 0 (getU64 h)
          rw [getU64_putU64_alone] at delivers
          exact decodeRec_delivers .float delivers
      | bool tag b =>
          obtain ⟨rfl, small⟩ : tag = 0 ∧ b ≤ 1 := canonical
          exact decodeRec_delivers .bool ((Delivers.require rfl).silent
            ((Delivers.take GeasStatus.errType [b]).finish
              ((Delivers.require (by simpa using small)).silent (Delivers.pure (GeasValue.bool 0 b)))))
      | byte tag b =>
          obtain rfl : tag = 0 := canonical
          exact decodeRec_delivers .byte (word_delivers [b] fun h => .byte 0 (h.headD 0))
      | char tag ch =>
          obtain ⟨rfl, formed⟩ : tag = 0 ∧ charMalformed ch = false := canonical
          have delivers : Delivers buffer (do
              require GeasStatus.errType (!charMalformed (getU32 (putU32 ch)))
              pure (GeasValue.char 0 (getU32 (putU32 ch)))) [] (.char 0 ch) := by
            rw [getU32_putU32_alone]
            exact (Delivers.require (by simp [formed])).silent (Delivers.pure _)
          exact decodeRec_delivers .char ((Delivers.require rfl).silent
            ((Delivers.take GeasStatus.errType (putU32 ch)).finish delivers))
      | string tag data =>
          cases data with
          | none => simp [Canonical] at canonical
          | some bytes =>
              obtain rfl : tag = 0 := canonical.1
              rw [encodeWrite, List.length_append] at fits
              exact decodeRec_delivers .string (string_delivers grants (by omega) _)
      | list tag elemTy data =>
          cases data with
          | none => exact canonical.elim
          | some elements =>
              obtain rfl : tag = 0 := canonical.1
              rw [KeysDistinct] at distinct
              rw [encodeWrite, List.length_append] at fits
              rw [encodeWrite]
              exact decodeRec_delivers .list
                (list_delivers grants ih canonical distinct (by omega))
      | map tag keyTy data =>
          cases data with
          | none => exact canonical.elim
          | some slots =>
              obtain rfl : tag = 0 := canonical.1
              rw [KeysDistinct] at distinct
              rw [encodeWrite, List.length_append] at fits
              rw [encodeWrite]
              exact decodeRec_delivers .map
                (map_delivers grants ih canonical distinct.1 distinct.2 (by omega))
      | tuple tag data =>
          cases data with
          | none => exact canonical.elim
          | some fields =>
              obtain ⟨rfl, all⟩ : tag = 0 ∧ ∀ field ∈ fields, Canonical levels field := canonical
              rw [KeysDistinct] at distinct
              rw [encodeWrite, List.length_append] at fits
              rw [encodeWrite]
              exact decodeRec_delivers .tuple ((Delivers.require rfl).silent
                (fields_delivers grants ih _ all distinct (by omega)))
      | record tag data =>
          cases data with
          | none => exact canonical.elim
          | some fields =>
              obtain ⟨rfl, all⟩ : tag = 0 ∧ ∀ field ∈ fields, Canonical levels field := canonical
              rw [KeysDistinct] at distinct
              rw [encodeWrite, List.length_append] at fits
              rw [encodeWrite]
              exact decodeRec_delivers .record ((Delivers.require rfl).silent
                (fields_delivers grants ih _ all distinct (by omega)))
      | sum tag data =>
          cases data with
          | none => exact canonical.elim
          | some fields =>
              rw [KeysDistinct] at distinct
              rw [encodeWrite, List.length_append] at fits
              rw [encodeWrite]
              exact decodeRec_delivers .sum
                (fields_delivers grants ih _ canonical distinct (by omega))
      | option tag box =>
          cases box with
          | none =>
              obtain rfl : tag = 0 := canonical
              rw [encodeWrite, ← List.append_nil (header _ _)]
              exact decodeRec_delivers .option
                ((Delivers.require rfl).silent (Delivers.pure (GeasValue.option 0 none)))
          | some content =>
              obtain ⟨rfl, inner⟩ : tag = 1 ∧ Canonical levels content := canonical
              rw [KeysDistinct] at distinct
              rw [encodeWrite, if_pos rfl, List.length_append] at fits
              rw [encodeWrite, if_pos rfl]
              exact decodeRec_delivers .option ((Delivers.require (by decide)).silent
                ((Delivers.allocate grants _).silent
                  ((ih content inner distinct (by omega)).finish (Delivers.pure _))))
      | result tag box =>
          cases box with
          | none => exact canonical.elim
          | some content =>
              obtain ⟨small, inner⟩ : tag ≤ 1 ∧ Canonical levels content := canonical
              rw [KeysDistinct] at distinct
              rw [encodeWrite, List.length_append] at fits
              rw [encodeWrite]
              exact decodeRec_delivers .result ((Delivers.require (by simpa using small)).silent
                ((Delivers.allocate grants _).silent
                  ((ih content inner distinct (by omega)).finish (Delivers.pure _))))
      | pledgeRef | inst | unknown => exact canonical.elim

end Complete

/-! ## The two entry points -/

/-- A value the encoder can spell: canonical within the depth limit, and short
enough for a `size_t`. -/
def Encodable (value : GeasValue) : Prop :=
  Canonical maxDepth value ∧ (encodeWrite value).length ≤ sizeMax

theorem encodeSize_ok_iff (value : GeasValue) (size : Nat) :
    encodeSize 1 value 0 = .ok size ↔ Encodable value ∧ size = (encodeWrite value).length := by
  rw [(encodeSize_measures 1 value 0 size (Nat.zero_le _)).1, Nat.add_sub_cancel, Nat.zero_add,
    Encodable]
  constructor
  · rintro ⟨canonical, rfl, fits⟩
    exact ⟨⟨canonical, fits⟩, rfl⟩
  · rintro ⟨⟨canonical, fits⟩, rfl⟩
    exact ⟨canonical, rfl, fits⟩

/-- On an encodable value the encoder reports the length of the spelling, and
writes it whenever the buffer has room. -/
theorem geasWireEncodeValue_of_encodable {value : GeasValue} (encodable : Encodable value)
    (capacity : Option Nat) :
    geasWireEncodeValue value capacity =
      if ∃ room, capacity = some room ∧ (encodeWrite value).length ≤ room then
        ⟨.ok, some (encodeWrite value).length, encodeWrite value⟩
      else ⟨.errOom, some (encodeWrite value).length, []⟩ := by
  have sized := (encodeSize_ok_iff value _).mpr ⟨encodable, rfl⟩
  unfold geasWireEncodeValue
  rw [sized]
  cases capacity with
  | none => simp
  | some room =>
      by_cases short : room < (encodeWrite value).length
      · simp [short]
      · simp [short, Nat.le_of_not_lt short]

/-- The encoder succeeds exactly on encodable values that fit the buffer. -/
theorem geasWireEncodeValue_status (value : GeasValue) (room : Nat) :
    (geasWireEncodeValue value (some room)).status = .ok ↔
      Encodable value ∧ (encodeWrite value).length ≤ room := by
  constructor
  · intro ok
    have encodable : Encodable value := by
      cases sized : encodeSize 1 value 0 with
      | error status =>
          have failed := (encodeSize_measures 1 value 0 0 (Nat.zero_le _)).2
          simp only [geasWireEncodeValue, sized] at ok
          rw [sized, ok] at failed
          exact absurd rfl failed
      | ok size => exact ((encodeSize_ok_iff value size).mp sized).1
    refine ⟨encodable, ?_⟩
    rw [geasWireEncodeValue_of_encodable encodable] at ok
    by_cases fits : (encodeWrite value).length ≤ room
    · exact fits
    · simp [fits] at ok
  · rintro ⟨encodable, fits⟩
    rw [geasWireEncodeValue_of_encodable encodable, if_pos ⟨room, rfl, fits⟩]

theorem decodeRec_kept {allocator : Allocator} (buffer : List UInt8) :
    KeptAt (InBounds buffer) (· ≠ GeasStatus.ok) (decodeRec allocator buffer maxDepth)
      ⟨0, buffer.length, []⟩ :=
  decodeRec_preserves maxDepth _ ⟨Nat.zero_add _, by simp⟩

theorem geasWireDecodeValue_trace (allocator : Allocator) (buffer : List UInt8) :
    ∀ access ∈ (geasWireDecodeValue allocator buffer).trace, Access.Inside buffer access := by
  have kept : KeptAt (InBounds buffer) _ (decodeRec allocator buffer maxDepth) _ :=
    decodeRec_kept buffer
  have accesses := kept.after.accesses
  unfold geasWireDecodeValue
  split
  · next run => rwa [run] at accesses
  · next run => rwa [run] at accesses

theorem geasWireDecodeValue_fault {allocator : Allocator} {buffer : List UInt8}
    (failed : (geasWireDecodeValue allocator buffer).status ≠ .ok) :
    (geasWireDecodeValue allocator buffer).out = .zero ∧
      (geasWireDecodeValue allocator buffer).consumed = 0 := by
  unfold geasWireDecodeValue at failed ⊢
  split
  · next run =>
    rw [run] at failed
    exact absurd rfl failed
  · exact ⟨rfl, rfl⟩

/-- What a successful call of the decoder returned is encodable, keeps its map
keys apart and is spelled by the bytes consumed. -/
theorem geasWireDecodeValue_sound {allocator : Allocator} {buffer : List UInt8}
    (addressable : buffer.length ≤ sizeMax)
    (ok : (geasWireDecodeValue allocator buffer).status = .ok) :
    Encodable (geasWireDecodeValue allocator buffer).out ∧
      KeysDistinct (geasWireDecodeValue allocator buffer).out ∧
      (geasWireDecodeValue allocator buffer).consumed =
        (encodeWrite (geasWireDecodeValue allocator buffer).out).length ∧
      encodeWrite (geasWireDecodeValue allocator buffer).out <+: buffer := by
  have start : (Cursor.mk 0 buffer.length []).Within buffer := Nat.zero_add _
  unfold geasWireDecodeValue at ok ⊢
  cases run : decodeRec allocator buffer maxDepth ⟨0, buffer.length, []⟩ with
  | mk outcome last =>
      rw [run] at ok
      cases outcome with
      | error status => exact absurd ok ((decodeRec_kept buffer).fault status (by rw [run]))
      | ok value =>
          obtain ⟨canonical, distinct, advance⟩ := decodeRec_sound maxDepth _ _ _ start run
          have length := advance.length start
          have spelled := advance.bytes
          rw [List.drop_zero] at spelled
          exact ⟨⟨canonical, by simp only at length ⊢; omega⟩, distinct,
            by simp only at length ⊢; omega, ⟨_, spelled.symm⟩⟩

/-- The decoder finds an encodable value with distinct map keys in front of
anything. -/
theorem geasWireDecodeValue_complete {allocator : Allocator}
    (grants : ∀ trace access, allocator trace access = true) {value : GeasValue}
    (encodable : Encodable value) (distinct : KeysDistinct value) (rest : List UInt8) :
    (geasWireDecodeValue allocator (encodeWrite value ++ rest)).status = .ok ∧
      (geasWireDecodeValue allocator (encodeWrite value ++ rest)).out = value ∧
      (geasWireDecodeValue allocator (encodeWrite value ++ rest)).consumed =
        (encodeWrite value).length := by
  have start : (Cursor.mk 0 (encodeWrite value ++ rest).length []).Within
      (encodeWrite value ++ rest) := Nat.zero_add _
  obtain ⟨last, run, advance⟩ := decodeRec_complete grants maxDepth value encodable.1 distinct
    encodable.2 _ rest start rfl
  have length := advance.length start
  unfold geasWireDecodeValue
  rw [run]
  exact ⟨rfl, rfl, by simp only at length ⊢; omega⟩

/-- A fully consumed buffer is the spelling of what it decodes to. -/
theorem geasWireDecodeValue_whole {allocator : Allocator} {buffer : List UInt8}
    (addressable : buffer.length ≤ sizeMax)
    (ok : (geasWireDecodeValue allocator buffer).status = .ok)
    (whole : (geasWireDecodeValue allocator buffer).consumed = buffer.length) :
    encodeWrite (geasWireDecodeValue allocator buffer).out = buffer := by
  obtain ⟨-, -, length, spelled⟩ := geasWireDecodeValue_sound addressable ok
  exact spelled.eq_of_length (length.symm.trans whole)

/-- Encoding, then decoding what was written in front of anything, returns the
value, and every call agrees on the number of bytes. -/
theorem wire_roundTrip {allocator : Allocator}
    (grants : ∀ trace access, allocator trace access = true) {value : GeasValue} {capacity : Nat}
    (accepted : (geasWireEncodeValue value (some capacity)).status = .ok)
    (distinct : KeysDistinct value) :
    (∀ room, (geasWireEncodeValue value room).need =
      some (geasWireEncodeValue value (some capacity)).written.length) ∧
    ∀ rest, ∃ need,
      (geasWireEncodeValue value (some capacity)).need = some need ∧
      (geasWireDecodeValue allocator
        ((geasWireEncodeValue value (some capacity)).written ++ rest)).status = .ok ∧
      (geasWireDecodeValue allocator
        ((geasWireEncodeValue value (some capacity)).written ++ rest)).out = value ∧
      (geasWireDecodeValue allocator
        ((geasWireEncodeValue value (some capacity)).written ++ rest)).consumed = need := by
  obtain ⟨encodable, fits⟩ := (geasWireEncodeValue_status value capacity).mp accepted
  have written : geasWireEncodeValue value (some capacity) =
      ⟨.ok, some (encodeWrite value).length, encodeWrite value⟩ := by
    rw [geasWireEncodeValue_of_encodable encodable, if_pos ⟨capacity, rfl, fits⟩]
  rw [written]
  refine ⟨?_, ?_⟩
  · intro room
    rw [geasWireEncodeValue_of_encodable encodable]
    split <;> rfl
  · intro rest
    exact ⟨_, rfl, geasWireDecodeValue_complete grants encodable distinct rest⟩

/-- A map from the string "k" to an optional integer list, used as a concrete
input. -/
def sampleValue : GeasValue :=
  .map 0 GeasTypeTag.string.code (some [.string 0 (some [107]),
    .option 1 (some (.list 0 GeasTypeTag.int.code (some [.int 0 7, .int 0 (-1)])))])

theorem wire_roundTrip_sample :
    (geasWireEncodeValue sampleValue (some 200)).status = .ok ∧
    ∃ need, (geasWireEncodeValue sampleValue (some 200)).need = some need ∧
      (geasWireDecodeValue (fun _ _ => true)
        ((geasWireEncodeValue sampleValue (some 200)).written ++ [1, 2, 3])).consumed = need := by
  have accepted : (geasWireEncodeValue sampleValue (some 200)).status = .ok := by decide
  have distinct : KeysDistinct sampleValue := by
    simp [sampleValue, KeysDistinct, AllKeysDistinct, mapKeys]
  obtain ⟨need, reported, -, -, consumed⟩ :=
    (wire_roundTrip (fun _ _ => rfl) accepted distinct).2 [1, 2, 3]
  exact ⟨accepted, need, reported, consumed⟩

/-- On any bytes the decoder stays inside them, sizes its arrays by what is
left, and either fails with nothing to show or returns a value that the encoder
spells as the bytes consumed.  So no two fully consumed buffers give one
value. -/
theorem decode_canonical {buffer : List UInt8} (addressable : buffer.length ≤ sizeMax)
    (allocator : Allocator) :
    (∀ access ∈ (geasWireDecodeValue allocator buffer).trace, Access.Inside buffer access) ∧
    (((geasWireDecodeValue allocator buffer).status ≠ .ok ∧
        (geasWireDecodeValue allocator buffer).out = .zero ∧
        (geasWireDecodeValue allocator buffer).consumed = 0) ∨
      ((geasWireDecodeValue allocator buffer).status = .ok ∧
        (geasWireDecodeValue allocator buffer).consumed ≤ buffer.length ∧
        geasWireEncodeValue (geasWireDecodeValue allocator buffer).out (some buffer.length) =
          ⟨.ok, some (geasWireDecodeValue allocator buffer).consumed,
            buffer.take (geasWireDecodeValue allocator buffer).consumed⟩)) ∧
    ∀ (allocator' : Allocator) (buffer' : List UInt8), buffer'.length ≤ sizeMax →
      (geasWireDecodeValue allocator buffer).status = .ok →
      (geasWireDecodeValue allocator' buffer').status = .ok →
      (geasWireDecodeValue allocator buffer).consumed = buffer.length →
      (geasWireDecodeValue allocator' buffer').consumed = buffer'.length →
      (geasWireDecodeValue allocator buffer).out = (geasWireDecodeValue allocator' buffer').out →
      buffer = buffer' := by
  refine ⟨geasWireDecodeValue_trace allocator buffer, ?_, ?_⟩
  · by_cases ok : (geasWireDecodeValue allocator buffer).status = .ok
    · obtain ⟨encodable, -, length, spelled⟩ := geasWireDecodeValue_sound addressable ok
      have short := spelled.length_le
      refine Or.inr ⟨ok, length.trans_le short, ?_⟩
      rw [geasWireEncodeValue_of_encodable encodable, if_pos ⟨_, rfl, short⟩, length,
        ← List.prefix_iff_eq_take.mp spelled]
    · exact Or.inl ⟨ok, geasWireDecodeValue_fault ok⟩
  · intro allocator' buffer' addressable' ok ok' whole whole' same
    calc
      buffer = encodeWrite (geasWireDecodeValue allocator buffer).out :=
        (geasWireDecodeValue_whole addressable ok whole).symm
      _ = encodeWrite (geasWireDecodeValue allocator' buffer').out := by rw [same]
      _ = buffer' := geasWireDecodeValue_whole addressable' ok' whole'

/-- Nine bytes that spell `true`, one more that is left alone. -/
theorem decode_canonical_bool :
    (geasWireDecodeValue (fun _ _ => true) [4, 0, 0, 0, 0, 0, 0, 0, 1, 9]).status = .ok ∧
    geasWireEncodeValue
        (geasWireDecodeValue (fun _ _ => true) [4, 0, 0, 0, 0, 0, 0, 0, 1, 9]).out (some 10) =
      ⟨.ok, some 9, [4, 0, 0, 0, 0, 0, 0, 0, 1]⟩ := by
  have ok : (geasWireDecodeValue (fun _ _ => true) [4, 0, 0, 0, 0, 0, 0, 0, 1, 9]).status = .ok := by
    decide
  have canonical := decode_canonical
    (show [4, 0, 0, 0, 0, 0, 0, 0, 1, 9].length ≤ sizeMax by decide) fun _ _ => true
  rcases canonical.2.1 with ⟨failed, -⟩ | ⟨-, -, spelled⟩
  · exact absurd ok failed
  · exact ⟨ok, spelled⟩

end Geas.Wire
