import Geas.Compiler.Shape
import Mathlib.Data.List.Pairwise
import Mathlib.Data.Nat.Bitwise

/-!
# Emitted names

The names a compiled module puts into the world: a C function for every clause and
for every pledge with a body, a mangled name for every pledge, and the mangled name
the runtime makes for the contract itself.  A contract's name and a member's name are
joined with an underscore, which both may hold, so the joined name can be split in
two ways; and a descriptor lists the pledges of all subcontracts under their bare
names.
-/

namespace Geas.Compiler.Sigs

open Geas.Runtime

/-! ### The names -/

/-- `sb_push_int` of a number that is not negative. -/
def decimalText (n : Nat) : CString :=
  (Nat.toDigits 10 n).map fun c => UInt8.ofNat c.toNat

/-- `mangle_pledge`. -/
def manglePledge (contract symbol : CString) (sighash : UInt64) (version : Nat) : CString :=
  ascii "__geas_ash_" ++ contract ++ [95] ++ symbol ++ [95] ++ hex16 sighash ++ ascii "_v" ++
    decimalText version

/-- `cg_clause_fn`: the C name of a compiled clause. -/
def cgClauseFn (cname clname : CString) : CString :=
  ascii "geas_clause_" ++ cname ++ [95] ++ clname

/-- The hash of a pledge's signature. -/
def PledgeNode.sigHash (pledge : PledgeNode) : UInt64 :=
  fnv1a64 (sigCanon pledge.params pledge.ret)

namespace ContractNode

/-- The shape hash. -/
def shapeHash (c : ContractNode) : UInt64 :=
  fnv1a64 (shapeString c)

/-- The mangled name of a pledge of the contract. -/
def mangled (c : ContractNode) (pledge : PledgeNode) : CString :=
  manglePledge c.name.text pledge.name.text pledge.sigHash c.version

/-- The descriptor the module registers for the contract. -/
def desc (c : ContractNode) : InameDesc where
  name := c.name.text
  shapeHash := c.shapeHash
  version := UInt32.ofNat c.version
  pledges := c.pledges.map fun pledge =>
    ⟨pledge.name.text, some (c.mangled pledge), UInt32.ofNat pledge.params.length⟩

/-- The C functions of the contract's clauses. -/
def clauseFns (c : ContractNode) : List CString :=
  c.clauses.map fun clause => cgClauseFn c.name.text clause.name.text

/-- The C functions of the contract's pledges that have a body. -/
def thunks (c : ContractNode) : List CString :=
  (c.pledges.filter PledgeNode.body).map c.mangled

end ContractNode

/-- The contracts a module emits: an internal contract emits nothing. -/
def Program.emitted (p : Program) : List ContractNode :=
  p.contracts.filter fun c => !c.isInternal

/-- `find_pledge`: the position of the first pledge of a name. -/
def findPledge (desc : InameDesc) (name : CString) : Option Nat :=
  desc.pledges.findIdx? fun pledge => strcmp pledge.name name == .eq

/-- No two names of a module meet: the C functions of clauses and thunks, the mangled
names of pledges and the names of contracts, a thunk going by its pledge's mangled
name; and no contract's descriptor lists two pledges of one name. -/
structure NamesDistinct (p : Program) : Prop where
  names : (p.emitted.flatMap ContractNode.clauseFns ++
    mangledNames (p.emitted.flatMap fun c => entriesOf c.desc)).Nodup
  pledges : ∀ c ∈ p.emitted, (c.desc.pledges.map InamePledge.name).Nodup

/-- The pledges of a member. -/
def Member.pledges : Member → List PledgeNode
  | .pledge pl => [pl]
  | .subcontract sub => sub.pledges
  | _ => []

/-- A named subcontract. -/
def Member.isNamedSub : Member → Bool
  | .subcontract ⟨some _, _⟩ => true
  | _ => false

/-- No name of a contract's pledges and clauses splits like one of a contract whose
name goes on after an underscore, the hashes in a mangled name told apart by theirs;
and no pledge of a named subcontract shares its name with a pledge outside it. -/
structure NoClash (p : Program) : Prop where
  pledges : ∀ c ∈ p.emitted, ∀ d ∈ p.emitted, ∀ x, d.name.text = c.name.text ++ 95 :: x →
    ∀ pl ∈ c.pledges, ∀ pl' ∈ d.pledges, pl.name.text = x ++ 95 :: pl'.name.text →
      c.version = d.version → pl.sigHash ≠ pl'.sigHash
  contracts : ∀ c ∈ p.emitted, ∀ d ∈ p.emitted, ∀ x, d.name.text = c.name.text ++ 95 :: x →
    ∀ pl ∈ c.pledges, pl.name.text = x ++ [95] →
      c.version = d.desc.version.toNat → pl.sigHash ≠ d.shapeHash
  clauses : ∀ c ∈ p.emitted, ∀ d ∈ p.emitted, ∀ x, d.name.text = c.name.text ++ 95 :: x →
    ∀ cl ∈ c.clauses, ∀ cl' ∈ d.clauses, cl.name.text ≠ x ++ 95 :: cl'.name.text
  subs : ∀ c ∈ p.emitted, c.members.Pairwise fun m m' =>
    m.isNamedSub = true ∨ m'.isNamedSub = true →
      ∀ pl ∈ m.pledges, ∀ pl' ∈ m'.pledges, pl.name ≠ pl'.name

/-! ### Taking a name apart -/

/-- Two names joined with an underscore to one text are the same names, or one of the
first goes on with a part of the other's second. -/
theorem joined_eq_iff {c d p q : CString} :
    c ++ 95 :: p = d ++ 95 :: q ↔
      (c = d ∧ p = q) ∨ (∃ x, d = c ++ 95 :: x ∧ p = x ++ 95 :: q) ∨
        ∃ x, c = d ++ 95 :: x ∧ q = x ++ 95 :: p := by
  constructor
  · intro same
    rcases List.append_eq_append_iff.mp same with ⟨t, rfl, rest⟩ | ⟨t, rfl, rest⟩
    · cases t with
      | nil =>
          simp only [List.nil_append, List.cons.injEq, true_and] at rest
          exact Or.inl ⟨by simp, rest⟩
      | cons s x =>
          simp only [List.cons_append, List.cons.injEq] at rest
          obtain ⟨rfl, rfl⟩ := rest
          exact Or.inr (Or.inl ⟨x, rfl, rfl⟩)
    · cases t with
      | nil =>
          simp only [List.nil_append, List.cons.injEq, true_and] at rest
          exact Or.inl ⟨by simp, rest.symm⟩
      | cons s x =>
          simp only [List.cons_append, List.cons.injEq] at rest
          obtain ⟨rfl, rfl⟩ := rest
          exact Or.inr (Or.inr ⟨x, rfl, rfl⟩)
  · rintro (⟨rfl, rfl⟩ | ⟨x, rfl, rfl⟩ | ⟨x, rfl, rfl⟩) <;> simp

/-- A text is split at its last underscore in one way. -/
theorem split_last {left right tail tail' : CString} (plain : 95 ∉ tail) (plain' : 95 ∉ tail')
    (same : left ++ 95 :: tail = right ++ 95 :: tail') : left = right ∧ tail = tail' := by
  rcases joined_eq_iff.mp same with split | ⟨x, -, rfl⟩ | ⟨x, -, rfl⟩
  · exact split
  · simp at plain
  · simp at plain'

theorem digit_range {c : Char} (isDigit : c.isDigit = true) : 48 ≤ c.toNat ∧ c.toNat ≤ 57 := by
  simpa [Char.isDigit, UInt32.le_iff_toNat_le] using isDigit

theorem decimalText_plain (n : Nat) : 95 ∉ decimalText n := by
  intro inside
  obtain ⟨c, member, same⟩ := List.mem_map.mp inside
  have range := digit_range (Nat.isDigit_of_mem_toDigits (by decide) (by decide) member)
  have value := congrArg UInt8.toNat same
  simp at value
  omega

/-- The digits behind a decimal text. -/
theorem decimalText_chars (n : Nat) :
    (decimalText n).map (fun b => Char.ofNat b.toNat) = Nat.toDigits 10 n := by
  rw [decimalText, List.map_map]
  refine (List.map_congr_left ?_).trans (List.map_id _)
  intro c member
  have range := digit_range (Nat.isDigit_of_mem_toDigits (by decide) (by decide) member)
  have small : (UInt8.ofNat c.toNat).toNat = c.toNat := by
    rw [UInt8.toNat_ofNat', Nat.mod_eq_of_lt (by omega)]
  simp only [Function.comp_apply, small, id_eq]
  exact Char.ofNat_toNat c

theorem decimalText_inj {n m : Nat} (same : decimalText n = decimalText m) : n = m := by
  have digits : Nat.toDigits 10 n = Nat.toDigits 10 m := by
    rw [← decimalText_chars n, same, decimalText_chars m]
  rw [← Nat.ofDigitChars_ten_toDigits (n := n), digits, Nat.ofDigitChars_ten_toDigits]

theorem hex16_length (word : UInt64) : (hex16 word).length = 16 := by
  simp [hex16]

theorem hexDigit_inj {a b : Nat} (small : a < 16) (small' : b < 16)
    (same : UInt8.ofNat (if a < 10 then 48 + a else 87 + a) =
      UInt8.ofNat (if b < 10 then 48 + b else 87 + b)) : a = b := by
  have value := congrArg UInt8.toNat same
  simp only [UInt8.toNat_ofNat'] at value
  split at value <;> split at value <;> omega

/-- The low digits of a number, told by each of them. -/
theorem mod_pow_eq_of_digits {a b : Nat} (n : Nat)
    (digits : ∀ i < n, a / 16 ^ i % 16 = b / 16 ^ i % 16) : a % 16 ^ n = b % 16 ^ n := by
  induction n with
  | zero => simp [Nat.mod_one]
  | succ n ih =>
      rw [Nat.pow_succ, Nat.mod_mul, Nat.mod_mul, ih fun i inside => digits i (by omega),
        digits n (Nat.lt_succ_self n)]

theorem hex16_inj {left right : UInt64} (same : hex16 left = hex16 right) : left = right := by
  have each := List.map_inj_left.mp same
  have digits : ∀ i < 16, left.toNat / 16 ^ i % 16 = right.toNat / 16 ^ i % 16 := by
    intro i inside
    have digit := hexDigit_inj (Nat.mod_lt _ (by decide)) (Nat.mod_lt _ (by decide))
      (each (15 - i) (by simp; omega))
    have position : 4 * (15 - (15 - i)) = 4 * i := by omega
    rw [position, Nat.shiftRight_eq_div_pow, Nat.shiftRight_eq_div_pow, Nat.pow_mul] at digit
    exact digit
  have low := mod_pow_eq_of_digits 16 digits
  apply UInt64.toNat_inj.mp
  have bound := left.toNat_lt
  have bound' := right.toNat_lt
  rwa [Nat.mod_eq_of_lt (by simpa using bound), Nat.mod_eq_of_lt (by simpa using bound')] at low

/-- The common form of mangled names. -/
def mangle (body : CString) (hash : UInt64) (version : Nat) : CString :=
  ascii "__geas_ash_" ++ body ++ [95] ++ hex16 hash ++ ascii "_v" ++ decimalText version

theorem manglePledge_eq (contract symbol : CString) (sighash : UInt64) (version : Nat) :
    manglePledge contract symbol sighash version =
      mangle (contract ++ 95 :: symbol) sighash version := by
  simp [manglePledge, mangle]

theorem inameContractMangled_eq (desc : InameDesc) :
    inameContractMangled desc =
      mangle (desc.name ++ [95]) desc.shapeHash desc.version.toNat := by
  have underscores : ascii "__" = [95, 95] := rfl
  simp [inameContractMangled, mangle, underscores, decimal, decimalText]

/-- A mangled name gives its parts away. -/
theorem mangle_eq_iff {body body' : CString} {hash hash' : UInt64} {version version' : Nat} :
    mangle body hash version = mangle body' hash' version' ↔
      body = body' ∧ hash = hash' ∧ version = version' := by
  constructor
  · intro same
    have tail : ascii "_v" = [95, 118] := rfl
    simp only [mangle, List.append_assoc, List.append_cancel_left_eq, tail, List.cons_append,
      List.nil_append] at same
    have unversioned : (body ++ 95 :: hex16 hash) ++ 95 :: 118 :: decimalText version =
        (body' ++ 95 :: hex16 hash') ++ 95 :: 118 :: decimalText version' := by
      simpa using same
    have plain : ∀ n, 95 ∉ 118 :: decimalText n := by
      intro n
      simp [decimalText_plain n]
    have outer := split_last (plain version) (plain version') unversioned
    have inner := List.append_inj' outer.1 (by simp [hex16_length])
    exact ⟨inner.1, hex16_inj (List.cons_injective inner.2),
      decimalText_inj (List.cons_injective outer.2)⟩
  · rintro ⟨rfl, rfl, rfl⟩
    rfl

/-! ### Names in one contract -/

section Contract

variable {p : Program} {c : ContractNode}

theorem pledges_eq (c : ContractNode) : c.pledges = c.members.flatMap Member.pledges := by
  unfold ContractNode.pledges
  congr 1

theorem desc_pledge_names (c : ContractNode) :
    c.desc.pledges.map InamePledge.name = (c.pledges.map PledgeNode.name).map Ident.text := by
  simp [ContractNode.desc, Function.comp_def]

theorem text_injective : Function.Injective Ident.text :=
  fun _ _ same => Ident.ext same

/-- A member that is no named subcontract puts its pledges into the contract's
namespace. -/
theorem pledge_name_mem {m : Member} (loose : m.isNamedSub = false) {pl : PledgeNode}
    (inside : pl ∈ m.pledges) : pl.name ∈ m.names := by
  match m with
  | .pledge pl' =>
      rw [Member.pledges, List.mem_singleton] at inside
      simp [Member.names, inside]
  | .subcontract ⟨none, pledges⟩ => exact List.mem_map_of_mem inside
  | .subcontract ⟨some name, pledges⟩ => cases loose
  | .vow _ => cases inside
  | .clause _ => cases inside
  | .schema _ => cases inside

/-- The pledges of one member have different names. -/
theorem member_pledges_nodup (resolves : p.Resolves) (declared : c ∈ p.contracts) {m : Member}
    (inside : m ∈ c.members) : (m.pledges.map PledgeNode.name).Nodup := by
  match m with
  | .pledge pl => exact List.nodup_singleton _
  | .subcontract ⟨none, pledges⟩ =>
      have names := duplicates_eq_nil_iff.mp (resolves.members c declared)
      exact (List.nodup_flatMap.mp names).1 _ inside
  | .subcontract ⟨some name, pledges⟩ =>
      refine duplicates_eq_nil_iff.mp (resolves.subs c declared ⟨some name, pledges⟩ ?_ rfl)
      exact List.mem_filterMap.mpr ⟨_, inside, rfl⟩
  | .vow _ => exact List.nodup_nil
  | .clause _ => exact List.nodup_nil
  | .schema _ => exact List.nodup_nil

/-- A descriptor lists no pledge name twice exactly when no pledge of a named
subcontract shares its name with one outside it. -/
theorem desc_pledges_nodup_iff (resolves : p.Resolves) (declared : c ∈ p.contracts) :
    (c.desc.pledges.map InamePledge.name).Nodup ↔
      c.members.Pairwise fun m m' => m.isNamedSub = true ∨ m'.isNamedSub = true →
        ∀ pl ∈ m.pledges, ∀ pl' ∈ m'.pledges, pl.name ≠ pl'.name := by
  have names := (List.nodup_flatMap.mp
    (duplicates_eq_nil_iff.mp (resolves.members c declared))).2
  rw [desc_pledge_names, List.nodup_map_iff text_injective, pledges_eq, List.map_flatMap,
    List.nodup_flatMap, and_iff_right fun m => member_pledges_nodup resolves declared]
  constructor
  · intro disjoint
    refine disjoint.imp ?_
    intro m m' apart _ pl inside pl' inside' same
    exact apart (List.mem_map_of_mem inside) (same ▸ List.mem_map_of_mem inside')
  · intro apart
    refine (apart.and names).imp ?_
    rintro m m' ⟨subs, members⟩ name first second
    obtain ⟨pl, inside, rfl⟩ := List.mem_map.mp first
    obtain ⟨pl', inside', same⟩ := List.mem_map.mp second
    by_cases named : m.isNamedSub = true ∨ m'.isNamedSub = true
    · exact subs named pl inside pl' inside' same.symm
    · simp only [not_or, Bool.not_eq_true] at named
      exact members (pledge_name_mem named.1 inside) (same ▸ pledge_name_mem named.2 inside')

theorem clause_names_nodup (resolves : p.Resolves) (declared : c ∈ p.contracts) :
    (c.clauses.map ClauseNode.name).Nodup := by
  refine List.Sublist.nodup ?_ (duplicates_eq_nil_iff.mp (resolves.members c declared))
  unfold ContractNode.clauses ContractNode.memberNames
  induction c.members with
  | nil => exact List.Sublist.refl _
  | cons m members ih =>
      rw [List.flatMap_cons]
      cases m with
      | clause cl => exact ih.cons_cons _
      | _ => exact ih.trans (List.sublist_append_right _ _)

theorem mangledNames_entriesOf (c : ContractNode) :
    mangledNames (entriesOf c.desc) = inameContractMangled c.desc :: c.pledges.map c.mangled := by
  simp [mangledNames, entriesOf, pledgeEntries, contractEntry, pledgeEntry, ContractNode.desc,
    List.filterMap_map, Function.comp_def]

theorem clauseFns_nodup (resolves : p.Resolves) (declared : c ∈ p.contracts) :
    c.clauseFns.Nodup := by
  have injective : Function.Injective fun name : Ident => cgClauseFn c.name.text name.text := by
    intro name name' same
    simp only [cgClauseFn, List.append_cancel_left_eq] at same
    exact Ident.ext same
  have names := (List.nodup_map_iff injective).mpr (clause_names_nodup resolves declared)
  rwa [List.map_map] at names

/-- The names a contract registers are different once its pledge names are. -/
theorem inames_nodup (names : (c.desc.pledges.map InamePledge.name).Nodup) :
    (mangledNames (entriesOf c.desc)).Nodup := by
  rw [mangledNames_entriesOf, List.nodup_cons]
  constructor
  · intro inside
    obtain ⟨pl, -, same⟩ := List.mem_map.mp inside
    rw [inameContractMangled_eq, ContractNode.mangled, manglePledge_eq, mangle_eq_iff] at same
    have empty := List.append_cancel_left same.1
    exact pl.name.text_ne_nil (List.cons_injective empty)
  · rw [desc_pledge_names, List.map_map, List.Nodup, List.pairwise_map] at names
    rw [List.Nodup, List.pairwise_map]
    refine names.imp ?_
    intro pl pl' apart same
    rw [ContractNode.mangled, ContractNode.mangled, manglePledge_eq, manglePledge_eq,
      mangle_eq_iff] at same
    exact apart (List.cons_injective (List.append_cancel_left same.1))

end Contract

/-! ### Names of a module -/

section Module

variable {p : Program}

theorem mem_emitted {c : ContractNode} (inside : c ∈ p.emitted) : c ∈ p.contracts :=
  List.mem_of_mem_filter inside

/-- The emitted contracts have different names. -/
theorem emitted_names_nodup (resolves : p.Resolves) :
    (p.emitted.map ContractNode.name).Nodup := by
  refine List.Sublist.nodup ?_ (duplicates_eq_nil_iff.mp resolves.globals)
  refine List.Sublist.trans (List.filter_sublist.map _) ?_
  refine List.Sublist.trans ?_ (List.sublist_append_left _ _)
  unfold Program.contracts
  induction p.decls with
  | nil => exact List.Sublist.refl _
  | cons decl decls ih =>
      rw [List.flatMap_cons]
      cases decl with
      | contract c => exact ih.cons_cons _
      | _ => exact ih.trans (List.sublist_append_right _ _)

theorem emitted_apart (resolves : p.Resolves) {c d : ContractNode} (inside : c ∈ p.emitted)
    (inside' : d ∈ p.emitted) (other : c ≠ d) : c.name.text ≠ d.name.text :=
  fun same => other (List.inj_on_of_nodup_map (emitted_names_nodup resolves) inside inside'
    (Ident.ext same))

/-- Clauses of two contracts meet exactly when their names split alike. -/
theorem clauseFns_disjoint_iff {c d : ContractNode} (apart : c.name.text ≠ d.name.text) :
    c.clauseFns.Disjoint d.clauseFns ↔
      (∀ x, d.name.text = c.name.text ++ 95 :: x → ∀ cl ∈ c.clauses, ∀ cl' ∈ d.clauses,
        cl.name.text ≠ x ++ 95 :: cl'.name.text) ∧
      ∀ x, c.name.text = d.name.text ++ 95 :: x → ∀ cl ∈ d.clauses, ∀ cl' ∈ c.clauses,
        cl.name.text ≠ x ++ 95 :: cl'.name.text := by
  have meets : ∀ (cl cl' : ClauseNode),
      cgClauseFn c.name.text cl.name.text = cgClauseFn d.name.text cl'.name.text ↔
        (∃ x, d.name.text = c.name.text ++ 95 :: x ∧ cl.name.text = x ++ 95 :: cl'.name.text) ∨
          ∃ x, c.name.text = d.name.text ++ 95 :: x ∧ cl'.name.text = x ++ 95 :: cl.name.text := by
    intro cl cl'
    simp only [cgClauseFn, List.append_assoc, List.append_cancel_left_eq, List.cons_append,
      List.nil_append, joined_eq_iff, apart, false_and, false_or]
  simp only [List.Disjoint, ContractNode.clauseFns, List.mem_map, imp_false]
  constructor
  · intro disjoint
    constructor
    · intro x longer cl inside cl' inside' same
      exact disjoint ⟨cl, inside, rfl⟩
        ⟨cl', inside', ((meets cl cl').mpr (Or.inl ⟨x, longer, same⟩)).symm⟩
    · intro x longer cl inside cl' inside' same
      exact disjoint ⟨cl', inside', rfl⟩
        ⟨cl, inside, ((meets cl' cl).mpr (Or.inr ⟨x, longer, same⟩)).symm⟩
  · rintro ⟨forward, backward⟩ _ ⟨cl, inside, rfl⟩ ⟨cl', inside', same⟩
    rcases (meets cl cl').mp same.symm with ⟨x, longer, split⟩ | ⟨x, longer, split⟩
    · exact forward x longer cl inside cl' inside' split
    · exact backward x longer cl' inside' cl inside split

/-- What stands behind a contract's name in the names it registers: nothing for itself,
the name of a pledge, with the hash and the version that follow. -/
structure Slot where
  symbol : CString
  hash : UInt64
  version : Nat

/-- The slot of the contract itself. -/
def ContractNode.ownSlot (c : ContractNode) : Slot :=
  ⟨[], c.shapeHash, c.desc.version.toNat⟩

/-- The slot of a pledge. -/
def ContractNode.pledgeSlot (c : ContractNode) (pl : PledgeNode) : Slot :=
  ⟨pl.name.text, pl.sigHash, c.version⟩

/-- The slots of a contract. -/
def ContractNode.slots (c : ContractNode) : List Slot :=
  c.ownSlot :: c.pledges.map c.pledgeSlot

/-- The name a slot gives. -/
def Slot.name (c : ContractNode) (slot : Slot) : CString :=
  mangle (c.name.text ++ 95 :: slot.symbol) slot.hash slot.version

theorem mangledNames_slots (c : ContractNode) :
    mangledNames (entriesOf c.desc) = c.slots.map (Slot.name c) := by
  rw [mangledNames_entriesOf, ContractNode.slots, List.map_cons, List.map_map,
    inameContractMangled_eq]
  congr 1
  apply List.map_congr_left
  intro pl _
  rw [ContractNode.mangled, manglePledge_eq]
  rfl

/-- No slot of a contract splits like one of a contract whose name goes on. -/
def SlotsApart (c d : ContractNode) : Prop :=
  ∀ x, d.name.text = c.name.text ++ 95 :: x → ∀ slot ∈ c.slots, ∀ slot' ∈ d.slots,
    slot.symbol = x ++ 95 :: slot'.symbol → slot.version = slot'.version →
      slot.hash ≠ slot'.hash

theorem slotsApart_iff {c d : ContractNode} :
    SlotsApart c d ↔
      ∀ x, d.name.text = c.name.text ++ 95 :: x →
        (∀ pl ∈ c.pledges, ∀ pl' ∈ d.pledges, pl.name.text = x ++ 95 :: pl'.name.text →
          c.version = d.version → pl.sigHash ≠ pl'.sigHash) ∧
        ∀ pl ∈ c.pledges, pl.name.text = x ++ [95] →
          c.version = d.desc.version.toNat → pl.sigHash ≠ d.shapeHash := by
  constructor
  · intro apart x longer
    constructor
    · intro pl inside pl' inside' split versions
      exact apart x longer (c.pledgeSlot pl) (List.mem_cons_of_mem _ (List.mem_map_of_mem inside))
        (d.pledgeSlot pl') (List.mem_cons_of_mem _ (List.mem_map_of_mem inside')) split versions
    · intro pl inside split versions
      exact apart x longer (c.pledgeSlot pl) (List.mem_cons_of_mem _ (List.mem_map_of_mem inside))
        d.ownSlot List.mem_cons_self split versions
  · intro apart x longer slot inside slot' inside' split versions
    rcases List.mem_cons.mp inside with rfl | inside
    · simp [ContractNode.ownSlot] at split
    · obtain ⟨pl, member, rfl⟩ := List.mem_map.mp inside
      rcases List.mem_cons.mp inside' with rfl | inside'
      · exact (apart x longer).2 pl member split versions
      · obtain ⟨pl', member', rfl⟩ := List.mem_map.mp inside'
        exact (apart x longer).1 pl member pl' member' split versions

/-- The registered names of two contracts meet exactly when slots of theirs split
alike. -/
theorem inames_disjoint_iff {c d : ContractNode} (apart : c.name.text ≠ d.name.text) :
    (mangledNames (entriesOf c.desc)).Disjoint (mangledNames (entriesOf d.desc)) ↔
      SlotsApart c d ∧ SlotsApart d c := by
  have meets : ∀ slot slot' : Slot, slot.name c = slot'.name d ↔
      ((∃ x, d.name.text = c.name.text ++ 95 :: x ∧ slot.symbol = x ++ 95 :: slot'.symbol) ∨
        ∃ x, c.name.text = d.name.text ++ 95 :: x ∧ slot'.symbol = x ++ 95 :: slot.symbol) ∧
      slot.hash = slot'.hash ∧ slot.version = slot'.version := by
    intro slot slot'
    simp only [Slot.name, mangle_eq_iff, joined_eq_iff, apart, false_and, false_or]
  simp only [mangledNames_slots, List.Disjoint, List.mem_map, imp_false]
  constructor
  · intro disjoint
    constructor
    · intro x longer slot inside slot' inside' split versions hashes
      exact disjoint ⟨slot, inside, rfl⟩
        ⟨slot', inside', ((meets slot slot').mpr ⟨Or.inl ⟨x, longer, split⟩, hashes, versions⟩).symm⟩
    · intro x longer slot inside slot' inside' split versions hashes
      exact disjoint ⟨slot', inside', rfl⟩
        ⟨slot, inside,
          ((meets slot' slot).mpr ⟨Or.inr ⟨x, longer, split⟩, hashes.symm, versions.symm⟩).symm⟩
  · rintro ⟨forward, backward⟩ _ ⟨slot, inside, rfl⟩ ⟨slot', inside', same⟩
    obtain ⟨⟨x, longer, split⟩ | ⟨x, longer, split⟩, hashes, versions⟩ :=
      (meets slot slot').mp same.symm
    · exact forward x longer slot inside slot' inside' split versions hashes
    · exact backward x longer slot' inside' slot inside split versions.symm hashes.symm

/-- The names of different contracts are apart for all pairs when they are for all
contracts a name goes on from. -/
theorem pairwise_emitted_iff (resolves : p.Resolves) {names : ContractNode → List CString}
    {Half : ContractNode → ContractNode → Prop}
    (disjoint : ∀ c d, c.name.text ≠ d.name.text →
      ((names c).Disjoint (names d) ↔ Half c d ∧ Half d c))
    (self : ∀ c, Half c c) :
    p.emitted.Pairwise (Function.onFun List.Disjoint names) ↔
      ∀ c ∈ p.emitted, ∀ d ∈ p.emitted, Half c d := by
  have symm : Std.Symm (Function.onFun List.Disjoint names) :=
    ⟨fun _ _ apart _ first second => apart second first⟩
  constructor
  · intro pairwise c inside d inside'
    by_cases same : c = d
    · exact same ▸ self c
    · exact ((disjoint c d (emitted_apart resolves inside inside' same)).mp
        (pairwise.forall inside inside' same)).1
  · intro half
    refine (emitted_names_nodup resolves).of_map.pairwise_of_forall_ne ?_
    intro c inside d inside' other
    exact (disjoint c d (emitted_apart resolves inside inside' other)).mpr
      ⟨half c inside d inside', half d inside' c inside⟩

theorem not_longer_self (text x : CString) : text ≠ text ++ 95 :: x := by
  intro same
  have lengths := congrArg List.length same
  simp at lengths

/-- The names of a module are apart exactly when none clash. -/
theorem namesDistinct_iff (resolves : p.Resolves) : NamesDistinct p ↔ NoClash p := by
  have clauses := pairwise_emitted_iff resolves
    (fun c d apart => clauseFns_disjoint_iff apart)
    (fun c x longer => absurd longer (not_longer_self _ x))
  have inames : p.emitted.Pairwise (Function.onFun List.Disjoint
        fun c => mangledNames (entriesOf c.desc)) ↔
      ∀ c ∈ p.emitted, ∀ d ∈ p.emitted, SlotsApart c d :=
    pairwise_emitted_iff resolves (fun c d apart => inames_disjoint_iff apart)
      (fun c x longer => absurd longer (not_longer_self _ x))
  have families : List.Disjoint (p.emitted.flatMap ContractNode.clauseFns)
      (p.emitted.flatMap fun c => mangledNames (entriesOf c.desc)) := by
    intro name first second
    obtain ⟨c, -, first⟩ := List.mem_flatMap.mp first
    obtain ⟨d, -, second⟩ := List.mem_flatMap.mp second
    obtain ⟨cl, -, rfl⟩ := List.mem_map.mp first
    rw [mangledNames_slots] at second
    obtain ⟨slot, -, same⟩ := List.mem_map.mp second
    have heads := congrArg List.head? same
    simp [Slot.name, mangle, cgClauseFn, ascii] at heads
  have split : (p.emitted.flatMap ContractNode.clauseFns ++
      mangledNames (p.emitted.flatMap fun c => entriesOf c.desc)).Nodup ↔
      ((∀ c ∈ p.emitted, (mangledNames (entriesOf c.desc)).Nodup) ∧
        ∀ c ∈ p.emitted, ∀ d ∈ p.emitted, SlotsApart c d) ∧
      ∀ c ∈ p.emitted, ∀ d ∈ p.emitted, ∀ x, d.name.text = c.name.text ++ 95 :: x →
        ∀ cl ∈ c.clauses, ∀ cl' ∈ d.clauses, cl.name.text ≠ x ++ 95 :: cl'.name.text := by
    rw [mangledNames, List.map_flatMap, List.nodup_append', List.nodup_flatMap, List.nodup_flatMap,
      clauses, inames]
    have each : ∀ c ∈ p.emitted, c.clauseFns.Nodup :=
      fun c inside => clauseFns_nodup resolves (mem_emitted inside)
    tauto
  constructor
  · rintro ⟨names, pledges⟩
    obtain ⟨⟨-, slots⟩, clauses⟩ := split.mp names
    refine ⟨?_, ?_, clauses, ?_⟩
    · intro c inside d inside' x longer
      exact (slotsApart_iff.mp (slots c inside d inside') x longer).1
    · intro c inside d inside' x longer
      exact (slotsApart_iff.mp (slots c inside d inside') x longer).2
    · intro c inside
      exact (desc_pledges_nodup_iff resolves (mem_emitted inside)).mp (pledges c inside)
  · rintro ⟨pledges, contracts, clauses, subs⟩
    have listed : ∀ c ∈ p.emitted, (c.desc.pledges.map InamePledge.name).Nodup :=
      fun c inside => (desc_pledges_nodup_iff resolves (mem_emitted inside)).mpr (subs c inside)
    refine ⟨split.mpr ⟨⟨fun c inside => inames_nodup (listed c inside), ?_⟩, clauses⟩, listed⟩
    intro c inside d inside'
    exact slotsApart_iff.mpr fun x longer =>
      ⟨pledges c inside d inside' x longer, contracts c inside d inside' x longer⟩

/-- Every contract of a module with distinct names registers with a new runtime that has
room for it. -/
theorem NamesDistinct.registers (resolves : p.Resolves) (distinct : NamesDistinct p)
    {env : Geas.Runtime.LoadEnv} (calm : ∀ j, env.freezes j = false)
    (memory : ∀ j, (env.register j).mangle = true ∧ ∀ entry, (env.register j).room entry = true)
    (few : p.emitted.length ≤ maxContractTypes) :
    (geasModuleRegister env 0 (p.emitted.map ContractNode.desc) Registry.empty).1 = .ok := by
  apply (geasModuleRegister_spec rfl empty_valid env 0 _).1.mpr
  refine ⟨fun j _ => calm _, ?_, ?_, fun j desc _ => ⟨(memory _).1, fun entry _ => (memory _).2 entry⟩,
    ?_⟩
  · simpa [Registry.empty] using few
  · have names := (List.nodup_map_iff text_injective).mpr (emitted_names_nodup resolves)
    simpa [Registry.empty, ContractNode.desc, Function.comp_def] using names
  · have names := (List.nodup_append'.mp distinct.names).2.1
    simpa [Registry.empty, List.flatMap_map] using names

/-- `find_pledge` reaches every pledge of a descriptor whose pledge names differ. -/
theorem findPledge_reaches {desc : InameDesc} (nodup : (desc.pledges.map InamePledge.name).Nodup)
    {i : Nat} {pledge : InamePledge} (listed : desc.pledges[i]? = some pledge) :
    findPledge desc pledge.name = some i := by
  have place := findIdx?_of_nodup nodup listed
  simpa [findPledge, Bool.beq_eq_decide_eq, strcmp_eq_iff] using place

end Module

/-- A program of one contract. -/
def greeting : Program := ⟨[.contract greeter]⟩

/-- A contract with one abstract pledge that takes nothing and returns nothing. -/
def unitPledge (contract pledge : Ident) : ContractNode where
  name := contract
  isInternal := false
  version := 1
  members := [.pledge ⟨pledge, [], .unit, false⟩]

/-- Two contracts whose names and pledges join to one text. -/
def underscored : Program where
  own :=
    [.contract (unitPledge ⟨ascii "Order", by decide⟩ ⟨ascii "line_add", by decide⟩),
      .contract (unitPledge ⟨ascii "Order_line", by decide⟩ ⟨ascii "add", by decide⟩)]

end Geas.Compiler.Sigs
