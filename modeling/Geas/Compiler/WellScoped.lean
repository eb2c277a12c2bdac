import Geas.Compiler.Scopes

/-!
# Files whose names are in order

What the resolver accepts, said of the declarations alone: no table and no order of theirs
comes into it.  So a file may declare its names in any order, and a reference to a name
that is declared later means the same as one to a name declared before.
-/

namespace Geas.Compiler.Parse.Resolve

open Geas.Lib Geas.Lib.FirstWins
open Geas.Runtime (CString ascii)

/-! ## The condition -/

def declMembers : Decl → List Member
  | .contract _ _ _ members => members
  | _ => []

/-- The global name a schema takes. -/
def schemaNames : Member → List CString
  | .schema name _ => [name]
  | _ => []

/-- The names of a member in its contract: an anonymous subcontract leaves its pledges'. -/
def memberNames : Member → List CString
  | .vow name _ _ => [name]
  | .pledge node => [node.name]
  | .clause node => [node.name]
  | .subcontract node => node.name.elim (node.pledges.map (·.name)) fun name => [name]
  | _ => []

/-- The names in the namespace of a named subcontract. -/
def subNames : Member → List CString
  | .subcontract node => node.name.elim [] fun _ => node.pledges.map (·.name)
  | _ => []

/-- The clauses a provisional clause of this name provides. -/
def providedBy (ds : List (Decl × Nat)) (text : CString) : List CString :=
  ds.flatMap fun
    | (.prov _ name sigs, _) => if name = text then sigs.map (·.name) else []
    | _ => []

/-- The clauses a contract has to have. -/
def providedNames (ds : List (Decl × Nat)) (members : List Member) : List CString :=
  (named (incorporated members)).flatMap fun text => named (providedBy ds text)

/-- A contract's names are in order. -/
structure ContractScoped (ds : List (Decl × Nat)) (name : CString) (pkg : Nat)
    (members : List Member) : Prop where
  names : (named (members.flatMap memberNames)).Nodup
  pledges : ∀ m ∈ members, (named (subNames m)).Nodup
  block : (reqBlocks members).length ≤ 1
  once : (named (incorporated members)).Nodup
  visible : ∀ text ∈ named (incorporated members), ∃ isInternal sigs pkg',
    (Decl.prov isInternal text sigs, pkg') ∈ ds ∧ (isInternal = true → name ≠ [] ∧ pkg' = pkg)
  provided : (providedNames ds members).Nodup
  implemented : ∀ clause ∈ providedNames ds members, ∃ node,
    Member.clause node ∈ members ∧ node.name = clause
  atoms : ∀ block ∈ reqBlocks members, ∀ atom ∈ named (blockAtoms block),
    (∃ node, Member.subcontract node ∈ members ∧ node.name = some atom) ∨
      ∃ node, Member.pledge node ∈ members ∧ node.name = atom
  limit : ∀ block ∈ reqBlocks members, (named (blockAtoms block)).toFinset.card ≤ atomLimit

/-- The names of the declarations are in order. -/
structure WellScoped (ds : List (Decl × Nat)) : Prop where
  globals : (named (ds.flatMap fun d => (declGlobals d.1).map Prod.fst) ++
    named (ds.flatMap fun d => (declMembers d.1).flatMap schemaNames)).Nodup
  contracts : ∀ isInternal name attrs members pkg,
    (Decl.contract isInternal name attrs members, pkg) ∈ ds → ContractScoped ds name pkg members

/-! ## Keys -/

/-- Lists of keys that tell which of the parts they are of. -/
theorem nodup_flatMap_tagged {α κ τ : Type} {items : List α} {tag : α → τ} {keys : α → List κ}
    (tagOf : κ → τ) (tags : (items.map tag).Nodup)
    (tagged : ∀ a ∈ items, ∀ key ∈ keys a, tagOf key = tag a) :
    (items.flatMap keys).Nodup ↔ ∀ a ∈ items, (keys a).Nodup := by
  rw [List.nodup_flatMap]
  apply and_iff_left
  have apart := List.pairwise_map.mp tags
  apply apart.imp_of_mem
  intro a b inside inside' differ key member member'
  exact differ ((tagged a inside key member).symm.trans (tagged b inside' key member'))

theorem named_flatMap {α : Type} (items : List α) (names : α → List CString) :
    named (items.flatMap names) = items.flatMap fun a => named (names a) := by
  rw [named, List.filter_flatMap]
  rfl

theorem named_map {α : Type} (items : List α) (name : α → CString) :
    named (items.map name) = (items.filter fun a => name a ≠ []).map name := by
  rw [named, List.filter_map]
  rfl

section Keys

variable (cid : Nat) (pkg : Option Nat) (m : Member) (subid : Nat)

theorem memberEntries_globals : (memberEntries cid pkg (m, subid)).globals.map Prod.fst =
    named (schemaNames m) := by
  cases m with
  | subcontract node => cases named : node.name <;> simp [memberEntries, schemaNames, named, Resolve.named]
  | schema name cols =>
      by_cases empty : name = [] <;> simp [memberEntries, schemaNames, entry, named, empty]
  | _ => rfl

theorem memberEntries_members : (memberEntries cid pkg (m, subid)).members.map Prod.fst =
    (named (memberNames m)).map fun name => (cid, name) := by
  cases m with
  | vow name ty init =>
      by_cases empty : name = [] <;> simp [memberEntries, memberNames, entry, named, empty]
  | pledge node =>
      by_cases empty : node.name = [] <;> simp [memberEntries, memberNames, entry, named, empty]
  | clause node =>
      by_cases empty : node.name = [] <;> simp [memberEntries, memberNames, entry, named, empty]
  | subcontract node =>
      cases own : node.name with
      | some name =>
          by_cases empty : name = [] <;>
            simp [memberEntries, memberNames, own, entry, named, empty]
      | none =>
          simp only [memberEntries, memberNames, own, Option.elim_none]
          rw [entry_flatMap_keys, named_map, List.map_map]
          rfl
  | _ => rfl

theorem memberEntries_subPledges : (memberEntries cid pkg (m, subid)).subPledges.map Prod.fst =
    (named (subNames m)).map fun name => (cid, subid, name) := by
  cases m with
  | subcontract node =>
      cases own : node.name with
      | some name =>
          simp only [memberEntries, subNames, own, Option.elim_some]
          rw [entry_flatMap_keys, named_map, List.map_map]
          rfl
      | none => simp [memberEntries, subNames, own, named]
  | _ => rfl

end Keys

/-! ## Names declared once -/

section Files

variable (f : File) (declPkg : List Nat)

theorem zipIdx_flatMap {α β : Type} (items : List α) (g : α → List β) :
    (items.zipIdx.flatMap fun place => g place.1) = items.flatMap g := by
  have fsts : items.zipIdx.map Prod.fst = items := by rw [List.zipIdx_map_fst]
  calc (items.zipIdx.flatMap fun place => g place.1)
    _ = (items.zipIdx.map Prod.fst).flatMap g := by rw [List.flatMap_map]
    _ = items.flatMap g := by rw [fsts]

/-- What the contracts have, read off the declarations. -/
theorem contracts_flatMap {α : Type} (g : List Member → List α) (none : g [] = []) :
    ((contracts f).flatMap fun c => g c.members) =
      (placed f declPkg).flatMap fun d => g (declMembers d.1) := by
  rw [contracts, placed, List.flatMap_map]
  induction f.decls.zipIdx with
  | nil => rfl
  | cons place places ih =>
      obtain ⟨d, i⟩ := place
      rw [List.filterMap_cons, List.flatMap_cons, ← ih]
      cases d <;> simp [declMembers, none]

theorem fileEntries_globals : (fileEntries f declPkg).globals.map Prod.fst =
    named ((placed f declPkg).flatMap fun d => (declGlobals d.1).map Prod.fst) ++
      named ((placed f declPkg).flatMap fun d => (declMembers d.1).flatMap schemaNames) := by
  have decls (ds : List (Decl × Nat)) : (declEntries ds).map Prod.fst =
      named (ds.flatMap fun d => (declGlobals d.1).map Prod.fst) := by
    rw [declEntries, List.map_flatMap, named_flatMap]
    apply List.flatMap_congr
    rintro ⟨d, pkg⟩ _
    change (globalEntries (some pkg) (declGlobals d)).map Prod.fst = _
    unfold globalEntries
    rw [entry_flatMap_keys, named_map]
  have each (c : Contract) : (contractEntries (placed f declPkg) c).globals.map Prod.fst =
      named (c.members.flatMap schemaNames) := by
    rw [contractEntries, Entries.all_globals, List.flatMap_map, List.map_flatMap, named_flatMap,
      ← zipIdx_flatMap c.members]
    apply List.flatMap_congr
    intro place _
    exact memberEntries_globals _ _ _ _
  rw [fileEntries, Entries.append, List.map_append, decls, Entries.all_globals, List.flatMap_map,
    List.map_flatMap]
  congr 1
  simp only [each]
  rw [contracts_flatMap f declPkg (fun members => named (members.flatMap schemaNames)) rfl,
    named_flatMap]

theorem fileEntries_members : (fileEntries f declPkg).members.map Prod.fst =
    (contracts f).flatMap fun c =>
      (named (c.members.flatMap memberNames)).map fun name => (c.cid, name) := by
  rw [fileEntries, Entries.append, List.nil_append, Entries.all_members, List.flatMap_map,
    List.map_flatMap]
  apply List.flatMap_congr
  intro c _
  rw [contractEntries, Entries.all_members, List.flatMap_map, List.map_flatMap, named_flatMap,
    List.map_flatMap, ← zipIdx_flatMap c.members]
  apply List.flatMap_congr
  intro place _
  exact memberEntries_members _ _ _ _

theorem fileEntries_subPledges : (fileEntries f declPkg).subPledges.map Prod.fst =
    (contracts f).flatMap fun c => c.members.zipIdx.flatMap fun place =>
      (named (subNames place.1)).map fun name => (c.cid, place.2, name) := by
  simp only [fileEntries, Entries.append, List.nil_append, Entries.all_subPledges, List.flatMap_map,
    List.map_flatMap]
  apply List.flatMap_congr
  intro c _
  rw [contractEntries, Entries.all_subPledges, List.flatMap_map, List.map_flatMap]
  apply List.flatMap_congr
  intro place _
  exact memberEntries_subPledges _ _ _ _

theorem members_nodup_iff : ((fileEntries f declPkg).members.map Prod.fst).Nodup ↔
    ∀ c ∈ contracts f, (named (c.members.flatMap memberNames)).Nodup := by
  rw [fileEntries_members, nodup_flatMap_tagged Prod.fst (contracts_nodup f)]
  · simp only [List.nodup_map_iff fun _ _ same => (Prod.mk.inj same).2]
  · intro c _ key inside
    obtain ⟨name, -, rfl⟩ := List.mem_map.mp inside
    rfl

theorem subPledges_nodup_iff : ((fileEntries f declPkg).subPledges.map Prod.fst).Nodup ↔
    ∀ c ∈ contracts f, ∀ m ∈ c.members, (named (subNames m)).Nodup := by
  have inner (c : Contract) : (c.members.zipIdx.flatMap fun place =>
      (named (subNames place.1)).map fun name => (c.cid, place.2, name)).Nodup ↔
        ∀ m ∈ c.members, (named (subNames m)).Nodup := by
    have tags : (c.members.zipIdx.map Prod.snd).Nodup := by
      rw [List.zipIdx_map_snd]
      exact List.nodup_range'
    rw [nodup_flatMap_tagged (fun key : Nat × Nat × CString => key.2.1) tags]
    · simp only [List.nodup_map_iff fun _ _ same => (Prod.mk.inj (Prod.mk.inj same).2).2]
      constructor
      · intro nodup m inside
        obtain ⟨i, bound, rfl⟩ := List.getElem_of_mem inside
        exact nodup (c.members[i], i)
          (List.mem_zipIdx_iff_getElem?.mpr (List.getElem?_eq_getElem bound))
      · intro nodup place inside
        exact nodup place.1 (List.mem_of_getElem? (List.mem_zipIdx_iff_getElem?.mp inside))
    · intro place _ key inside
      obtain ⟨name, -, rfl⟩ := List.mem_map.mp inside
      rfl
  rw [fileEntries_subPledges, nodup_flatMap_tagged Prod.fst (contracts_nodup f)]
  · simp only [inner]
  · intro c _ key inside
    obtain ⟨place, -, inside⟩ := List.mem_flatMap.mp inside
    obtain ⟨name, -, rfl⟩ := List.mem_map.mp inside
    rfl

end Files

/-! ## References -/

section References

variable {f : File} {declPkg : List Nat}

theorem lookup_iff_mem {κ ν : Type} [BEq κ] [LawfulBEq κ] {tab log : List (κ × ν)}
    (same : Same tab log) (nodup : (log.map Prod.fst).Nodup) {key : κ} {value : ν} :
    tab.lookup key = some value ↔ (key, value) ∈ log := by
  rw [same key]
  exact ⟨mem_of_lookup, lookup_of_mem nodup⟩

theorem mem_entry {κ ν : Type} {name : CString} {key : κ} {value : ν} {e : κ × ν} :
    e ∈ entry name key value ↔ name ≠ [] ∧ e = (key, value) := by
  by_cases empty : name = [] <;> simp [entry, empty]

/-- The global names that declarations declare. -/
theorem mem_declEntries {ds : List (Decl × Nat)} {name : CString} {e : GEntry} :
    (name, e) ∈ declEntries ds ↔ name ≠ [] ∧
      ∃ d pkg, (d, pkg) ∈ ds ∧ (name, e.target) ∈ declGlobals d ∧ e.pkg = some pkg := by
  obtain ⟨target, declared⟩ := e
  unfold declEntries globalEntries
  simp only [List.mem_flatMap, Prod.exists, mem_entry, Prod.mk.injEq, GEntry.mk.injEq]
  constructor
  · rintro ⟨d, pkg, inside, name', target', member, real, rfl, rfl, rfl⟩
    exact ⟨real, d, pkg, inside, member, rfl⟩
  · rintro ⟨real, d, pkg, inside, member, rfl⟩
    exact ⟨d, pkg, inside, name, target, member, real, rfl, rfl, rfl⟩

/-- Contracts add schemas to the global names. -/
theorem mem_fileEntries_globals {name : CString} {e : GEntry} (notSchema : ∀ cols,
    e.target ≠ .schema cols) : (name, e) ∈ (fileEntries f declPkg).globals ↔
      (name, e) ∈ declEntries (placed f declPkg) := by
  rw [fileEntries, Entries.append, List.mem_append]
  apply or_iff_left
  intro inside
  rw [Entries.all_globals, List.flatMap_map, List.mem_flatMap] at inside
  obtain ⟨c, -, inside⟩ := inside
  rw [contractEntries, Entries.all_globals, List.flatMap_map, List.mem_flatMap] at inside
  obtain ⟨⟨m, subid⟩, -, inside⟩ := inside
  cases m with
  | schema name' cols =>
      obtain ⟨-, same⟩ := mem_entry.mp inside
      cases same
      exact notSchema cols rfl
  | subcontract node =>
      rw [memberEntries] at inside
      split at inside <;> cases inside
  | _ => cases inside

/-- No name but the file's own provisional clauses answers with one. -/
theorem mem_provs {text : CString} {isInternal : Bool} {sigs : List ClauseSigNode}
    {pkg : Option Nat} : (text, (⟨.prov isInternal sigs, pkg⟩ : GEntry)) ∈
      (fileEntries f declPkg).globals ↔ text ≠ [] ∧
        ∃ pkg', pkg = some pkg' ∧ (Decl.prov isInternal text sigs, pkg') ∈ placed f declPkg := by
  rw [mem_fileEntries_globals (fun _ here => by cases here), mem_declEntries]
  apply and_congr_right
  intro _
  constructor
  · rintro ⟨d, pkg', inside, member, here⟩
    cases d with
    | prov isInternal' name' sigs' =>
        cases List.mem_singleton.mp member
        exact ⟨pkg', here, inside⟩
    | sum name' variants => simp [declGlobals] at member
    | record name' fields => simp [declGlobals] at member
    | contract isInternal' name' attrs members => simp [declGlobals] at member
  · rintro ⟨pkg', here, inside⟩
    exact ⟨_, pkg', inside, List.mem_singleton_self _, here⟩

section Globals

variable (nodup : ((fileEntries f declPkg).globals.map Prod.fst).Nodup)

include nodup

theorem lookup_prov {text : CString} {isInternal : Bool} {sigs : List ClauseSigNode}
    {pkg : Option Nat} :
    (collected f declPkg).globals.lookup text = some ⟨.prov isInternal sigs, pkg⟩ ↔ text ≠ [] ∧
      ∃ pkg', pkg = some pkg' ∧ (Decl.prov isInternal text sigs, pkg') ∈ placed f declPkg := by
  rw [lookup_iff_mem (collected_spec f declPkg).globals nodup]
  exact mem_provs

theorem pkgOf_contract {c : Contract} (inside : c ∈ contracts f) :
    pkgOf (collected f declPkg) c.name =
      if c.name = [] then none else some (declPkg.getD c.cid 0) := by
  have answers := (collected_spec f declPkg).globals
  split
  case isTrue empty =>
    have absent : (collected f declPkg).globals.lookup c.name = none := by
      rw [answers c.name, lookup_eq_none, fileEntries_globals, empty]
      simp [named]
    rw [pkgOf, rsGlobal, absent, Option.bind_none]
  case isFalse real =>
    obtain ⟨isInternal, attrs, here⟩ := mem_contracts.mp inside
    have place : (_, declPkg.getD c.cid 0) ∈ placed f declPkg := mem_placed.mpr ⟨c.cid, here, rfl⟩
    have member : (c.name, (⟨.contract isInternal c.members, some (declPkg.getD c.cid 0)⟩ : GEntry)) ∈
        (fileEntries f declPkg).globals := by
      rw [mem_fileEntries_globals (fun _ here => by cases here), mem_declEntries]
      exact ⟨real, _, _, place, List.mem_singleton_self _, rfl⟩
    have found := (lookup_iff_mem answers nodup).mpr member
    rw [pkgOf, rsGlobal, found]
    rfl

theorem visible_iff {c : Contract} (inside : c ∈ contracts f) {text : CString} (real : text ≠ []) :
    Visible (collected f declPkg).globals (pkgOf (collected f declPkg) c.name) text ↔
      ∃ isInternal sigs pkg', (Decl.prov isInternal text sigs, pkg') ∈ placed f declPkg ∧
        (isInternal = true → c.name ≠ [] ∧ pkg' = declPkg.getD c.cid 0) := by
  rw [pkgOf_contract nodup inside]
  unfold Visible
  constructor
  · rintro ⟨isInternal, sigs, pkg, found, seen⟩
    obtain ⟨-, pkg', rfl, member⟩ := (lookup_prov nodup).mp found
    refine ⟨isInternal, sigs, pkg', member, fun isIn => ?_⟩
    have same := seen isIn
    split at same
    · cases same
    · exact ⟨‹_›, Option.some.inj same⟩
  · rintro ⟨isInternal, sigs, pkg', member, seen⟩
    refine ⟨isInternal, sigs, some pkg', (lookup_prov nodup).mpr ⟨real, pkg', rfl, member⟩, ?_⟩
    intro isIn
    obtain ⟨named, rfl⟩ := seen isIn
    rw [if_neg named]

end Globals

theorem providedBy_append (ds ds' : List (Decl × Nat)) (text : CString) :
    providedBy (ds ++ ds') text = providedBy ds text ++ providedBy ds' text :=
  List.flatMap_append

theorem providedBy_none {ds : List (Decl × Nat)} {text : CString}
    (none : text ∉ ds.flatMap fun d => (declGlobals d.1).map Prod.fst) : providedBy ds text = [] := by
  apply List.flatMap_eq_nil_iff.mpr
  rintro ⟨d, pkg⟩ inside
  cases d with
  | prov isInternal name sigs =>
      have other : name ≠ text := by
        rintro rfl
        exact none (List.mem_flatMap.mpr ⟨_, inside, List.mem_singleton_self _⟩)
      simp [other]
  | _ => rfl

/-- With names declared once, a name provides the clauses of its one declaration. -/
theorem providedBy_eq {ds : List (Decl × Nat)} {text : CString} {isInternal : Bool}
    {sigs : List ClauseSigNode} {pkg : Nat}
    (nodup : (named (ds.flatMap fun d => (declGlobals d.1).map Prod.fst)).Nodup) (real : text ≠ [])
    (inside : (Decl.prov isInternal text sigs, pkg) ∈ ds) :
    providedBy ds text = sigs.map (·.name) := by
  obtain ⟨before, after, rfl⟩ := List.append_of_mem inside
  rw [List.flatMap_append, List.flatMap_cons, named_append, named_append, List.nodup_append,
    List.nodup_append] at nodup
  obtain ⟨-, ⟨-, -, apart'⟩, apart⟩ := nodup
  have own : text ∈ named ((declGlobals (Decl.prov isInternal text sigs)).map Prod.fst) :=
    mem_named.mpr ⟨List.mem_singleton_self _, real⟩
  have notBefore : providedBy before text = [] := by
    apply providedBy_none
    intro twice
    exact apart text (mem_named.mpr ⟨twice, real⟩) text (List.mem_append_left _ own) rfl
  have notAfter : providedBy after text = [] := by
    apply providedBy_none
    intro twice
    exact apart' text own text (mem_named.mpr ⟨twice, real⟩) rfl
  rw [providedBy_append, notBefore, List.nil_append]
  change (if text = text then sigs.map (·.name) else []) ++ providedBy after text = _
  rw [if_pos rfl, notAfter, List.append_nil]

/-- The name under which a member stands in its contract. -/
def ownName : Member → Option CString
  | .vow name _ _ => some name
  | .pledge node => some node.name
  | .clause node => some node.name
  | .subcontract node => node.name
  | _ => none

/-- A member declares itself, and an anonymous subcontract its pledges. -/
theorem mem_memberEntries {cid subid : Nat} {pkg : Option Nat} {m : Member} {name : CString}
    {e : MEntry} : ((cid, name), e) ∈ (memberEntries cid pkg (m, subid)).members ↔ name ≠ [] ∧
      ((ownName m = some name ∧ e = ⟨m, none⟩) ∨ ∃ node pl, m = .subcontract node ∧
        node.name = none ∧ pl ∈ node.pledges ∧ pl.name = name ∧ e = ⟨.pledge pl, some subid⟩) := by
  have own (name' : CString) (value : MEntry) : ((cid, name), e) ∈ entry name' (cid, name') value ↔
      name ≠ [] ∧ name' = name ∧ e = value := by
    rw [mem_entry]
    constructor
    · rintro ⟨real, same⟩
      cases same
      exact ⟨real, rfl, rfl⟩
    · rintro ⟨real, rfl, rfl⟩
      exact ⟨real, rfl⟩
  cases m with
  | vow name' ty init => simpa [memberEntries, ownName] using own name' _
  | pledge node => simpa [memberEntries, ownName] using own node.name _
  | clause node => simpa [memberEntries, ownName] using own node.name _
  | subcontract node =>
      cases named : node.name with
      | some name' => simpa [memberEntries, ownName, named] using own name' _
      | none =>
          simp only [memberEntries, named, List.mem_flatMap, own, ownName]
          constructor
          · rintro ⟨pl, inside, real, rfl, rfl⟩
            exact ⟨real, .inr ⟨node, pl, rfl, named, inside, rfl, rfl⟩⟩
          · rintro ⟨real, ⟨none, -⟩ | ⟨node', pl, same, -, inside, rfl, rfl⟩⟩
            · cases none
            · cases same
              exact ⟨pl, inside, real, rfl, rfl⟩
  | _ => simp [memberEntries, ownName, Entries.none]

section Members

variable (nodup : ((fileEntries f declPkg).members.map Prod.fst).Nodup)

include nodup

/-- The members table answers for a contract with what its own members declared. -/
theorem rsMember_iff {c : Contract} (inside : c ∈ contracts f) {name : CString} {e : MEntry} :
    rsMember (collected f declPkg) c.cid name = some e ↔ ∃ place ∈ c.members.zipIdx,
      ((c.cid, name), e) ∈
        (memberEntries c.cid (filePkg (placed f declPkg) c.name) place).members := by
  have found : rsMember (collected f declPkg) c.cid name = some e ↔
      ((c.cid, name), e) ∈ (fileEntries f declPkg).members :=
    lookup_iff_mem (collected_spec f declPkg).members nodup
  rw [found, fileEntries, Entries.append, List.nil_append, Entries.all_members, List.flatMap_map,
    List.mem_flatMap]
  have each (c' : Contract) : ((c.cid, name), e) ∈
      (contractEntries (placed f declPkg) c').members ↔ ∃ place ∈ c'.members.zipIdx,
        ((c.cid, name), e) ∈
          (memberEntries c'.cid (filePkg (placed f declPkg) c'.name) place).members := by
    rw [contractEntries, Entries.all_members, List.flatMap_map, List.mem_flatMap]
  simp only [each]
  constructor
  · rintro ⟨c', inside', place, member, declared⟩
    have key : (c.cid, name) ∈
        (memberEntries c'.cid (filePkg (placed f declPkg) c'.name) place).members.map Prod.fst :=
      List.mem_map_of_mem declared
    rw [memberEntries_members] at key
    obtain ⟨name', -, same⟩ := List.mem_map.mp key
    have cids : c'.cid = c.cid := (Prod.mk.inj same).1
    obtain rfl := List.inj_on_of_nodup_map (contracts_nodup f) inside' inside cids
    exact ⟨place, member, declared⟩
  · rintro ⟨place, member, declared⟩
    exact ⟨c, inside, place, member, declared⟩

/-- An entry of a member itself comes from that member. -/
theorem rsMember_own {c : Contract} (inside : c ∈ contracts f) {name : CString} (real : name ≠ [])
    (m : Member) (sub : Option Nat) (own : (∀ pl, m ≠ .pledge pl) ∨ sub = none) :
    rsMember (collected f declPkg) c.cid name = some ⟨m, sub⟩ ↔
      sub = none ∧ m ∈ c.members ∧ ownName m = some name := by
  rw [rsMember_iff nodup inside]
  constructor
  · rintro ⟨⟨m', subid⟩, place, declared⟩
    have member := List.mem_of_getElem? (List.mem_zipIdx_iff_getElem?.mp place)
    obtain ⟨-, ⟨ownName, same⟩ | ⟨node, pl, -, -, -, -, same⟩⟩ := mem_memberEntries.mp declared
    · cases same
      exact ⟨rfl, member, ownName⟩
    · cases same
      rcases own with notPledge | none
      · exact absurd rfl (notPledge pl)
      · cases none
  · rintro ⟨rfl, member, ownName⟩
    obtain ⟨i, bound, here⟩ := List.getElem_of_mem member
    have place : (m, i) ∈ c.members.zipIdx :=
      List.mem_zipIdx_iff_getElem?.mpr (List.getElem?_eq_some_iff.mpr ⟨bound, here⟩)
    exact ⟨(m, i), place, mem_memberEntries.mpr ⟨real, .inl ⟨ownName, rfl⟩⟩⟩

theorem isClause_iff {c : Contract} (inside : c ∈ contracts f) {name : CString} (real : name ≠ []) :
    IsClause (collected f declPkg) c.cid name ↔
      ∃ node, Member.clause node ∈ c.members ∧ node.name = name := by
  have own (node : Parse.ClauseNode) (sub : Option Nat) :=
    rsMember_own nodup inside real (.clause node) sub (.inl fun _ here => by cases here)
  simp only [IsClause, own, ownName, Option.some.injEq]
  constructor
  · rintro ⟨node, sub, -, member, same⟩
    exact ⟨node, member, same⟩
  · rintro ⟨node, member, same⟩
    exact ⟨node, none, rfl, member, same⟩

theorem testable_iff {c : Contract} (inside : c ∈ contracts f) {name : CString} (real : name ≠ []) :
    Testable (collected f declPkg) c.cid name ↔
      (∃ node, Member.subcontract node ∈ c.members ∧ node.name = some name) ∨
        ∃ node, Member.pledge node ∈ c.members ∧ node.name = name := by
  have subs (node : SubNode) (sub : Option Nat) :=
    rsMember_own nodup inside real (.subcontract node) sub (.inl fun _ here => by cases here)
  have pledges (node : PledgeNode) :=
    rsMember_own nodup inside real (.pledge node) none (.inr rfl)
  simp only [Testable, subs, pledges, ownName, Option.some.injEq, true_and]
  apply or_congr_left
  constructor
  · rintro ⟨node, sub, -, member, same⟩
    exact ⟨node, member, same⟩
  · rintro ⟨node, member, same⟩
    exact ⟨node, none, rfl, member, same⟩

end Members

/-! ## The equivalence -/

/-- A contract's requirements blocks, counted. -/
theorem countP_isBlock (members : List Member) :
    members.countP isBlock = (reqBlocks members).length := by
  induction members with
  | nil => rfl
  | cons m members ih =>
      cases m <;> simpa [reqBlocks, isBlock, List.countP_cons] using ih

theorem sigEntries_keys (text : CString) (sigs : List ClauseSigNode) :
    (sigEntries text sigs).map Prod.fst = named (sigs.map (·.name)) := by
  rw [sigEntries, entry_flatMap_keys, named_map]

/-- The clauses the tables say a contract has to have. -/
theorem providedNames_eq (globals : ((fileEntries f declPkg).globals.map Prod.fst).Nodup)
    {cpkg : Option Nat} {members : List Member} (visible : ∀ text ∈ named (incorporated members),
      Visible (collected f declPkg).globals cpkg text) :
    (provEntries (collected f declPkg).globals (incorporated members)).map Prod.fst =
      providedNames (placed f declPkg) members := by
  rw [provEntries, List.map_flatMap, providedNames]
  apply List.flatMap_congr
  intro text inside
  obtain ⟨isInternal, sigs, pkg, found, -⟩ := visible text inside
  obtain ⟨real, pkg', -, member⟩ := (lookup_prov globals).mp found
  rw [fileEntries_globals, List.nodup_append] at globals
  rw [sigEntries_keys, sigsOf, found, providedBy_eq globals.1 real member]

/-- With one block at most, the first is the only one. -/
theorem forall_head? {α : Type} {items : List α} (few : items.length ≤ 1) (holds : α → Prop) :
    (∀ a ∈ items.head?, holds a) ↔ ∀ a ∈ items, holds a := by
  cases items with
  | nil => simp
  | cons a items =>
      have none : items = [] := List.length_eq_zero_iff.mp (by simpa using few)
      simp [none]

theorem contractSound_iff (globals : ((fileEntries f declPkg).globals.map Prod.fst).Nodup)
    (members : ((fileEntries f declPkg).members.map Prod.fst).Nodup) {c : Contract}
    (inside : c ∈ contracts f) (names : (named (c.members.flatMap memberNames)).Nodup)
    (pledges : ∀ m ∈ c.members, (named (subNames m)).Nodup)
    (block : (reqBlocks c.members).length ≤ 1) :
    ContractSound (collected f declPkg) c ↔
      ContractScoped (placed f declPkg) c.name (declPkg.getD c.cid 0) c.members := by
  have real {names : List CString} {name : CString} (member : name ∈ named names) : name ≠ [] :=
    (mem_named.mp member).2
  have realProvided {name : CString} (member : name ∈ providedNames (placed f declPkg) c.members) :
      name ≠ [] := by
    obtain ⟨text, -, provided⟩ := List.mem_flatMap.mp member
    exact real provided
  constructor
  · rintro ⟨visible, once, provided, clauses, sound⟩
    rw [providedNames_eq globals visible] at provided clauses
    have sound := (forall_head? block _).mp sound
    refine ⟨names, pledges, block, once, ?_, provided, ?_, ?_, fun b member => (sound b member).2⟩
    · intro text member
      exact (visible_iff globals inside (real member)).mp (visible text member)
    · intro name member
      exact (isClause_iff members inside (realProvided member)).mp (clauses name member)
    · intro b member atom tested
      exact (testable_iff members inside (real tested)).mp ((sound b member).1 atom tested)
  · intro inOrder
    have visible : ∀ text ∈ named (incorporated c.members), Visible (collected f declPkg).globals
        (pkgOf (collected f declPkg) c.name) text := fun text member =>
      (visible_iff globals inside (real member)).mpr (inOrder.visible text member)
    refine ⟨visible, inOrder.once, ?_, ?_, (forall_head? block _).mpr fun b member => ?_⟩
    · rw [providedNames_eq globals visible]
      exact inOrder.provided
    · rw [providedNames_eq globals visible]
      intro name member
      exact (isClause_iff members inside (realProvided member)).mpr (inOrder.implemented name member)
    · refine ⟨fun atom tested => ?_, inOrder.limit b member⟩
      exact (testable_iff members inside (real tested)).mpr (inOrder.atoms b member atom tested)

/-- The contracts of a file are its contract declarations. -/
theorem forall_contracts (holds : CString → Nat → List Member → Prop) :
    (∀ c ∈ contracts f, holds c.name (declPkg.getD c.cid 0) c.members) ↔
      ∀ isInternal name attrs members pkg,
        (Decl.contract isInternal name attrs members, pkg) ∈ placed f declPkg →
          holds name pkg members := by
  constructor
  · intro each isInternal name attrs members pkg inside
    obtain ⟨i, here, rfl⟩ := mem_placed.mp inside
    exact each ⟨i, name, members⟩ (mem_contracts.mpr ⟨isInternal, attrs, here⟩)
  · intro each c inside
    obtain ⟨isInternal, attrs, here⟩ := mem_contracts.mp inside
    exact each isInternal c.name attrs c.members _ (mem_placed.mpr ⟨c.cid, here, rfl⟩)

/-- A file resolves without a fault exactly when its names are in order. -/
theorem resolveFile_errors_iff (f : File) (declPkg : List Nat) :
    (resolveFile f declPkg).errors = [] ↔ WellScoped (placed f declPkg) := by
  rw [resolveFile_clean, (collected_spec f declPkg).clean, members_nodup_iff, subPledges_nodup_iff]
  constructor
  · rintro ⟨⟨⟨globals, names, pledges⟩, blocks⟩, sound⟩
    have members := (members_nodup_iff f declPkg).mpr names
    refine ⟨by rwa [fileEntries_globals] at globals, (forall_contracts _).mp fun c inside => ?_⟩
    have few : (reqBlocks c.members).length ≤ 1 := countP_isBlock c.members ▸ blocks c inside
    exact (contractSound_iff globals members inside (names c inside) (pledges c inside) few).mp
      (sound c inside)
  · rintro ⟨globals, inOrder⟩
    have inOrder := (forall_contracts (ContractScoped (placed f declPkg))).mpr inOrder
    rw [← fileEntries_globals] at globals
    have names : ∀ c ∈ contracts f, (named (c.members.flatMap memberNames)).Nodup :=
      fun c inside => (inOrder c inside).names
    have members := (members_nodup_iff f declPkg).mpr names
    refine ⟨⟨⟨globals, names, fun c inside => (inOrder c inside).pledges⟩, ?_⟩, ?_⟩
    · intro c inside
      rw [countP_isBlock]
      exact (inOrder c inside).block
    · intro c inside
      have here := inOrder c inside
      exact (contractSound_iff globals members inside here.names here.pledges here.block).mpr here

end References

/-! ## The order of declarations -/

section Order

variable {ds ds' : List (Decl × Nat)}

theorem named_perm {names names' : List CString} (perm : names.Perm names') :
    (named names).Perm (named names') := perm.filter _

theorem ContractScoped.perm (perm : ds.Perm ds') {name : CString} {pkg : Nat}
    {members : List Member} (inOrder : ContractScoped ds name pkg members) :
    ContractScoped ds' name pkg members := by
  have provided : (providedNames ds members).Perm (providedNames ds' members) := by
    apply List.Perm.flatMap_left
    intro text _
    exact named_perm (perm.flatMap_right _)
  refine { inOrder with visible := ?_, provided := ?_, implemented := ?_ }
  · intro text inside
    obtain ⟨isInternal, sigs, pkg', declared, seen⟩ := inOrder.visible text inside
    exact ⟨isInternal, sigs, pkg', perm.mem_iff.mp declared, seen⟩
  · exact provided.nodup_iff.mp inOrder.provided
  · intro clause inside
    exact inOrder.implemented clause (provided.mem_iff.mpr inside)

theorem WellScoped.perm (perm : ds.Perm ds') (inOrder : WellScoped ds) : WellScoped ds' where
  globals := by
    have names := (named_perm (perm.flatMap_right fun d => (declGlobals d.1).map Prod.fst)).append
      (named_perm (perm.flatMap_right fun d => (declMembers d.1).flatMap schemaNames))
    exact names.nodup_iff.mp inOrder.globals
  contracts isInternal name attrs members pkg inside :=
    (inOrder.contracts isInternal name attrs members pkg (perm.mem_iff.mpr inside)).perm perm

/-- Files with the same declarations in another order are accepted alike. -/
theorem resolveFile_errors_perm {f f' : File} {declPkg declPkg' : List Nat}
    (perm : (placed f declPkg).Perm (placed f' declPkg')) :
    (resolveFile f declPkg).errors = [] ↔ (resolveFile f' declPkg').errors = [] := by
  rw [resolveFile_errors_iff, resolveFile_errors_iff]
  exact ⟨.perm perm, .perm perm.symm⟩

/-- A provisional clause and a contract that incorporates it. -/
def signed : Decl := .prov false (ascii "Signed") [⟨ascii "sign", [], .named (ascii "Unit") []⟩]

def pact : Decl :=
  .contract false (ascii "Pact") []
    [.incorporate (ascii "Signed"), .clause ⟨ascii "sign", [], .named (ascii "Unit") [], []⟩]

/-- The contract may come first. -/
theorem resolveFile_swapped :
    (placed ⟨[], [pact, signed]⟩ []).Perm (placed ⟨[], [signed, pact]⟩ []) ∧
      (resolveFile ⟨[], [pact, signed]⟩ []).errors = [] := by
  have perm : (placed ⟨[], [pact, signed]⟩ []).Perm (placed ⟨[], [signed, pact]⟩ []) :=
    List.Perm.swap (signed, 0) (pact, 0) []
  exact ⟨perm, (resolveFile_errors_perm perm).mpr (by decide)⟩

end Order

end Geas.Compiler.Parse.Resolve
