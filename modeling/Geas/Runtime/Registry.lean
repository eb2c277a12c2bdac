import Geas.Abi.Value
import Geas.Lib.SortedTable
import Mathlib.Data.List.Nodup

/-!
# The registry

The descriptors a runtime knows and its iname table, one entry per contract and
one per pledge that carries a mangled name, sorted so that a lookup is a binary
search.  A registration goes in whole or not at all: when a pledge's name
collides, everything the contract put in before is filtered out again by contract
name.  A module registers its contracts one by one.

Every function here runs under the runtime lock, so a call is one step; a module
load is several, and a freeze may fall between them.  Allocation answers are part
of the environment of a call: whether the contract's own mangled name could be
built, and whether the table has room for an entry or grows.
-/

namespace Geas.Runtime

open Geas.Abi
open Geas.Lib
open Geas.Lib.SortedTable (Sorted find insertAt find_hit_iff find_located sorted_insertAt
  insertAt_perm filter_insertAt)

/-- The bytes of a C string before its terminator. -/
abbrev CString := List UInt8

/-- `strcmp`: byte by byte as unsigned, an end before anything. -/
def strcmp : CString → CString → Ordering := List.compareLex compare

instance : Std.TransCmp strcmp := inferInstanceAs (Std.TransCmp (List.compareLex compare))

instance : Std.LawfulEqCmp strcmp := inferInstanceAs (Std.LawfulEqCmp (List.compareLex compare))

/-- What registration reads of a pledge descriptor. -/
structure InamePledge where
  name : CString
  mangled : Option CString
  nargs : UInt32
  deriving DecidableEq, Repr

/-- What registration reads of a contract descriptor. -/
structure InameDesc where
  name : CString
  shapeHash : UInt64
  version : UInt32
  pledges : List InamePledge
  deriving DecidableEq, Repr

inductive GeasInameKind where
  | contract | pledge
  deriving DecidableEq, Repr

/-- One row of the table. -/
structure GeasInameEntry where
  mangled : CString
  kind : GeasInameKind
  contract : CString
  symbol : Option CString
  shapeHash : UInt64
  version : UInt32
  nargs : UInt32
  deriving DecidableEq, Repr

/-! ## Mangled names -/

/-- The bytes of a literal. -/
def ascii (text : String) : CString := text.toList.map fun c => UInt8.ofNat c.toNat

/-- `%016llx`. -/
def hex16 (word : UInt64) : CString :=
  (List.range 16).map fun i =>
    let digit := (word.toNat >>> (4 * (15 - i))) % 16
    UInt8.ofNat (if digit < 10 then 48 + digit else 87 + digit)

/-- `%u`. -/
def decimal (word : UInt32) : CString :=
  (Nat.toDigits 10 word.toNat).map fun c => UInt8.ofNat c.toNat

/-- `iname_contract_mangled`: `__geas_ash_%s__%016llx_v%u`. -/
def inameContractMangled (desc : InameDesc) : CString :=
  ascii "__geas_ash_" ++ desc.name ++ ascii "__" ++ hex16 desc.shapeHash ++ ascii "_v" ++
    decimal desc.version

/-- The entry of a contract. -/
def contractEntry (desc : InameDesc) : GeasInameEntry where
  mangled := inameContractMangled desc
  kind := .contract
  contract := desc.name
  symbol := none
  shapeHash := desc.shapeHash
  version := desc.version
  nargs := 0

/-- The entry of a pledge under its mangled name. -/
def pledgeEntry (desc : InameDesc) (pledge : InamePledge) (mangled : CString) :
    GeasInameEntry where
  mangled := mangled
  kind := .pledge
  contract := desc.name
  symbol := some pledge.name
  shapeHash := desc.shapeHash
  version := desc.version
  nargs := pledge.nargs

/-- The entries of pledges that carry a mangled name. -/
def pledgeEntries (desc : InameDesc) (pledges : List InamePledge) : List GeasInameEntry :=
  pledges.filterMap fun pledge => pledge.mangled.map (pledgeEntry desc pledge)

/-- Everything a contract contributes to the table. -/
def entriesOf (desc : InameDesc) : List GeasInameEntry :=
  contractEntry desc :: pledgeEntries desc desc.pledges

/-! ## The table -/

/-- Whether the contract's mangled name could be built, and whether the table has
room for an entry or grows. -/
structure RegisterEnv where
  mangle : Bool
  room : GeasInameEntry → Bool

/-- `iname_find`: whether the name is in the table, and where it is or belongs. -/
def inameFind (table : List GeasInameEntry) (mangled : CString) : Bool × Nat :=
  find GeasInameEntry.mangled strcmp table mangled

/-- `iname_insert`. -/
def inameInsert (env : RegisterEnv) (table : List GeasInameEntry) (entry : GeasInameEntry) :
    Except GeasStatus (List GeasInameEntry) :=
  let found := inameFind table entry.mangled
  if found.1 then .error .errName
  else if env.room entry then .ok (insertAt table found.2 entry)
  else .error .errOom

/-- `iname_remove_contract`. -/
def inameRemoveContract (table : List GeasInameEntry) (contract : CString) :
    List GeasInameEntry :=
  table.filter fun entry => strcmp entry.contract contract != .eq

/-- The pledge loop of `iname_register`. -/
def registerPledges (env : RegisterEnv) (desc : InameDesc) :
    List InamePledge → List GeasInameEntry → GeasStatus × List GeasInameEntry
  | [], table => (.ok, table)
  | pledge :: rest, table =>
      match pledge.mangled with
      | none => registerPledges env desc rest table
      | some mangled =>
          match inameInsert env table (pledgeEntry desc pledge mangled) with
          | .error status => (status, inameRemoveContract table desc.name)
          | .ok table => registerPledges env desc rest table

/-- `iname_register`. -/
def inameRegister (env : RegisterEnv) (table : List GeasInameEntry) (desc : InameDesc) :
    GeasStatus × List GeasInameEntry :=
  if env.mangle = false then (.errOom, table)
  else
    match inameInsert env table (contractEntry desc) with
    | .error status => (status, table)
    | .ok table => registerPledges env desc desc.pledges table

/-! ## The runtime's registration surface -/

/-- `GEAS_MAX_CONTRACT_TYPES` and `GEAS_MAX_MODULES`. -/
def maxContractTypes : Nat := 64
def maxModules : Nat := 64

/-- The descriptors, the table, the freeze latch and the number of open modules. -/
structure Registry where
  descs : List InameDesc
  inames : List GeasInameEntry
  frozen : Bool
  nmodules : Nat

/-- A new runtime. -/
def Registry.empty : Registry := ⟨[], [], false, 0⟩

/-- `geas_register_contract`; `none` is a NULL descriptor or one without a name. -/
def geasRegisterContract (rt : Registry) (env : RegisterEnv) :
    Option InameDesc → GeasStatus × Registry
  | none => (.errType, rt)
  | some desc =>
      if rt.frozen then (.errState, rt)
      else if rt.descs.length = maxContractTypes then (.errOom, rt)
      else if rt.descs.any fun other => strcmp other.name desc.name == .eq then (.errName, rt)
      else
        let registered := inameRegister env rt.inames desc
        if registered.1 ≠ .ok then (registered.1, { rt with inames := registered.2 })
        else (.ok, { rt with inames := registered.2, descs := rt.descs ++ [desc] })

/-- `geas_runtime_freeze`. -/
def geasRuntimeFreeze (rt : Registry) : Registry := { rt with frozen := true }

/-- `geas_iname_lookup`. -/
def geasInameLookup (rt : Registry) (mangled : CString) : Except GeasStatus GeasInameEntry :=
  let found := inameFind rt.inames mangled
  if found.1 then (rt.inames[found.2]?).elim (.error .errName) .ok else .error .errName

/-- What a load finds around it: whether the library opens and exports its
registrar, the surroundings of each registration, and before which of them
another thread freezes the runtime. -/
structure LoadEnv where
  opens : Bool
  exports : Bool
  register : Nat → RegisterEnv
  freezes : Nat → Bool

/-- The registry as a registration finds it when another thread may have frozen
the runtime. -/
def meanwhile (freezes : Bool) (rt : Registry) : Registry :=
  if freezes then geasRuntimeFreeze rt else rt

/-- The registrar of a module from its `i`-th contract on: register one by one and
stop at the first failure. -/
def geasModuleRegister (env : LoadEnv) : Nat → List InameDesc → Registry → GeasStatus × Registry
  | _, [], rt => (.ok, rt)
  | i, desc :: rest, rt =>
      let registered :=
        geasRegisterContract (meanwhile (env.freezes i) rt) (env.register i) (some desc)
      if registered.1 ≠ .ok then registered else geasModuleRegister env (i + 1) rest registered.2

/-- `geas_module_load` of a library that emits the given contracts. -/
def geasModuleLoad (rt : Registry) (env : LoadEnv) (contracts : List InameDesc) :
    GeasStatus × Registry :=
  if rt.frozen then (.errState, rt)
  else if env.opens = false then (.errLoad, rt)
  else if env.exports = false then (.errLoad, rt)
  else
    let loaded := geasModuleRegister env 0 contracts rt
    if loaded.1 ≠ .ok then loaded
    else if loaded.2.nmodules = maxModules then (.errOom, loaded.2)
    else (.ok, { loaded.2 with nmodules := loaded.2.nmodules + 1 })

/-! ## One insertion -/

/-- The mangled names of entries. -/
abbrev mangledNames (entries : List GeasInameEntry) : List CString :=
  entries.map GeasInameEntry.mangled

/-- Strictly increasing mangled names. -/
abbrev InOrder (table : List GeasInameEntry) : Prop := Sorted GeasInameEntry.mangled strcmp table

theorem strcmp_eq_iff {left right : CString} : strcmp left right = .eq ↔ left = right :=
  Std.LawfulEqCmp.compare_eq_iff_eq

theorem InOrder.nodup {table : List GeasInameEntry} (sorted : InOrder table) :
    (mangledNames table).Nodup := by
  refine List.pairwise_map.mpr (sorted.imp ?_)
  intro left right less same
  rw [strcmp_eq_iff.mpr same] at less
  cases less

variable {env : RegisterEnv} {table : List GeasInameEntry} {entry : GeasInameEntry}

/-- A name that is free and has room goes in, in order. -/
theorem inameInsert_fits (sorted : InOrder table) (free : entry.mangled ∉ mangledNames table)
    (room : env.room entry = true) :
    ∃ table', inameInsert env table entry = .ok table' ∧ InOrder table' ∧
      table'.Perm (entry :: table) ∧
      inameRemoveContract table' entry.contract = inameRemoveContract table entry.contract := by
  have miss : (inameFind table entry.mangled).1 = false := by
    rw [← Bool.not_eq_true]
    exact fun hit => free ((find_hit_iff sorted).mp hit)
  refine ⟨_, ?_, sorted_insertAt sorted miss, insertAt_perm _ _, filter_insertAt ?_ _⟩
  · simp only [inameInsert, miss, room, Bool.false_eq_true, if_false, if_true]
    rfl
  · simp [strcmp_eq_iff.mpr]

/-- Anything else is refused. -/
theorem inameInsert_refused (sorted : InOrder table)
    (unfit : ¬(entry.mangled ∉ mangledNames table ∧ env.room entry = true)) :
    ∃ status, status ≠ .ok ∧ inameInsert env table entry = .error status := by
  by_cases hit : (inameFind table entry.mangled).1 = true
  · exact ⟨.errName, by decide, by simp only [inameInsert, hit, if_true]⟩
  · have full : env.room entry = false := by
      rw [← Bool.not_eq_true]
      exact fun room => unfit ⟨fun present => hit ((find_hit_iff sorted).mpr present), room⟩
    refine ⟨.errOom, by decide, ?_⟩
    simp only [inameInsert, hit, full, Bool.false_eq_true, if_false]

/-! ## One registration -/

/-- The entries are new to the table and among themselves, and all have room. -/
def Fitting (env : RegisterEnv) (added table : List GeasInameEntry) : Prop :=
  (∀ entry ∈ added, env.room entry = true) ∧
    (mangledNames added ++ mangledNames table).Nodup

theorem fitting_cons {added : List GeasInameEntry} {table' : List GeasInameEntry}
    (inserted : table'.Perm (entry :: table)) :
    Fitting env (entry :: added) table ↔
      (entry.mangled ∉ mangledNames table ∧ env.room entry = true) ∧ Fitting env added table' := by
  have moved : (mangledNames added ++ mangledNames table').Perm
      (mangledNames (entry :: added) ++ mangledNames table) :=
    ((inserted.map _).append_left _).trans List.perm_middle
  rw [Fitting, Fitting, moved.nodup_iff, List.forall_mem_cons]
  constructor
  · rintro ⟨⟨room, rooms⟩, nodup⟩
    refine ⟨⟨fun present => ?_, room⟩, rooms, nodup⟩
    exact (List.nodup_cons.mp nodup).1 (List.mem_append_right _ present)
  · rintro ⟨⟨-, room⟩, rooms, nodup⟩
    exact ⟨⟨room, rooms⟩, nodup⟩

theorem not_fitting_cons {added : List GeasInameEntry}
    (unfit : ¬(entry.mangled ∉ mangledNames table ∧ env.room entry = true)) :
    ¬Fitting env (entry :: added) table := by
  rintro ⟨rooms, nodup⟩
  refine unfit ⟨fun present => ?_, rooms entry List.mem_cons_self⟩
  exact (List.nodup_cons.mp nodup).1 (List.mem_append_right _ present)

/-- The pledge loop adds every entry in order, or takes back everything of the
contract. -/
theorem registerPledges_spec {desc : InameDesc} (pledges : List InamePledge)
    (sorted : InOrder table) :
    ((registerPledges env desc pledges table).1 = .ok ↔
        Fitting env (pledgeEntries desc pledges) table) ∧
      ((registerPledges env desc pledges table).1 = .ok →
        InOrder (registerPledges env desc pledges table).2 ∧
        (registerPledges env desc pledges table).2.Perm (pledgeEntries desc pledges ++ table)) ∧
      ((registerPledges env desc pledges table).1 ≠ .ok →
        (registerPledges env desc pledges table).2 = inameRemoveContract table desc.name) := by
  induction pledges generalizing table with
  | nil =>
      refine ⟨?_, fun _ => ⟨sorted, List.Perm.refl _⟩, fun failed => absurd rfl failed⟩
      exact ⟨fun _ => ⟨nofun, sorted.nodup⟩, fun _ => rfl⟩
  | cons pledge rest ih =>
      cases named : pledge.mangled with
      | none =>
          have entries : pledgeEntries desc (pledge :: rest) = pledgeEntries desc rest := by
            simp only [pledgeEntries, List.filterMap_cons, named, Option.map_none]
          simp only [registerPledges, named, entries]
          exact ih sorted
      | some mangled =>
          have entries : pledgeEntries desc (pledge :: rest) =
              pledgeEntry desc pledge mangled :: pledgeEntries desc rest := by
            simp only [pledgeEntries, List.filterMap_cons, named, Option.map_some]
          rw [entries]
          by_cases fits : (pledgeEntry desc pledge mangled).mangled ∉ mangledNames table ∧
              env.room (pledgeEntry desc pledge mangled) = true
          · obtain ⟨table', inserted, sorted', perm, removed⟩ :=
              inameInsert_fits sorted fits.1 fits.2
            obtain ⟨status, success, failure⟩ := ih sorted'
            simp only [registerPledges, named, inserted]
            refine ⟨?_, fun ok => ⟨(success ok).1, ?_⟩, fun failed => ?_⟩
            · rw [status, fitting_cons perm, and_iff_right fits]
            · exact (success ok).2.trans ((perm.append_left _).trans List.perm_middle)
            · exact (failure failed).trans removed
          · obtain ⟨status, fails, refused⟩ := inameInsert_refused sorted fits
            simp only [registerPledges, named, refused]
            refine ⟨⟨fun ok => absurd ok fails, fun fitting => ?_⟩, fun ok => absurd ok fails,
              fun _ => trivial⟩
            exact absurd fitting (not_fitting_cons fits)

/-- The table takes a contract whole or stays as it is. -/
theorem inameRegister_spec {desc : InameDesc} (sorted : InOrder table)
    (fresh : ∀ other ∈ table, other.contract ≠ desc.name) :
    ((inameRegister env table desc).1 = .ok ↔
        env.mangle = true ∧ Fitting env (entriesOf desc) table) ∧
      ((inameRegister env table desc).1 = .ok →
        InOrder (inameRegister env table desc).2 ∧
        (inameRegister env table desc).2.Perm (entriesOf desc ++ table)) ∧
      ((inameRegister env table desc).1 ≠ .ok → (inameRegister env table desc).2 = table) := by
  have kept : inameRemoveContract table desc.name = table := by
    refine List.filter_eq_self.mpr fun other membership => ?_
    simpa [strcmp_eq_iff] using fresh other membership
  unfold inameRegister
  by_cases mangle : env.mangle = false
  · rw [if_pos mangle]
    refine ⟨⟨nofun, fun built => ?_⟩, nofun, fun _ => rfl⟩
    rw [mangle] at built
    cases built.1
  · rw [if_neg mangle]
    have mangle : env.mangle = true := by simpa using mangle
    by_cases fits : (contractEntry desc).mangled ∉ mangledNames table ∧
        env.room (contractEntry desc) = true
    · obtain ⟨table', inserted, sorted', perm, removed⟩ := inameInsert_fits sorted fits.1 fits.2
      obtain ⟨status, success, failure⟩ := registerPledges_spec desc.pledges sorted'
      simp only [inserted]
      refine ⟨?_, fun ok => ⟨(success ok).1, ?_⟩, fun failed => ?_⟩
      · rw [status, entriesOf, fitting_cons perm, and_iff_right mangle, and_iff_right fits]
      · exact (success ok).2.trans ((perm.append_left _).trans List.perm_middle)
      · exact (failure failed).trans (removed.trans kept)
    · obtain ⟨status, fails, refused⟩ := inameInsert_refused sorted fits
      simp only [refused]
      refine ⟨⟨fun ok => absurd ok fails, fun built => ?_⟩, fun ok => absurd ok fails, fun _ => trivial⟩
      exact absurd built.2 (not_fitting_cons fits)

/-- The table is in order and holds exactly what the registered contracts
contribute, no two contracts share a name, and there are no more than allowed. -/
structure Registry.Valid (rt : Registry) : Prop where
  sorted : InOrder rt.inames
  entries : rt.inames.Perm (rt.descs.flatMap entriesOf)
  names : (rt.descs.map InameDesc.name).Nodup
  limit : rt.descs.length ≤ maxContractTypes

/-- The runtime takes the contract: it is not frozen and not full, the name is new,
and all entries fit. -/
structure Admits (rt : Registry) (env : RegisterEnv) (desc : InameDesc) : Prop where
  unfrozen : rt.frozen = false
  limit : rt.descs.length ≠ maxContractTypes
  name : desc.name ∉ rt.descs.map InameDesc.name
  mangle : env.mangle = true
  fitting : Fitting env (entriesOf desc) rt.inames

theorem contract_of_mem_entriesOf {desc : InameDesc} (membership : entry ∈ entriesOf desc) :
    entry.contract = desc.name := by
  rcases List.mem_cons.mp membership with rfl | pledged
  · rfl
  · obtain ⟨pledge, -, named⟩ := List.mem_filterMap.mp pledged
    obtain ⟨mangled, -, rfl⟩ := Option.map_eq_some_iff.mp named
    rfl

theorem Registry.Valid.fresh {rt : Registry} (valid : rt.Valid) {desc : InameDesc}
    (name : desc.name ∉ rt.descs.map InameDesc.name) :
    ∀ other ∈ rt.inames, other.contract ≠ desc.name := by
  intro other membership same
  obtain ⟨owner, registered, contributed⟩ := List.mem_flatMap.mp (valid.entries.mem_iff.mp membership)
  rw [contract_of_mem_entriesOf contributed] at same
  exact name (List.mem_map.mpr ⟨owner, registered, same⟩)

/-- What a registration does to a valid registry. -/
theorem geasRegisterContract_spec {rt : Registry} (valid : rt.Valid) (env : RegisterEnv)
    (desc : InameDesc) :
    ((geasRegisterContract rt env (some desc)).1 = .ok ↔ Admits rt env desc) ∧
      ((geasRegisterContract rt env (some desc)).1 = .ok →
        ∃ inames, InOrder inames ∧ inames.Perm (entriesOf desc ++ rt.inames) ∧
          (geasRegisterContract rt env (some desc)).2 =
            { rt with inames := inames, descs := rt.descs ++ [desc] }) ∧
      ((geasRegisterContract rt env (some desc)).1 ≠ .ok →
        (geasRegisterContract rt env (some desc)).2 = rt) := by
  have taken : (rt.descs.any fun other => strcmp other.name desc.name == .eq) = true ↔
      desc.name ∈ rt.descs.map InameDesc.name := by
    simp only [List.any_eq_true, beq_iff_eq, strcmp_eq_iff, List.mem_map]
  simp only [geasRegisterContract]
  split
  · next frozen =>
    refine ⟨⟨nofun, fun admits => ?_⟩, nofun, fun _ => rfl⟩
    exact absurd (admits.unfrozen.symm.trans frozen) (by decide)
  · next unfrozen =>
    split
    · next full => exact ⟨⟨nofun, fun admits => absurd full admits.limit⟩, nofun, fun _ => rfl⟩
    · next limit =>
      split
      · next collides =>
        exact ⟨⟨nofun, fun admits => absurd (taken.mp collides) admits.name⟩, nofun, fun _ => rfl⟩
      · next unique =>
        have name : desc.name ∉ rt.descs.map InameDesc.name := fun present =>
          unique (taken.mpr present)
        obtain ⟨status, success, failure⟩ := inameRegister_spec valid.sorted (valid.fresh name)
        by_cases ok : (inameRegister env rt.inames desc).1 = .ok
        · obtain ⟨mangle, fitting⟩ := status.mp ok
          obtain ⟨sorted, perm⟩ := success ok
          rw [if_neg (not_not.mpr ok)]
          refine ⟨⟨fun _ => ⟨by simpa using unfrozen, limit, name, mangle, fitting⟩, fun _ => rfl⟩,
            fun _ => ⟨_, sorted, perm, rfl⟩, fun failed => absurd rfl failed⟩
        · rw [if_pos ok]
          refine ⟨⟨fun done => absurd done ok, fun admits => ?_⟩, fun done => absurd done ok,
            fun _ => by rw [failure ok]⟩
          exact absurd (status.mpr ⟨admits.mangle, admits.fitting⟩) ok

/-- A contract taken keeps the registry valid. -/
theorem Registry.Valid.register {rt : Registry} (valid : rt.Valid) {desc : InameDesc}
    {env : RegisterEnv} (admits : Admits rt env desc) {inames : List GeasInameEntry}
    (sorted : InOrder inames) (perm : inames.Perm (entriesOf desc ++ rt.inames)) :
    Registry.Valid { rt with inames := inames, descs := rt.descs ++ [desc] } := by
  refine ⟨sorted, ?_, ?_, ?_⟩
  · rw [List.flatMap_append, List.flatMap_singleton]
    exact perm.trans ((valid.entries.append_left _).trans List.perm_append_comm)
  · rw [List.map_append, List.map_singleton]
    exact (List.perm_append_comm.nodup_iff).mpr (List.nodup_cons.mpr ⟨admits.name, valid.names⟩)
  · have below := Nat.lt_of_le_of_ne valid.limit admits.limit
    simp only [List.length_append, List.length_singleton]
    omega

theorem geasRegisterContract_valid {rt : Registry} (valid : rt.Valid) (env : RegisterEnv)
    (desc : Option InameDesc) : (geasRegisterContract rt env desc).2.Valid := by
  cases desc with
  | none => exact valid
  | some desc =>
      obtain ⟨status, success, failure⟩ := geasRegisterContract_spec valid env desc
      by_cases ok : (geasRegisterContract rt env (some desc)).1 = .ok
      · obtain ⟨inames, sorted, perm, after⟩ := success ok
        rw [after]
        exact valid.register (status.mp ok) sorted perm
      · rw [failure ok]
        exact valid

/-! ## Runs -/

/-- A call on the registration surface. -/
inductive RegistryAction where
  | register (env : RegisterEnv) (desc : Option InameDesc)
  | load (env : LoadEnv) (contracts : List InameDesc)
  | freeze
  | lookup (mangled : CString)

/-- What a call leaves behind. -/
def registryStep (rt : Registry) : RegistryAction → Registry
  | .register env desc => (geasRegisterContract rt env desc).2
  | .load env contracts => (geasModuleLoad rt env contracts).2
  | .freeze => geasRuntimeFreeze rt
  | .lookup _ => rt

/-- The calls in order. -/
def registryRun (rt : Registry) (actions : List RegistryAction) : Registry :=
  actions.foldl registryStep rt

theorem Registry.Valid.freeze {rt : Registry} (valid : rt.Valid) : (geasRuntimeFreeze rt).Valid :=
  ⟨valid.sorted, valid.entries, valid.names, valid.limit⟩

theorem Registry.Valid.meanwhile {rt : Registry} (valid : rt.Valid) (freezes : Bool) :
    (meanwhile freezes rt).Valid := by
  cases freezes
  · exact valid
  · exact valid.freeze

theorem geasModuleRegister_valid {rt : Registry} (valid : rt.Valid) (env : LoadEnv) (i : Nat)
    (contracts : List InameDesc) : (geasModuleRegister env i contracts rt).2.Valid := by
  induction contracts generalizing rt i with
  | nil => exact valid
  | cons desc rest ih =>
      have after := geasRegisterContract_valid (valid.meanwhile (env.freezes i)) (env.register i)
        (some desc)
      simp only [geasModuleRegister]
      split
      · exact after
      · exact ih after (i + 1)

theorem registryStep_valid {rt : Registry} (valid : rt.Valid) (action : RegistryAction) :
    (registryStep rt action).Valid := by
  cases action with
  | register env desc => exact geasRegisterContract_valid valid env desc
  | load env contracts =>
      have after := geasModuleRegister_valid valid env 0 contracts
      simp only [registryStep, geasModuleLoad]
      split
      · exact valid
      · split
        · exact valid
        · split
          · exact valid
          · split
            · exact after
            · split
              · exact after
              · exact ⟨after.sorted, after.entries, after.names, after.limit⟩
  | freeze => exact valid.freeze
  | lookup => exact valid

theorem registryRun_valid {rt : Registry} (valid : rt.Valid) (actions : List RegistryAction) :
    (registryRun rt actions).Valid := by
  induction actions generalizing rt with
  | nil => exact valid
  | cons action rest ih => exact ih (registryStep_valid valid action)

theorem empty_valid : Registry.empty.Valid :=
  ⟨List.Pairwise.nil, List.Perm.refl _, List.nodup_nil, Nat.zero_le _⟩

/-- A frozen registry takes nothing. -/
theorem registryStep_frozen {rt : Registry} (frozen : rt.frozen = true) (action : RegistryAction) :
    (registryStep rt action).frozen = true ∧ (registryStep rt action).descs = rt.descs ∧
      (registryStep rt action).inames = rt.inames := by
  cases action with
  | register env desc =>
      cases desc <;> simp [registryStep, geasRegisterContract, frozen]
  | load env contracts => simp [registryStep, geasModuleLoad, frozen]
  | freeze => exact ⟨rfl, rfl, rfl⟩
  | lookup => exact ⟨frozen, rfl, rfl⟩

theorem registryRun_frozen {rt : Registry} (frozen : rt.frozen = true)
    (actions : List RegistryAction) :
    (registryRun rt actions).descs = rt.descs ∧ (registryRun rt actions).inames = rt.inames := by
  induction actions generalizing rt with
  | nil => exact ⟨rfl, rfl⟩
  | cons action rest ih =>
      obtain ⟨still, descs, inames⟩ := registryStep_frozen frozen action
      obtain ⟨laterDescs, laterInames⟩ := ih still
      exact ⟨laterDescs.trans descs, laterInames.trans inames⟩

/-- A lookup in a valid registry finds exactly the entries under a name. -/
theorem geasInameLookup_ok {rt : Registry} (valid : rt.Valid) (mangled : CString)
    (found : GeasInameEntry) :
    geasInameLookup rt mangled = .ok found ↔
      found ∈ rt.descs.flatMap entriesOf ∧ found.mangled = mangled := by
  rw [← valid.entries.mem_iff]
  have located := find_located valid.sorted mangled
  constructor
  · intro answered
    simp only [geasInameLookup] at answered
    split at answered
    · next hit =>
      obtain ⟨other, present, named⟩ := located.hit hit
      change rt.inames[(inameFind rt.inames mangled).2]? = _ at present
      rw [present] at answered
      cases answered
      exact ⟨List.mem_of_getElem? present, named⟩
    · cases answered
  · rintro ⟨membership, named⟩
    have hit : (inameFind rt.inames mangled).1 = true :=
      (find_hit_iff valid.sorted).mpr (List.mem_map.mpr ⟨found, membership, named⟩)
    obtain ⟨other, present, same⟩ := located.hit hit
    change rt.inames[(inameFind rt.inames mangled).2]? = _ at present
    have equal : other = found :=
      List.inj_on_of_nodup_map valid.sorted.nodup (List.mem_of_getElem? present) membership
        (same.trans named.symm)
    simp only [geasInameLookup, hit, if_true, present, equal]
    rfl

/-- After any sequence of calls the table is strictly sorted and holds exactly what
the registered contracts contribute; a lookup finds exactly those entries; a
failed registration changes nothing; and once frozen nothing changes. -/
theorem registry_invariant (actions : List RegistryAction) :
    InOrder (registryRun .empty actions).inames ∧
    (registryRun .empty actions).inames.Perm
      ((registryRun .empty actions).descs.flatMap entriesOf) ∧
    (∀ mangled found, geasInameLookup (registryRun .empty actions) mangled = .ok found ↔
      found ∈ (registryRun .empty actions).descs.flatMap entriesOf ∧ found.mangled = mangled) ∧
    (∀ env desc, (geasRegisterContract (registryRun .empty actions) env desc).1 ≠ .ok →
      (geasRegisterContract (registryRun .empty actions) env desc).2 =
        registryRun .empty actions) ∧
    ((registryRun .empty actions).frozen = true → ∀ later,
      (registryRun .empty (actions ++ later)).descs = (registryRun .empty actions).descs ∧
      (registryRun .empty (actions ++ later)).inames = (registryRun .empty actions).inames) := by
  have valid := registryRun_valid empty_valid actions
  refine ⟨valid.sorted, valid.entries, geasInameLookup_ok valid, ?_, ?_⟩
  · intro env desc failed
    cases desc with
    | none => rfl
    | some desc => exact (geasRegisterContract_spec valid env desc).2.2 failed
  · intro frozen later
    have split : registryRun .empty (actions ++ later) =
        registryRun (registryRun .empty actions) later := List.foldl_append
    rw [split]
    exact registryRun_frozen frozen later

/-! ## Module loads -/

/-- A contract is taken only when no freeze came in between. -/
theorem Admits.calm {rt : Registry} {freezes : Bool} {env : RegisterEnv} {desc : InameDesc}
    (admits : Admits (meanwhile freezes rt) env desc) : freezes = false := by
  cases freezes with
  | false => rfl
  | true => exact nomatch (admits.unfrozen : true = false)

/-- Every contract of a module from the `i`-th registration on is taken: no freeze
intervenes, the limit leaves room, no name repeats or is known, and memory is
there for every entry. -/
structure AllAdmitted (rt : Registry) (env : LoadEnv) (i : Nat) (contracts : List InameDesc) :
    Prop where
  unfrozen : ∀ j, j < contracts.length → env.freezes (i + j) = false
  limit : rt.descs.length + contracts.length ≤ maxContractTypes
  names : (contracts.map InameDesc.name ++ rt.descs.map InameDesc.name).Nodup
  memory : ∀ j desc, contracts[j]? = some desc → (env.register (i + j)).mangle = true ∧
    ∀ entry ∈ entriesOf desc, (env.register (i + j)).room entry = true
  inames : (mangledNames (contracts.flatMap entriesOf) ++ mangledNames rt.inames).Nodup

theorem allAdmitted_nil {rt : Registry} (valid : rt.Valid) (env : LoadEnv) (i : Nat) :
    AllAdmitted rt env i [] :=
  ⟨nofun, valid.limit, valid.names, nofun, valid.sorted.nodup⟩

/-- The names of a module are new when its first contract's are and the others'
are with that one registered. -/
theorem nodup_flatMap_cons {desc : InameDesc} {rest : List InameDesc}
    {table inames : List GeasInameEntry} (perm : inames.Perm (entriesOf desc ++ table)) :
    (mangledNames ((desc :: rest).flatMap entriesOf) ++ mangledNames table).Nodup ↔
      (mangledNames (rest.flatMap entriesOf) ++ mangledNames inames).Nodup := by
  refine List.Perm.nodup_iff ?_
  rw [mangledNames, List.flatMap_cons, List.map_append, List.append_assoc]
  refine (List.perm_append_comm_assoc _ _ _).trans (List.Perm.append_left _ ?_)
  rw [← List.map_append]
  exact (perm.map _).symm

theorem allAdmitted_cons {rt : Registry} (unfrozen : rt.frozen = false) (env : LoadEnv) (i : Nat)
    {desc : InameDesc} {rest : List InameDesc}
    {inames : List GeasInameEntry} (perm : inames.Perm (entriesOf desc ++ rt.inames)) :
    AllAdmitted rt env i (desc :: rest) ↔
      Admits (meanwhile (env.freezes i) rt) (env.register i) desc ∧
        AllAdmitted { rt with inames := inames, descs := rt.descs ++ [desc] } env (i + 1) rest := by
  constructor
  · intro all
    have calm : env.freezes i = false := all.unfrozen 0 (Nat.succ_pos _)
    obtain ⟨mangle, room⟩ := all.memory 0 desc rfl
    have limit := all.limit
    rw [List.length_cons] at limit
    have inames' := (nodup_flatMap_cons perm).mp all.inames
    refine ⟨?_, ?_⟩
    · rw [calm]
      change Admits rt (env.register i) desc
      refine ⟨unfrozen, by omega, ?_, mangle, room, ?_⟩
      · exact fun known => (List.nodup_cons.mp all.names).1 (List.mem_append_right _ known)
      · have nodup := (List.nodup_append.mp inames').2.1
        rw [← List.map_append]
        exact ((perm.map _).nodup_iff).mp nodup
    · refine ⟨?_, ?_, ?_, ?_, inames'⟩
      · intro j inside
        rw [Nat.add_assoc, Nat.add_comm 1 j]
        exact all.unfrozen (j + 1) (Nat.succ_lt_succ inside)
      · simp only [List.length_append, List.length_singleton]
        omega
      · rw [List.map_append, ← List.append_assoc]
        exact (List.perm_append_singleton _ _).nodup_iff.mpr all.names
      · intro j other found
        rw [Nat.add_assoc, Nat.add_comm 1 j]
        exact all.memory (j + 1) other found
  · rintro ⟨first, later⟩
    have calm := first.calm
    rw [calm] at first
    refine ⟨?_, ?_, ?_, ?_, (nodup_flatMap_cons perm).mpr later.inames⟩
    · intro j inside
      cases j with
      | zero => exact calm
      | succ j =>
          have next := later.unfrozen j (Nat.lt_of_succ_lt_succ inside)
          rwa [Nat.add_assoc, Nat.add_comm 1 j] at next
    · have limit := later.limit
      simp only [List.length_append, List.length_singleton] at limit
      rw [List.length_cons]
      omega
    · have names := later.names
      rw [List.map_append, ← List.append_assoc] at names
      exact (List.perm_append_singleton _ _).nodup_iff.mp names
    · intro j other found
      cases j with
      | zero =>
          cases found
          exact ⟨first.mangle, first.fitting.1⟩
      | succ j =>
          have next := later.memory j other found
          rwa [Nat.add_assoc, Nat.add_comm 1 j] at next

/-- A registrar succeeds exactly when every contract of its module is taken, and it
never takes a descriptor away. -/
theorem geasModuleRegister_spec {rt : Registry} (unfrozen : rt.frozen = false) (valid : rt.Valid)
    (env : LoadEnv) (i : Nat) (contracts : List InameDesc) :
    ((geasModuleRegister env i contracts rt).1 = .ok ↔ AllAdmitted rt env i contracts) ∧
      rt.descs <+: (geasModuleRegister env i contracts rt).2.descs ∧
      (geasModuleRegister env i contracts rt).2.nmodules = rt.nmodules := by
  induction contracts generalizing rt i with
  | nil =>
      exact ⟨⟨fun _ => allAdmitted_nil valid env i, fun _ => rfl⟩, List.prefix_refl _, rfl⟩
  | cons desc rest ih =>
      obtain ⟨status, success, failure⟩ :=
        geasRegisterContract_spec (valid.meanwhile (env.freezes i)) (env.register i) desc
      simp only [geasModuleRegister]
      by_cases ok : (geasRegisterContract (meanwhile (env.freezes i) rt) (env.register i)
          (some desc)).1 = .ok
      · rw [if_neg (not_not.mpr ok)]
        obtain ⟨inames, sorted, perm, after⟩ := success ok
        have admits := status.mp ok
        have calm := admits.calm
        rw [calm] at admits perm after ⊢
        rw [after]
        have next : ({ rt with inames := inames, descs := rt.descs ++ [desc] } : Registry).frozen =
            false := unfrozen
        obtain ⟨all, grown, modules⟩ := ih next (valid.register admits sorted perm) (i + 1)
        refine ⟨all.trans ?_, (List.prefix_append _ _).trans grown, modules⟩
        rw [allAdmitted_cons unfrozen env i perm, calm]
        exact (and_iff_right admits).symm
      · rw [if_pos ok, failure ok]
        refine ⟨⟨fun done => absurd done ok, fun all => ?_⟩, ?_, ?_⟩
        · have first := (allAdmitted_cons unfrozen env i (List.Perm.refl _)).mp all
          exact absurd (status.mpr first.1) ok
        · cases env.freezes i <;> exact List.prefix_refl _
        · cases env.freezes i <;> rfl

/-- A registrar whose first contract is not taken leaves the tables alone; one whose
first contract is taken leaves it behind. -/
theorem geasModuleRegister_first {rt : Registry} (unfrozen : rt.frozen = false) (valid : rt.Valid)
    (env : LoadEnv) (first : InameDesc) (rest : List InameDesc) :
    (¬Admits (meanwhile (env.freezes 0) rt) (env.register 0) first →
        (geasModuleRegister env 0 (first :: rest) rt).2.descs = rt.descs ∧
        (geasModuleRegister env 0 (first :: rest) rt).2.inames = rt.inames) ∧
      (Admits (meanwhile (env.freezes 0) rt) (env.register 0) first →
        (geasModuleRegister env 0 (first :: rest) rt).2.descs ≠ rt.descs) := by
  obtain ⟨status, success, failure⟩ :=
    geasRegisterContract_spec (valid.meanwhile (env.freezes 0)) (env.register 0) first
  simp only [geasModuleRegister]
  constructor
  · intro refused
    have failed := fun ok => refused (status.mp ok)
    rw [if_pos failed, failure failed]
    cases env.freezes 0 <;> exact ⟨rfl, rfl⟩
  · intro admits
    have ok := status.mpr admits
    obtain ⟨inames, sorted, perm, after⟩ := success ok
    rw [if_neg (not_not.mpr ok), after]
    have calm := admits.calm
    rw [calm] at admits perm ⊢
    have next : ({ rt with inames := inames, descs := rt.descs ++ [first] } : Registry).frozen =
        false := unfrozen
    have grown := (geasModuleRegister_spec next (valid.register admits sorted perm) env 1 rest).2.1
    have longer := grown.length_le
    rw [List.length_append, List.length_singleton] at longer
    intro same
    have equal := congrArg List.length same
    exact absurd (Nat.le_trans longer (Nat.le_of_eq equal)) (Nat.not_succ_le_self _)

/-- The load does not touch the tables, or leaves nothing undone: it is refused
before the registrar, the module is empty, its first contract is not taken, or
all are and there is a slot for the module. -/
def LoadsCleanly (rt : Registry) (env : LoadEnv) : List InameDesc → Prop
  | [] => True
  | first :: rest =>
      rt.frozen = true ∨ env.opens = false ∨ env.exports = false ∨
        ¬Admits (meanwhile (env.freezes 0) rt) (env.register 0) first ∨
        (AllAdmitted rt env 0 (first :: rest) ∧ rt.nmodules ≠ maxModules)

/-- What a load that reaches its registrar does. -/
theorem geasModuleLoad_reaches {rt : Registry} {env : LoadEnv} (unfrozen : rt.frozen = false)
    (opens : env.opens = true) (exports : env.exports = true) (contracts : List InameDesc) :
    geasModuleLoad rt env contracts =
      let loaded := geasModuleRegister env 0 contracts rt
      if loaded.1 ≠ .ok then loaded
      else if loaded.2.nmodules = maxModules then (.errOom, loaded.2)
      else (.ok, { loaded.2 with nmodules := loaded.2.nmodules + 1 }) := by
  simp only [geasModuleLoad, unfrozen, opens, exports, Bool.false_eq_true, Bool.true_eq_false,
    if_false]

/-- The tables after a load that reaches its registrar are the registrar's. -/
theorem geasModuleLoad_tables {rt : Registry} {env : LoadEnv} (unfrozen : rt.frozen = false)
    (opens : env.opens = true) (exports : env.exports = true) (contracts : List InameDesc) :
    (geasModuleLoad rt env contracts).2.descs = (geasModuleRegister env 0 contracts rt).2.descs ∧
      (geasModuleLoad rt env contracts).2.inames =
        (geasModuleRegister env 0 contracts rt).2.inames := by
  rw [geasModuleLoad_reaches unfrozen opens exports]
  dsimp only
  split
  · exact ⟨rfl, rfl⟩
  · split
    · exact ⟨rfl, rfl⟩
    · exact ⟨rfl, rfl⟩

/-- A failed load leaves the tables as they were exactly when the load is clean. -/
theorem module_load_atomic_iff (actions : List RegistryAction) (env : LoadEnv)
    (contracts : List InameDesc) :
    ((geasModuleLoad (registryRun .empty actions) env contracts).1 ≠ .ok →
      (geasModuleLoad (registryRun .empty actions) env contracts).2.descs =
          (registryRun .empty actions).descs ∧
        (geasModuleLoad (registryRun .empty actions) env contracts).2.inames =
          (registryRun .empty actions).inames) ↔
      LoadsCleanly (registryRun .empty actions) env contracts := by
  have valid := registryRun_valid empty_valid actions
  generalize registryRun .empty actions = rt at valid
  by_cases reaches : rt.frozen = false ∧ env.opens = true ∧ env.exports = true
  · obtain ⟨unfrozen, opens, exports⟩ := reaches
    obtain ⟨descs, inames⟩ := geasModuleLoad_tables unfrozen opens exports contracts
    rw [descs, inames, geasModuleLoad_reaches unfrozen opens exports]
    cases contracts with
    | nil => exact ⟨fun _ => trivial, fun _ _ => ⟨rfl, rfl⟩⟩
    | cons first rest =>
        obtain ⟨all, -, modules⟩ := geasModuleRegister_spec unfrozen valid env 0 (first :: rest)
        obtain ⟨untouched, grown⟩ := geasModuleRegister_first unfrozen valid env first rest
        have clean : LoadsCleanly rt env (first :: rest) ↔
            ¬Admits (meanwhile (env.freezes 0) rt) (env.register 0) first ∨
              (AllAdmitted rt env 0 (first :: rest) ∧ rt.nmodules ≠ maxModules) := by
          simp only [LoadsCleanly, unfrozen, opens, exports, Bool.false_eq_true,
            Bool.true_eq_false, false_or]
        rw [clean]
        generalize geasModuleRegister env 0 (first :: rest) rt = loaded at all modules untouched grown
        dsimp only
        by_cases admits : Admits (meanwhile (env.freezes 0) rt) (env.register 0) first
        · rw [← all, or_iff_right (not_not.mpr admits)]
          have changed := grown admits
          by_cases ok : loaded.1 = .ok
          · rw [if_neg (not_not.mpr ok)]
            by_cases full : loaded.2.nmodules = maxModules
            · rw [if_pos full]
              refine ⟨fun atomic => absurd (atomic nofun).1 changed, fun slot => ?_⟩
              exact absurd (modules.symm.trans full) slot.2
            · rw [if_neg full]
              exact ⟨fun _ => ⟨ok, fun same => full (modules.trans same)⟩,
                fun _ failed => absurd rfl failed⟩
          · rw [if_pos ok]
            exact ⟨fun atomic => absurd (atomic ok).1 changed, fun done => absurd done.1 ok⟩
        · exact ⟨fun _ => Or.inl admits, fun _ _ => untouched admits⟩
  · have refused : (geasModuleLoad rt env contracts).2 = rt := by
      unfold geasModuleLoad
      split
      · rfl
      · next unfrozen =>
        split
        · rfl
        · next opens =>
          split
          · rfl
          · next exports =>
            exact absurd ⟨by simpa using unfrozen, by simpa using opens, by simpa using exports⟩
              reaches
    rw [refused]
    refine ⟨fun _ => ?_, fun _ _ => ⟨rfl, rfl⟩⟩
    cases contracts with
    | nil => trivial
    | cons first rest =>
        by_cases frozen : rt.frozen = true
        · exact Or.inl frozen
        · by_cases opens : env.opens = false
          · exact Or.inr (Or.inl opens)
          · refine Or.inr (Or.inr (Or.inl ?_))
            by_contra exports
            exact reaches ⟨by simpa using frozen, by simpa using opens, by simpa using exports⟩

/-- A contract without pledges. -/
def plainDesc (name : String) : InameDesc := ⟨ascii name, 1, 1, []⟩

/-- Surroundings in which nothing fails. -/
def amplyRegistering : RegisterEnv := ⟨true, fun _ => true⟩

def amplyLoading : LoadEnv := ⟨true, true, fun _ => amplyRegistering, fun _ => false⟩

/-- A module whose second contract collides leaves its first one behind. -/
theorem first_contract_left_behind :
    ∃ actions contracts,
      (geasModuleLoad (registryRun .empty actions) amplyLoading contracts).1 = .errName ∧
      (geasModuleLoad (registryRun .empty actions) amplyLoading contracts).2.descs ≠
        (registryRun .empty actions).descs := by
  refine ⟨[.register amplyRegistering (some (plainDesc "A"))], [plainDesc "B", plainDesc "A"], ?_, ?_⟩
  · decide +kernel
  · decide +kernel

end Geas.Runtime
