import Geas.Compiler.Resolve

/-!
# Declared names

What the first half of the resolver leaves in its tables, and when it reports nothing.  A
pass adds entries, of which the first of each name stays, so that what a file declares is
the list of its entries in order; and there is no fault exactly when no name of a namespace
comes twice and no contract has a second requirements block.
-/

namespace Geas.Compiler.Parse.Resolve

open Geas.Lib Geas.Lib.FirstWins
open Geas.Runtime (CString ascii)

/-! ## Entries -/

/-- What a pass declares. -/
@[ext]
structure Entries where
  globals : List (CString × GEntry)
  members : List ((Nat × CString) × MEntry)
  subPledges : List ((Nat × Nat × CString) × PledgeNode)

namespace Entries

def none : Entries := ⟨[], [], []⟩

def append (first second : Entries) : Entries :=
  ⟨first.globals ++ second.globals, first.members ++ second.members,
    first.subPledges ++ second.subPledges⟩

/-- The entries of several passes. -/
def all (each : List Entries) : Entries := each.foldr append none

/-- No entry meets a name that is taken. -/
structure Fresh (r : Resolved) (entries : Entries) : Prop where
  globals : FirstWins.Fresh r.globals entries.globals
  members : FirstWins.Fresh r.members entries.members
  subPledges : FirstWins.Fresh r.subPledges entries.subPledges

@[simp] theorem all_nil : all [] = none := rfl

@[simp] theorem all_cons (entries : Entries) (each : List Entries) :
    all (entries :: each) = entries.append (all each) := rfl

theorem all_globals (each : List Entries) : (all each).globals = each.flatMap Entries.globals := by
  induction each with
  | nil => rfl
  | cons entries each ih => rw [List.flatMap_cons, ← ih]; rfl

theorem all_members (each : List Entries) : (all each).members = each.flatMap Entries.members := by
  induction each with
  | nil => rfl
  | cons entries each ih => rw [List.flatMap_cons, ← ih]; rfl

theorem all_subPledges (each : List Entries) :
    (all each).subPledges = each.flatMap Entries.subPledges := by
  induction each with
  | nil => rfl
  | cons entries each ih => rw [List.flatMap_cons, ← ih]; rfl

end Entries

/-- The entries a pass adds to the tables and when it reports no fault: no name is taken,
and what else it checks holds. -/
structure Declares (pass : Pass) (entries : Entries) (sound : Prop) : Prop where
  globals : ∀ r, Same (pass r).globals (r.globals ++ entries.globals)
  members : ∀ r, Same (pass r).members (r.members ++ entries.members)
  subPledges : ∀ r, Same (pass r).subPledges (r.subPledges ++ entries.subPledges)
  incs : ∀ r, (pass r).incs = r.incs
  clean : ∀ r, (pass r).errors = [] ↔ r.errors = [] ∧ entries.Fresh r ∧ sound

namespace Declares

variable {pass pass' : Pass} {entries entries' : Entries} {sound sound' : Prop}

theorem skip : Declares (fun r => r) .none True where
  globals r := by simp [Entries.none, Same]
  members r := by simp [Entries.none, Same]
  subPledges r := by simp [Entries.none, Same]
  incs _ := rfl
  clean r := by
    have fresh : Entries.none.Fresh r := ⟨fresh_nil, fresh_nil, fresh_nil⟩
    simp [fresh]

/-- The names the second pass declares are new to the first pass's tables. -/
theorem fresh_after (first : Declares pass entries sound) (r : Resolved) :
    entries.Fresh r ∧ entries'.Fresh (pass r) ↔ (entries.append entries').Fresh r := by
  have globals := Fresh.congr entries'.globals (first.globals r)
  have members := Fresh.congr entries'.members (first.members r)
  have subPledges := Fresh.congr entries'.subPledges (first.subPledges r)
  constructor
  · rintro ⟨fresh, fresh'⟩
    exact ⟨fresh_append.mpr ⟨fresh.globals, globals.mp fresh'.globals⟩,
      fresh_append.mpr ⟨fresh.members, members.mp fresh'.members⟩,
      fresh_append.mpr ⟨fresh.subPledges, subPledges.mp fresh'.subPledges⟩⟩
  · intro fresh
    have globalsParts := fresh_append.mp fresh.globals
    have membersParts := fresh_append.mp fresh.members
    have subParts := fresh_append.mp fresh.subPledges
    exact ⟨⟨globalsParts.1, membersParts.1, subParts.1⟩,
      ⟨globals.mpr globalsParts.2, members.mpr membersParts.2, subPledges.mpr subParts.2⟩⟩

theorem next (first : Declares pass entries sound) (second : Declares pass' entries' sound') :
    Declares (fun r => pass' (pass r)) (entries.append entries') (sound ∧ sound') where
  globals r := by
    rw [Entries.append, ← List.append_assoc]
    exact (second.globals _).trans ((first.globals r).append _)
  members r := by
    rw [Entries.append, ← List.append_assoc]
    exact (second.members _).trans ((first.members r).append _)
  subPledges r := by
    rw [Entries.append, ← List.append_assoc]
    exact (second.subPledges _).trans ((first.subPledges r).append _)
  incs r := (second.incs _).trans (first.incs r)
  clean r := by
    rw [second.clean, first.clean, ← first.fresh_after r]
    tauto

/-- A pass over the elements of a list. -/
theorem foldl {α : Type} {pass : α → Pass} {entries : α → Entries} {sound : α → Prop} (items : List α)
    (each : ∀ a ∈ items, Declares (pass a) (entries a) (sound a)) :
    Declares (fun r => items.foldl (fun r a => pass a r) r) (.all (items.map entries))
      (∀ a ∈ items, sound a) := by
  induction items with
  | nil => simpa using skip
  | cons a items ih =>
      have head := each a List.mem_cons_self
      have tail := ih fun a later => each a (List.mem_cons_of_mem _ later)
      simpa using head.next tail

theorem congr (declares : Declares pass entries sound) (same : entries = entries')
    (iff : sound ↔ sound') : Declares pass entries' sound' := by
  subst same
  rwa [← propext iff]

/-- A name that is answered stays as it is. -/
theorem keeps (declares : Declares pass entries sound) (r : Resolved) (name : CString)
    (settled : rsGlobal r name ≠ Option.none ∨ entries.globals.lookup name = Option.none) :
    rsGlobal (pass r) name = rsGlobal r name := by
  have same := declares.globals r name
  rw [List.lookup_append] at same
  rcases settled with found | absent
  · obtain ⟨entry, found⟩ := Option.ne_none_iff_exists'.mp found
    have here : r.globals.lookup name = some entry := found
    rw [here, Option.some_or] at same
    exact same.trans here.symm
  · rw [absent, Option.or_none] at same
    exact same

end Declares

/-! ## Passes that declare -/

/-- A pass that declares its entries unless their name is taken. -/
theorem Declares.of_put {pass : Pass} {entries : Entries} {taken : Resolved → Bool} {msg : CString}
    (runs : ∀ r, pass r = if taken r then r.emit msg else
      { r with
        globals := r.globals ++ entries.globals
        members := r.members ++ entries.members
        subPledges := r.subPledges ++ entries.subPledges })
    (stays : ∀ r, taken r = true → Same r.globals (r.globals ++ entries.globals) ∧
      Same r.members (r.members ++ entries.members) ∧
        Same r.subPledges (r.subPledges ++ entries.subPledges))
    (fresh : ∀ r, taken r = false ↔ entries.Fresh r) : Declares pass entries True := by
  constructor <;> intro r <;> rw [runs] <;> cases isTaken : taken r
  case globals.false => exact .refl _
  case globals.true => exact (stays r isTaken).1
  case members.false => exact .refl _
  case members.true => exact (stays r isTaken).2.1
  case subPledges.false => exact .refl _
  case subPledges.true => exact (stays r isTaken).2.2
  case incs.false => rfl
  case incs.true => rfl
  case clean.false => simp [(fresh r).mp isTaken]
  case clean.true =>
    have stale : ¬entries.Fresh r := by rw [← fresh r, isTaken]; decide
    simp [stale, Resolved.emit]

/-- The entry of a name, unless the parse has put the empty name in its place. -/
def entry {κ ν : Type} (name : CString) (key : κ) (value : ν) : List (κ × ν) :=
  if name = [] then [] else [(key, value)]

theorem declareGlobal_declares (target : Global) (pkg : Option Nat) (name : CString) :
    Declares (declareGlobal target pkg name) ⟨entry name name ⟨target, pkg⟩, [], []⟩ True := by
  unfold declareGlobal entry
  by_cases empty : name = []
  · simp only [empty, if_true]
    exact Declares.skip
  simp only [empty, if_false]
  apply Declares.of_put
  · intro r
    simp only [List.append_nil]
    rfl
  · intro r taken
    rw [List.append_nil, List.append_nil]
    exact ⟨same_of_taken (Option.isSome_iff_ne_none.mp taken) _, .refl _, .refl _⟩
  · intro r
    rw [Option.isSome_eq_false_iff, Option.isNone_iff_eq_none]
    exact ⟨fun free => ⟨fresh_singleton.mpr free, fresh_nil, fresh_nil⟩,
      fun fresh => fresh_singleton.mp fresh.globals⟩

theorem declareMember_declares (cid : Nat) (cname : CString) (member : Member) (sub : Option Nat)
    (name : CString) : Declares (declareMember cid cname member sub name)
      ⟨[], entry name (cid, name) ⟨member, sub⟩, []⟩ True := by
  unfold declareMember entry
  by_cases empty : name = []
  · simp only [empty, if_true]
    exact Declares.skip
  simp only [empty, if_false]
  apply Declares.of_put
  · intro r
    simp only [List.append_nil]
    rfl
  · intro r taken
    rw [List.append_nil, List.append_nil]
    exact ⟨.refl _, same_of_taken (Option.isSome_iff_ne_none.mp taken) _, .refl _⟩
  · intro r
    rw [Option.isSome_eq_false_iff, Option.isNone_iff_eq_none]
    exact ⟨fun free => ⟨fresh_nil, fresh_singleton.mpr free, fresh_nil⟩,
      fun fresh => fresh_singleton.mp fresh.members⟩

theorem declareSubPledge_declares (cid subid : Nat) (sname : CString) (pl : PledgeNode) :
    Declares (declareSubPledge cid subid sname pl)
      ⟨[], [], entry pl.name (cid, subid, pl.name) pl⟩ True := by
  unfold declareSubPledge entry
  by_cases empty : pl.name = []
  · simp only [empty, if_true]
    exact Declares.skip
  simp only [empty, if_false]
  apply Declares.of_put
  · intro r
    simp only [List.append_nil]
    rfl
  · intro r taken
    rw [List.append_nil, List.append_nil]
    exact ⟨.refl _, .refl _, same_of_taken (Option.isSome_iff_ne_none.mp taken) _⟩
  · intro r
    rw [Option.isSome_eq_false_iff, Option.isNone_iff_eq_none]
    exact ⟨fun free => ⟨fresh_nil, fresh_nil, fresh_singleton.mpr free⟩,
      fun fresh => fresh_singleton.mp fresh.subPledges⟩

/-- The global names of a declaration, with what they stand for. -/
def declGlobals : Decl → List (CString × Global)
  | .record name fields => [(name, .record fields)]
  | .sum name variants => (name, .sum variants) :: variants.map fun v => (v.name, .variant v)
  | .prov isInternal name sigs => [(name, .prov isInternal sigs)]
  | .contract isInternal name _ members => [(name, .contract isInternal members)]

/-- The entries of global names. -/
def globalEntries (pkg : Option Nat) (names : List (CString × Global)) :
    List (CString × GEntry) :=
  names.flatMap fun (name, target) => entry name name ⟨target, pkg⟩

theorem collectDecl_declares (pkg : Nat) (d : Decl) :
    Declares (collectDecl pkg d) ⟨globalEntries (some pkg) (declGlobals d), [], []⟩ True := by
  have one (target : Global) (name : CString) :
      Declares (declareGlobal target (some pkg) name)
        ⟨globalEntries (some pkg) [(name, target)], [], []⟩ True := by
    apply (declareGlobal_declares target (some pkg) name).congr _ Iff.rfl
    simp [globalEntries]
  cases d with
  | record name fields => exact one _ name
  | prov isInternal name sigs => exact one _ name
  | contract isInternal name attrs members => exact one _ name
  | sum name variants =>
      have first := declareGlobal_declares (.sum variants) (some pkg) name
      have others := Declares.foldl variants fun v _ =>
        declareGlobal_declares (.variant v) (some pkg) v.name
      apply (first.next others).congr _ (by simp)
      apply Entries.ext
      · simp [Entries.append, Entries.all_globals, globalEntries, declGlobals, List.flatMap_map]
      · simp [Entries.append, Entries.all_members, List.flatMap_map]
      · simp [Entries.append, Entries.all_subPledges, List.flatMap_map]

/-! ## Contracts -/

/-- What a member of a contract declares. -/
def memberEntries (cid : Nat) (pkg : Option Nat) : Member × Nat → Entries
  | (.schema name cols, _) => ⟨entry name name ⟨.schema cols, pkg⟩, [], []⟩
  | (.vow name ty init, _) => ⟨[], entry name (cid, name) ⟨.vow name ty init, none⟩, []⟩
  | (.pledge node, _) => ⟨[], entry node.name (cid, node.name) ⟨.pledge node, none⟩, []⟩
  | (.clause node, _) => ⟨[], entry node.name (cid, node.name) ⟨.clause node, none⟩, []⟩
  | (.subcontract node, subid) =>
      match node.name with
      | some sname =>
          ⟨[], entry sname (cid, sname) ⟨.subcontract node, none⟩,
            node.pledges.flatMap fun pl => entry pl.name (cid, subid, pl.name) pl⟩
      | none =>
          ⟨[], node.pledges.flatMap fun pl => entry pl.name (cid, pl.name) ⟨.pledge pl, some subid⟩,
            []⟩
  | (.requirements _, _) | (.incorporate _, _) => .none

/-- A requirements block. -/
def isBlock : Member → Bool
  | .requirements _ => true
  | _ => false

theorem collectSub_declares (cid : Nat) (cname : CString) (pkg : Option Nat) (subid : Nat)
    (s : SubNode) :
    Declares (collectSub cid cname subid s) (memberEntries cid pkg (.subcontract s, subid)) True := by
  cases named : s.name with
  | some sname =>
      have own := declareMember_declares cid cname (.subcontract s) none sname
      have pledges := Declares.foldl s.pledges fun pl _ =>
        declareSubPledge_declares cid subid sname pl
      have runs : collectSub cid cname subid s = fun r =>
          s.pledges.foldl (fun r pl => declareSubPledge cid subid sname pl r)
            (declareMember cid cname (.subcontract s) none sname r) := by
        funext r
        simp only [collectSub, named]
      rw [runs]
      simp only [memberEntries, named]
      apply (own.next pledges).congr _ (by simp)
      apply Entries.ext
      · simp [Entries.append, Entries.all_globals, List.flatMap_map]
      · simp [Entries.append, Entries.all_members, List.flatMap_map]
      · simp [Entries.append, Entries.all_subPledges, List.flatMap_map]
  | none =>
      have pledges := Declares.foldl s.pledges fun pl _ =>
        declareMember_declares cid cname (.pledge pl) (some subid) pl.name
      have runs : collectSub cid cname subid s = fun r =>
          s.pledges.foldl (fun r pl => declareMember cid cname (.pledge pl) (some subid) pl.name r)
            r := by
        funext r
        simp only [collectSub, named]
      rw [runs]
      simp only [memberEntries, named]
      apply pledges.congr _ (by simp)
      apply Entries.ext
      · simp [Entries.all_globals, List.flatMap_map]
      · simp [Entries.all_members, List.flatMap_map]
      · simp [Entries.all_subPledges, List.flatMap_map]

theorem emit_declares (late : Bool) (msg : CString) :
    Declares (fun r => if late then r.emit msg else r) .none (late = false) := by
  cases late with
  | false => simpa using Declares.skip
  | true =>
      constructor <;> intro r
      case incs => rfl
      case clean => simp [Resolved.emit]
      all_goals simp [Entries.none, Same, Resolved.emit]

/-- One member. -/
theorem collectMember_declares (cid : Nat) (cname : CString) (pkg : Option Nat) (late : Bool)
    (place : Member × Nat) :
    Declares (fun r => (collectMember cid cname pkg (r, late) place).1) (memberEntries cid pkg place)
      (isBlock place.1 = true → late = false) := by
  obtain ⟨m, subid⟩ := place
  cases m with
  | incorporate name => exact Declares.skip.congr rfl (by simp [isBlock])
  | vow name ty init =>
      exact (declareMember_declares cid cname _ none name).congr rfl (by simp [isBlock])
  | pledge node =>
      exact (declareMember_declares cid cname _ none node.name).congr rfl (by simp [isBlock])
  | clause node =>
      exact (declareMember_declares cid cname _ none node.name).congr rfl (by simp [isBlock])
  | subcontract node =>
      exact (collectSub_declares cid cname pkg subid node).congr rfl (by simp [isBlock])
  | schema name cols =>
      exact (declareGlobal_declares (.schema cols) pkg name).congr rfl (by simp [isBlock])
  | requirements block => exact (emit_declares late _).congr rfl (by simp [isBlock])

theorem collectMember_late (cid : Nat) (cname : CString) (pkg : Option Nat) (r : Resolved)
    (late : Bool) (place : Member × Nat) :
    (collectMember cid cname pkg (r, late) place).2 = (late || isBlock place.1) := by
  obtain ⟨m, subid⟩ := place
  cases m <;> simp [collectMember, isBlock]

/-- The members of a contract. -/
theorem members_declares (cid : Nat) (cname : CString) (pkg : Option Nat) (late : Bool)
    (places : List (Member × Nat)) :
    Declares (fun r => (places.foldl (collectMember cid cname pkg) (r, late)).1)
      (.all (places.map (memberEntries cid pkg)))
      (places.countP (isBlock ·.1) + late.toNat ≤ 1) := by
  induction places generalizing late with
  | nil =>
      apply Declares.skip.congr rfl
      cases late <;> simp
  | cons place places ih =>
      have head := collectMember_declares cid cname pkg late place
      have tail := ih (late || isBlock place.1)
      have runs : (fun r => ((place :: places).foldl (collectMember cid cname pkg) (r, late)).1) =
          fun r => (places.foldl (collectMember cid cname pkg)
            ((collectMember cid cname pkg (r, late) place).1, late || isBlock place.1)).1 := by
        funext r
        rw [List.foldl_cons, ← collectMember_late cid cname pkg r]
      rw [runs]
      apply (head.next tail).congr rfl
      rw [List.countP_cons]
      cases late <;> cases isBlock place.1 <;> simp

/-! ## Files -/

section Files

variable {f : File} {declPkg : List Nat}

theorem mem_contracts {c : Contract} : c ∈ contracts f ↔ ∃ isInternal attrs,
    f.decls[c.cid]? = some (.contract isInternal c.name attrs c.members) := by
  unfold contracts
  rw [List.mem_filterMap]
  constructor
  · rintro ⟨⟨d, cid⟩, inside, found⟩
    rw [List.mem_zipIdx_iff_getElem?] at inside
    cases d with
    | contract isInternal name attrs members =>
        cases found
        exact ⟨isInternal, attrs, inside⟩
    | _ => cases found
  · rintro ⟨isInternal, attrs, here⟩
    exact ⟨(_, c.cid), List.mem_zipIdx_iff_getElem?.mpr here, rfl⟩

theorem mem_placed {d : Decl} {pkg : Nat} :
    (d, pkg) ∈ placed f declPkg ↔ ∃ i, f.decls[i]? = some d ∧ declPkg.getD i 0 = pkg := by
  unfold placed
  rw [List.mem_map]
  constructor
  · rintro ⟨⟨d, i⟩, inside, same⟩
    cases same
    exact ⟨i, List.mem_zipIdx_iff_getElem?.mp inside, rfl⟩
  · rintro ⟨i, here, rfl⟩
    exact ⟨(d, i), List.mem_zipIdx_iff_getElem?.mpr here, rfl⟩

theorem contracts_nodup (f : File) : ((contracts f).map Contract.cid).Nodup := by
  have places : f.decls.zipIdx.Pairwise fun a b => a.2 < b.2 := by
    apply List.pairwise_map.mp
    rw [List.zipIdx_map_snd]
    exact List.pairwise_lt_range'
  unfold contracts List.Nodup
  rw [List.pairwise_map, List.pairwise_filterMap]
  apply places.imp
  rintro ⟨d, i⟩ ⟨d', j⟩ before c found c' found'
  cases d <;> cases found
  cases d' <;> cases found'
  exact Nat.ne_of_lt before

/-- The global names of the declarations, in order. -/
def declEntries (ds : List (Decl × Nat)) : List (CString × GEntry) :=
  ds.flatMap fun (d, pkg) => globalEntries (some pkg) (declGlobals d)

/-- The package the name of a contract was declared in. -/
def filePkg (ds : List (Decl × Nat)) (name : CString) : Option Nat :=
  ((declEntries ds).lookup name).bind GEntry.pkg

/-- What a contract declares. -/
def contractEntries (ds : List (Decl × Nat)) (c : Contract) : Entries :=
  .all (c.members.zipIdx.map (memberEntries c.cid (filePkg ds c.name)))

/-- What a file declares. -/
def fileEntries (f : File) (declPkg : List Nat) : Entries :=
  Entries.append ⟨declEntries (placed f declPkg), [], []⟩
    (.all ((contracts f).map (contractEntries (placed f declPkg))))

theorem entry_keys {κ ν : Type} {name : CString} {key : κ} {value : ν} {e : κ × ν}
    (inside : e ∈ entry name key value) : name ≠ [] ∧ e = (key, value) := by
  unfold entry at inside
  split at inside
  · cases inside
  · exact ⟨‹_›, List.mem_singleton.mp inside⟩

/-- The empty name is in no table. -/
theorem contractEntries_empty (ds : List (Decl × Nat)) (c : Contract) :
    (contractEntries ds c).globals.lookup [] = none := by
  apply lookup_eq_none.mpr
  intro inside
  obtain ⟨e, member, empty⟩ := List.mem_map.mp inside
  rw [contractEntries, Entries.all_globals, List.flatMap_map, List.mem_flatMap] at member
  obtain ⟨⟨m, subid⟩, -, member⟩ := member
  cases m with
  | schema name cols =>
      obtain ⟨real, rfl⟩ := entry_keys member
      exact real empty
  | subcontract node =>
      rw [memberEntries] at member
      split at member <;> cases member
  | _ => cases member

theorem collectMembers_declares (ds : List (Decl × Nat)) (c : Contract) :
    Declares (fun r => (c.members.zipIdx.foldl
      (collectMember c.cid c.name (filePkg ds c.name)) (r, false)).1)
      (contractEntries ds c) (c.members.countP isBlock ≤ 1) := by
  apply (members_declares c.cid c.name (filePkg ds c.name) false c.members.zipIdx).congr rfl
  have members : (c.members.zipIdx.map Prod.fst).countP isBlock = c.members.countP isBlock := by
    rw [List.zipIdx_map_fst]
  rw [List.countP_map] at members
  rw [← members]
  simp [Function.comp_def]

/-- The contracts' packages are known when their members are collected, and stay so. -/
theorem collectContracts_eq (ds : List (Decl × Nat)) (cs : List Contract) (r : Resolved)
    (settled : ∀ c ∈ cs, (rsGlobal r c.name).bind GEntry.pkg = filePkg ds c.name ∧
      (rsGlobal r c.name ≠ none ∨ c.name = [])) :
    cs.foldl (fun r c => collectMembers c r) r = cs.foldl (fun r c => (c.members.zipIdx.foldl
      (collectMember c.cid c.name (filePkg ds c.name)) (r, false)).1) r := by
  induction cs generalizing r with
  | nil => rfl
  | cons c cs ih =>
      have here : collectMembers c r = (c.members.zipIdx.foldl
          (collectMember c.cid c.name (filePkg ds c.name)) (r, false)).1 := by
        rw [collectMembers, pkgOf, (settled c List.mem_cons_self).1]
      rw [List.foldl_cons, List.foldl_cons, here]
      apply ih
      intro c' later
      have declares := collectMembers_declares ds c
      obtain ⟨known, present⟩ := settled c' (List.mem_cons_of_mem _ later)
      have keeps := declares.keeps r c'.name (present.imp_right fun empty => by
        rw [empty]
        exact contractEntries_empty ds c)
      rw [keeps]
      exact ⟨known, present⟩

/-- The names of the file are collected. -/
def collected (f : File) (declPkg : List Nat) : Resolved :=
  (contracts f).foldl (fun r c => collectMembers c r)
    (collectGlobals f declPkg (collectImports f emptyResolved))

theorem collectGlobals_declares (f : File) (declPkg : List Nat) :
    Declares (collectGlobals f declPkg) ⟨declEntries (placed f declPkg), [], []⟩ True := by
  have each := Declares.foldl (placed f declPkg) fun place _ =>
    collectDecl_declares place.2 place.1
  apply each.congr _ (by simp)
  apply Entries.ext
  · simp [Entries.all_globals, declEntries, List.flatMap_map]
  · simp [Entries.all_members, List.flatMap_map]
  · simp [Entries.all_subPledges, List.flatMap_map]

/-- The name of a contract is declared, unless it is the empty one. -/
theorem contract_declared {c : Contract} (inside : c ∈ contracts f) :
    (declEntries (placed f declPkg)).lookup c.name ≠ none ∨ c.name = [] := by
  by_cases empty : c.name = []
  · exact .inr empty
  apply Or.inl
  intro absent
  apply lookup_eq_none.mp absent
  obtain ⟨isInternal, attrs, here⟩ := mem_contracts.mp inside
  have place : (_, declPkg.getD c.cid 0) ∈ placed f declPkg := mem_placed.mpr ⟨c.cid, here, rfl⟩
  apply List.mem_map_of_mem (f := Prod.fst)
    (a := (c.name, (⟨.contract isInternal c.members, some (declPkg.getD c.cid 0)⟩ : GEntry)))
  apply List.mem_flatMap.mpr
  refine ⟨_, place, ?_⟩
  simp [globalEntries, declGlobals, entry, empty]

/-- Imports are no names. -/
theorem collectImports_tables (f : File) (r : Resolved) :
    (collectImports f r).globals = r.globals ∧ (collectImports f r).members = r.members ∧
      (collectImports f r).subPledges = r.subPledges ∧ (collectImports f r).incs = r.incs ∧
        (collectImports f r).errors = r.errors := by
  unfold collectImports
  induction f.imports generalizing r with
  | nil => exact ⟨rfl, rfl, rfl, rfl, rfl⟩
  | cons path imports ih =>
      have one : (collectImport path r).globals = r.globals ∧
          (collectImport path r).members = r.members ∧
            (collectImport path r).subPledges = r.subPledges ∧
              (collectImport path r).incs = r.incs ∧ (collectImport path r).errors = r.errors := by
        unfold collectImport
        split
        · exact ⟨rfl, rfl, rfl, rfl, rfl⟩
        · split <;> exact ⟨rfl, rfl, rfl, rfl, rfl⟩
      obtain ⟨globals, members, subPledges, incs, errors⟩ := ih (collectImport path r)
      exact ⟨globals.trans one.1, members.trans one.2.1, subPledges.trans one.2.2.1,
        incs.trans one.2.2.2.1, errors.trans one.2.2.2.2⟩

/-- All declared names, and when there is no fault among them. -/
structure Collected (f : File) (declPkg : List Nat) (r : Resolved) : Prop where
  globals : Same r.globals (fileEntries f declPkg).globals
  members : Same r.members (fileEntries f declPkg).members
  subPledges : Same r.subPledges (fileEntries f declPkg).subPledges
  incs : r.incs = []
  clean : r.errors = [] ↔ (((fileEntries f declPkg).globals.map Prod.fst).Nodup ∧
    ((fileEntries f declPkg).members.map Prod.fst).Nodup ∧
      ((fileEntries f declPkg).subPledges.map Prod.fst).Nodup) ∧
        ∀ c ∈ contracts f, c.members.countP isBlock ≤ 1

theorem collected_spec (f : File) (declPkg : List Nat) :
    Collected f declPkg (collected f declPkg) := by
  obtain ⟨globals, members, subPledges, incs, errors⟩ := collectImports_tables f emptyResolved
  have first := collectGlobals_declares f declPkg
  have each := Declares.foldl (contracts f) fun c _ =>
    collectMembers_declares (placed f declPkg) c
  have both := first.next each
  have runs : collected f declPkg = (contracts f).foldl (fun r c => (c.members.zipIdx.foldl
      (collectMember c.cid c.name (filePkg (placed f declPkg) c.name)) (r, false)).1)
      (collectGlobals f declPkg (collectImports f emptyResolved)) := by
    apply collectContracts_eq
    intro c inside
    have same := first.globals (collectImports f emptyResolved) c.name
    rw [globals] at same
    have answers : rsGlobal (collectGlobals f declPkg (collectImports f emptyResolved)) c.name =
      (declEntries (placed f declPkg)).lookup c.name := same
    rw [answers]
    exact ⟨rfl, contract_declared inside⟩
  rw [runs]
  constructor
  · have same := both.globals (collectImports f emptyResolved)
    rwa [globals] at same
  · have same := both.members (collectImports f emptyResolved)
    rwa [members] at same
  · have same := both.subPledges (collectImports f emptyResolved)
    rwa [subPledges] at same
  · exact (both.incs _).trans incs
  · rw [both.clean, errors]
    have fresh : (fileEntries f declPkg).Fresh (collectImports f emptyResolved) ↔
        ((fileEntries f declPkg).globals.map Prod.fst).Nodup ∧
          ((fileEntries f declPkg).members.map Prod.fst).Nodup ∧
            ((fileEntries f declPkg).subPledges.map Prod.fst).Nodup := by
      rw [← fresh_empty, ← fresh_empty, ← fresh_empty]
      constructor
      · rintro ⟨freshGlobals, freshMembers, freshSubs⟩
        rw [globals] at freshGlobals
        rw [members] at freshMembers
        rw [subPledges] at freshSubs
        exact ⟨freshGlobals, freshMembers, freshSubs⟩
      · rintro ⟨freshGlobals, freshMembers, freshSubs⟩
        constructor
        · rwa [globals]
        · rwa [members]
        · rwa [subPledges]
    rw [← fresh]
    simp [fileEntries, emptyResolved]

end Files

end Geas.Compiler.Parse.Resolve
