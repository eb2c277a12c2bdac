import Geas.Compiler.Declared
import Mathlib.Data.Finset.Card
import Mathlib.Data.Finset.Dedup

/-!
# What the resolver accepts

A file resolves without a fault exactly when its names are in order: no global name and no
name of a contract is declared twice, every incorporated clause is there, visible and
implemented once, and the requirements test names that have a state.  The condition speaks
of the declarations alone, of no table and of no order among them.
-/

namespace Geas.Compiler.Parse.Resolve

open Geas.Lib Geas.Lib.FirstWins
open Geas.Runtime (CString ascii)

/-- The names the parse has read. -/
def named (names : List CString) : List CString := names.filter (· ≠ [])

theorem mem_named {names : List CString} {name : CString} :
    name ∈ named names ↔ name ∈ names ∧ name ≠ [] := by
  simp [named]

theorem named_append (names names' : List CString) :
    named (names ++ names') = named names ++ named names' := List.filter_append ..

/-- The keys of the entries of some names. -/
theorem entry_flatMap_keys {α κ ν : Type} (items : List α) (name : α → CString) (key : α → κ)
    (value : α → ν) : (items.flatMap fun a => entry (name a) (key a) (value a)).map Prod.fst =
      (items.filter fun a => name a ≠ []).map key := by
  induction items with
  | nil => rfl
  | cons a items ih =>
      rw [List.flatMap_cons, List.map_append, ih, List.filter_cons]
      by_cases empty : name a = [] <;> simp [entry, empty]

/-! ## Incorporates -/

/-- Only `incs` and the faults differ. -/
structure SameTables (r r' : Resolved) : Prop where
  globals : r'.globals = r.globals
  members : r'.members = r.members
  subPledges : r'.subPledges = r.subPledges

namespace SameTables

variable {r r' r'' : Resolved}

theorem refl (r : Resolved) : SameTables r r := ⟨rfl, rfl, rfl⟩

theorem emit (r : Resolved) (msg : CString) : SameTables r (r.emit msg) := ⟨rfl, rfl, rfl⟩

theorem trans (first : SameTables r r') (second : SameTables r' r'') : SameTables r r'' :=
  ⟨second.globals.trans first.globals, second.members.trans first.members,
    second.subPledges.trans first.subPledges⟩

theorem rsGlobal (same : SameTables r r') (name : CString) : rsGlobal r' name = rsGlobal r name := by
  rw [Resolve.rsGlobal, same.globals, Resolve.rsGlobal]

theorem rsMember (same : SameTables r r') (cid : Nat) (name : CString) :
    rsMember r' cid name = rsMember r cid name := by
  rw [Resolve.rsMember, same.members, Resolve.rsMember]

theorem pkgOf (same : SameTables r r') (name : CString) : pkgOf r' name = pkgOf r name := by
  rw [Resolve.pkgOf, same.rsGlobal, Resolve.pkgOf]

end SameTables

/-- The contract has a clause of this name. -/
def IsClause (r : Resolved) (cid : Nat) (name : CString) : Prop :=
  ∃ node sub, rsMember r cid name = some ⟨.clause node, sub⟩

/-- What a step over signatures does: the names they provide are written down, and there is
no fault when none was there before and the contract has a clause for each. -/
structure Provides (cid : Nat) (state state' : Resolved × List (CString × CString))
    (log : List (CString × CString)) : Prop where
  tables : SameTables state.1 state'.1
  incs : state'.1.incs = state.1.incs
  provided : Same state'.2 (state.2 ++ log)
  clean : state'.1.errors = [] ↔ state.1.errors = [] ∧ Fresh state.2 log ∧
    ∀ name ∈ log.map Prod.fst, IsClause state.1 cid name

theorem IsClause.congr {r r' : Resolved} (same : SameTables r r') (cid : Nat) (name : CString) :
    IsClause r' cid name ↔ IsClause r cid name := by
  rw [IsClause, same.rsMember, IsClause]

theorem provideSig_provides (cid : Nat) (cname text : CString)
    (state : Resolved × List (CString × CString)) (sig : ClauseSigNode) :
    Provides cid state (provideSig cid cname text state sig) (entry sig.name sig.name text) := by
  obtain ⟨r, provided⟩ := state
  unfold provideSig entry
  by_cases empty : sig.name = []
  · simp only [empty, if_true]
    exact ⟨.refl r, rfl, by rw [List.append_nil]; exact .refl _, by simp⟩
  simp only [empty, if_false]
  cases before : provided.lookup sig.name with
  | some other =>
      have taken : provided.lookup sig.name ≠ none := by simp [before]
      refine ⟨.emit r _, rfl, same_of_taken taken text, ?_⟩
      simp [Resolved.emit, fresh_singleton, before]
  | none =>
      cases member : rsMember r cid sig.name with
      | none =>
          refine ⟨.emit r _, rfl, .refl _, ?_⟩
          simp [Resolved.emit, IsClause, member]
      | some found =>
          obtain ⟨m, sub⟩ := found
          cases m with
          | clause node =>
              refine ⟨.refl r, rfl, .refl _, ?_⟩
              simp [fresh_singleton, before, IsClause, member]
          | _ =>
              refine ⟨.emit r _, rfl, .refl _, ?_⟩
              simp [Resolved.emit, IsClause, member]

/-- The clause names that signatures provide. -/
def sigEntries (text : CString) (sigs : List ClauseSigNode) : List (CString × CString) :=
  sigs.flatMap fun sig => entry sig.name sig.name text

theorem Provides.trans {cid : Nat} {state state' state'' : Resolved × List (CString × CString)}
    {log log' : List (CString × CString)} (first : Provides cid state state' log)
    (second : Provides cid state' state'' log') : Provides cid state state'' (log ++ log') where
  tables := first.tables.trans second.tables
  incs := second.incs.trans first.incs
  provided := by
    rw [← List.append_assoc]
    exact second.provided.trans (first.provided.append log')
  clean := by
    rw [second.clean, first.clean, fresh_append, Fresh.congr log' first.provided, List.map_append,
      List.forall_mem_append]
    simp only [IsClause.congr first.tables]
    tauto

theorem sigs_provide (cid : Nat) (cname text : CString) (sigs : List ClauseSigNode)
    (state : Resolved × List (CString × CString)) :
    Provides cid state (sigs.foldl (provideSig cid cname text) state) (sigEntries text sigs) := by
  induction sigs generalizing state with
  | nil => exact ⟨.refl _, rfl, by simp [sigEntries, Same], by simp [sigEntries]⟩
  | cons sig sigs ih =>
      rw [List.foldl_cons, sigEntries, List.flatMap_cons]
      exact (provideSig_provides cid cname text state sig).trans (ih _)

/-- The signatures of the provisional clause of a name, if it is one. -/
def sigsOf (globals : List (CString × GEntry)) (text : CString) : List ClauseSigNode :=
  match globals.lookup text with
  | some ⟨.prov _ sigs, _⟩ => sigs
  | _ => []

/-- The clause names that provisional clauses provide. -/
def provEntries (globals : List (CString × GEntry)) (texts : List CString) :
    List (CString × CString) :=
  (named texts).flatMap fun text => sigEntries text (sigsOf globals text)

/-- The keys under which a contract's incorporates are kept. -/
def incEntries (cid : Nat) (texts : List CString) : List ((Nat × CString) × Unit) :=
  texts.flatMap fun text => entry text (cid, text) ()

theorem named_cons (text : CString) (texts : List CString) :
    named (text :: texts) = named [text] ++ named texts := by
  by_cases empty : text = [] <;> simp [named, empty]

theorem provEntries_cons (globals : List (CString × GEntry)) (text : CString) (texts : List CString) :
    provEntries globals (text :: texts) = provEntries globals [text] ++ provEntries globals texts := by
  rw [provEntries, named_cons, List.flatMap_append, provEntries, provEntries]

theorem incEntries_cons (cid : Nat) (text : CString) (texts : List CString) :
    incEntries cid (text :: texts) = incEntries cid [text] ++ incEntries cid texts := by
  simp [incEntries]

/-- A provisional clause of this name is visible from the package. -/
def Visible (globals : List (CString × GEntry)) (cpkg : Option Nat) (text : CString) : Prop :=
  ∃ isInternal sigs pkg, globals.lookup text = some ⟨.prov isInternal sigs, pkg⟩ ∧
    (isInternal = true → pkg = cpkg)

/-- What incorporating does. -/
structure Incorporates (cid : Nat) (cpkg : Option Nat)
    (state state' : Resolved × List (CString × CString)) (texts : List CString) : Prop where
  tables : SameTables state.1 state'.1
  others : ∀ cid' text, cid' ≠ cid → state'.1.incs.lookup (cid', text) =
    state.1.incs.lookup (cid', text)
  clean : state'.1.errors = [] ↔ state.1.errors = [] ∧
    (∀ text ∈ named texts, Visible state.1.globals cpkg text) ∧
    Fresh state.1.incs (incEntries cid texts) ∧
    Fresh state.2 (provEntries state.1.globals texts) ∧
    ∀ name ∈ (provEntries state.1.globals texts).map Prod.fst, IsClause state.1 cid name

/-- What accepting a name does: its clauses are provided. -/
def Accepts (cid : Nat) (cpkg : Option Nat) (state state' : Resolved × List (CString × CString))
    (text : CString) : Prop :=
  (∀ name ∈ named [text], Visible state.1.globals cpkg name) →
    Fresh state.1.incs (incEntries cid [text]) →
      state'.1.incs = state.1.incs ++ incEntries cid [text] ∧
        Same state'.2 (state.2 ++ provEntries state.1.globals [text])

section Incorporate

variable {cid : Nat} {cname : CString} {cpkg : Option Nat} {r : Resolved}
  {provided : List (CString × CString)} {text : CString}

theorem one_incEntries (real : text ≠ []) : incEntries cid [text] = [((cid, text), ())] := by
  simp [incEntries, entry, real]

theorem incorporate_fault (real : text ≠ []) (msg : CString) (stale : Visible r.globals cpkg text →
    ¬r.incs.lookup (cid, text) = none) :
    Incorporates cid cpkg (r, provided) (r.emit msg, provided) [text] ∧
      Accepts cid cpkg (r, provided) (r.emit msg, provided) text := by
  have one : named [text] = [text] := by simp [named, real]
  have not (visible : Visible r.globals cpkg text)
      (fresh : Fresh r.incs (incEntries cid [text])) : False := by
    rw [one_incEntries real, fresh_singleton] at fresh
    exact stale visible fresh
  constructor
  · refine ⟨.emit r msg, fun _ _ _ => rfl, ?_⟩
    constructor
    · intro clean
      simp [Resolved.emit] at clean
    · rintro ⟨_, visible, fresh, _⟩
      exact (not (visible text (by simp [one])) fresh).elim
  · intro visible fresh
    exact (not (visible text (by simp [one])) fresh).elim

theorem incorporate_accept {isInternal : Bool} {sigs : List ClauseSigNode} {pkg : Option Nat}
    (real : text ≠ []) (found : r.globals.lookup text = some ⟨.prov isInternal sigs, pkg⟩)
    (seen : isInternal = true → pkg = cpkg) (free : r.incs.lookup (cid, text) = none) :
    Incorporates cid cpkg (r, provided) (sigs.foldl (provideSig cid cname text)
      ({ r with incs := r.incs ++ [((cid, text), ())] }, provided)) [text] ∧
      Accepts cid cpkg (r, provided) (sigs.foldl (provideSig cid cname text)
        ({ r with incs := r.incs ++ [((cid, text), ())] }, provided)) text := by
  have one : named [text] = [text] := by simp [named, real]
  have visible : Visible r.globals cpkg text := ⟨isInternal, sigs, pkg, found, seen⟩
  have entries : provEntries r.globals [text] = sigEntries text sigs := by
    simp [provEntries, one, sigsOf, found]
  have provides := sigs_provide cid cname text sigs
    ({ r with incs := r.incs ++ [((cid, text), ())] }, provided)
  have tables : SameTables r { r with incs := r.incs ++ [((cid, text), ())] } := ⟨rfl, rfl, rfl⟩
  constructor
  · refine ⟨tables.trans provides.tables, ?_, ?_⟩
    · intro cid' text' other
      rw [provides.incs, List.lookup_append]
      have absent : [((cid, text), ())].lookup (cid', text') = none :=
        lookup_eq_none.mpr (by simp [other])
      rw [absent, Option.or_none]
    · rw [provides.clean, entries, one_incEntries real, fresh_singleton]
      simp only [one, List.mem_singleton, forall_eq, visible, free, true_and]
      exact Iff.rfl
  · intro _ _
    rw [provides.incs, entries, one_incEntries real]
    exact ⟨rfl, provides.provided⟩

/-- One name. -/
theorem resolveIncorporate_spec (cid : Nat) (cname : CString) (cpkg : Option Nat)
    (state : Resolved × List (CString × CString)) (text : CString) :
    Incorporates cid cpkg state (resolveIncorporate cid cname cpkg state text) [text] ∧
      Accepts cid cpkg state (resolveIncorporate cid cname cpkg state text) text := by
  obtain ⟨r, provided⟩ := state
  unfold resolveIncorporate
  by_cases empty : text = []
  · subst empty
    simp only [if_true]
    exact ⟨⟨.refl r, fun _ _ _ => rfl, by simp [named, provEntries, incEntries, entry]⟩,
      by simp [Accepts, named, provEntries, incEntries, entry, Same]⟩
  simp only [empty, if_false, rsGlobal]
  cases found : r.globals.lookup text with
  | none =>
      apply incorporate_fault empty
      rintro ⟨_, _, _, here, _⟩
      rw [found] at here
      cases here
  | some declared =>
      obtain ⟨target, pkg⟩ := declared
      cases target with
      | prov isInternal sigs =>
          dsimp only
          split
          case isTrue hidden =>
            apply incorporate_fault empty
            rintro ⟨_, _, _, here, visible⟩
            rw [found] at here
            cases here
            exact absurd (visible hidden.1) hidden.2
          case isFalse seen =>
            split
            case isTrue twice =>
              apply incorporate_fault empty
              intro _ free
              rw [free] at twice
              cases twice
            case isFalse once =>
              apply incorporate_accept empty found
              · intro isIn
                by_contra other
                exact seen ⟨isIn, other⟩
              · exact Option.not_isSome_iff_eq_none.mp once
      | _ =>
          apply incorporate_fault empty
          rintro ⟨_, _, _, here, _⟩
          rw [found] at here
          cases here

end Incorporate

/-- All names of a contract. -/
theorem incorporates_spec (cid : Nat) (cname : CString) (cpkg : Option Nat) (texts : List CString)
    (state : Resolved × List (CString × CString)) :
    Incorporates cid cpkg state (texts.foldl (resolveIncorporate cid cname cpkg) state) texts := by
  induction texts generalizing state with
  | nil => exact ⟨.refl _, fun _ _ _ => rfl, by simp [named, provEntries, incEntries]⟩
  | cons text texts ih =>
      obtain ⟨first, accepts⟩ := resolveIncorporate_spec cid cname cpkg state text
      have others := ih (resolveIncorporate cid cname cpkg state text)
      refine ⟨first.tables.trans others.tables, ?_, ?_⟩
      · intro cid' text' other
        rw [List.foldl_cons, others.others cid' text' other, first.others cid' text' other]
      rw [List.foldl_cons, others.clean, first.clean, first.tables.globals]
      rw [named_cons text texts, incEntries_cons cid text texts, provEntries_cons _ text texts,
        List.map_append, List.forall_mem_append, List.forall_mem_append, fresh_append, fresh_append]
      simp only [IsClause.congr first.tables]
      -- what the others find depends on the first only if the first was accepted
      constructor
      · rintro ⟨⟨clean, visible, fresh, freshProv, clauses⟩, visible', fresh', freshProv', clauses'⟩
        obtain ⟨incs, provided⟩ := accepts visible fresh
        rw [incs] at fresh'
        rw [Fresh.congr _ provided] at freshProv'
        exact ⟨clean, ⟨visible, visible'⟩, ⟨fresh, fresh'⟩, ⟨freshProv, freshProv'⟩, clauses, clauses'⟩
      · rintro ⟨clean, ⟨visible, visible'⟩, ⟨fresh, fresh'⟩, ⟨freshProv, freshProv'⟩, clauses, clauses'⟩
        obtain ⟨incs, provided⟩ := accepts visible fresh
        rw [incs, Fresh.congr _ provided]
        exact ⟨⟨clean, visible, fresh, freshProv, clauses⟩, visible', fresh', freshProv', clauses'⟩

/-! ## Requirements -/

/-- The name has a state the requirements can test. -/
def Testable (r : Resolved) (cid : Nat) (text : CString) : Prop :=
  (∃ s sub, rsMember r cid text = some ⟨.subcontract s, sub⟩) ∨
    ∃ node, rsMember r cid text = some ⟨.pledge node, none⟩

/-- What resolving atoms does. -/
structure Tests (cid : Nat) (state state' : Resolved × List CString) (texts : List CString) :
    Prop where
  tables : SameTables state.1 state'.1
  incs : state'.1.incs = state.1.incs
  nodup : state.2.Nodup → state'.2.Nodup
  mem : ∀ text, text ∈ state'.2 ↔ text ∈ state.2 ∨ text ∈ named texts
  clean : state'.1.errors = [] ↔ state.1.errors = [] ∧
    ∀ text ∈ named texts, Testable state.1 cid text

theorem Testable.congr {r r' : Resolved} (same : SameTables r r') (cid : Nat) (text : CString) :
    Testable r' cid text ↔ Testable r cid text := by
  rw [Testable, same.rsMember, Testable]

namespace Tests

variable {cid : Nat} {state state' state'' : Resolved × List CString} {texts texts' : List CString}

theorem refl (cid : Nat) (state : Resolved × List CString) : Tests cid state state [] where
  tables := .refl _
  incs := rfl
  nodup := id
  mem := by simp [named]
  clean := by simp [named]

theorem trans (first : Tests cid state state' texts) (second : Tests cid state' state'' texts') :
    Tests cid state state'' (texts ++ texts') where
  tables := first.tables.trans second.tables
  incs := second.incs.trans first.incs
  nodup := second.nodup ∘ first.nodup
  mem text := by
    rw [second.mem, first.mem, named_append, List.mem_append]
    exact or_assoc
  clean := by
    rw [second.clean, first.clean, named_append, List.forall_mem_append]
    simp only [Testable.congr first.tables]
    exact and_assoc

end Tests

/-- The names seen, with one more. -/
theorem seen_spec (seen : List CString) (text : CString) :
    (seen.Nodup → (if seen.contains text then seen else seen ++ [text]).Nodup) ∧
      ∀ text', text' ∈ (if seen.contains text then seen else seen ++ [text]) ↔
        text' ∈ seen ∨ text' = text := by
  split
  case isTrue before =>
    rw [List.contains_iff_mem] at before
    exact ⟨id, fun text' => ⟨.inl, fun either => either.elim id fun same => same ▸ before⟩⟩
  case isFalse new =>
    rw [List.contains_iff_mem] at new
    constructor
    · intro nodup
      exact List.nodup_append.mpr ⟨nodup, List.nodup_singleton text, by
        rintro text' inside _ here rfl
        rw [List.mem_singleton.mp here] at inside
        exact new inside⟩
    · simp

theorem resolveReqAtom_tests (c : Contract) (state : Resolved × List CString) (text : CString) :
    Tests c.cid state (resolveReqAtom c state text) [text] := by
  obtain ⟨r, seen⟩ := state
  unfold resolveReqAtom
  by_cases empty : text = []
  · simp only [empty, if_true]
    exact ⟨.refl r, rfl, id, by simp [named], by simp [named]⟩
  have one : named [text] = [text] := by simp [named, empty]
  obtain ⟨nodup, mem⟩ := seen_spec seen text
  have fault (msg : CString) (none : ¬Testable r c.cid text) : Tests c.cid (r, seen)
      (r.emit msg, if seen.contains text then seen else seen ++ [text]) [text] := by
    refine ⟨.emit r msg, rfl, nodup, by simpa [one] using mem, ?_⟩
    simp [Resolved.emit, one, none]
  have accept (tests : Testable r c.cid text) : Tests c.cid (r, seen)
      (r, if seen.contains text then seen else seen ++ [text]) [text] := by
    refine ⟨.refl r, rfl, nodup, by simpa [one] using mem, ?_⟩
    simp [one, tests]
  simp only [empty, if_false]
  cases found : rsMember r c.cid text with
  | none =>
      have none : ¬Testable r c.cid text := by simp [Testable, found]
      dsimp only
      split
      · exact fault _ none
      · exact fault _ none
  | some declared =>
      obtain ⟨m, sub⟩ := declared
      cases m with
      | subcontract s => exact accept (.inl ⟨s, sub, found⟩)
      | pledge node =>
          cases sub with
          | none => exact accept (.inr ⟨node, found⟩)
          | some subid => exact fault _ (by simp [Testable, found])
      | _ => exact fault _ (by simp [Testable, found])

theorem resolveReqExpr_tests (c : Contract) (e : Formula CString) (state : Resolved × List CString) :
    Tests c.cid state (resolveReqExpr c state e) e.atoms := by
  induction e generalizing state with
  | atom text => exact resolveReqAtom_tests c state text
  | not e ih => exact ih state
  | and left right ihLeft ihRight => exact (ihLeft state).trans (ihRight _)
  | or left right ihLeft ihRight => exact (ihLeft state).trans (ihRight _)

/-- The atoms of a line. -/
def lineAtoms (line : Option (Formula CString)) : List CString := line.elim [] Formula.atoms

/-- The atoms of a block. -/
def blockAtoms (block : ReqBlockNode) : List CString := (reqLines block).flatMap lineAtoms

theorem resolveReqLines_tests (c : Contract) (lines : List (Option (Formula CString)))
    (state : Resolved × List CString) :
    Tests c.cid state (lines.foldl (resolveReqLine c) state) (lines.flatMap lineAtoms) := by
  induction lines generalizing state with
  | nil => exact .refl _ _
  | cons line lines ih =>
      rw [List.foldl_cons, List.flatMap_cons]
      cases line with
      | none => exact (Tests.refl _ _).trans (ih state)
      | some e => exact (resolveReqExpr_tests c e state).trans (ih _)

/-- A block is in order. -/
def BlockSound (r : Resolved) (cid : Nat) (block : ReqBlockNode) : Prop :=
  (∀ text ∈ named (blockAtoms block), Testable r cid text) ∧
    (named (blockAtoms block)).toFinset.card ≤ atomLimit

theorem resolveRequirements_spec (c : Contract) (r : Resolved) :
    SameTables r (resolveRequirements c r) ∧ (resolveRequirements c r).incs = r.incs ∧
      ((resolveRequirements c r).errors = [] ↔
        r.errors = [] ∧ ∀ block ∈ (reqBlocks c.members).head?, BlockSound r c.cid block) := by
  unfold resolveRequirements
  cases blocks : reqBlocks c.members with
  | nil => exact ⟨.refl r, rfl, by simp⟩
  | cons block others =>
      have tests := resolveReqLines_tests c (reqLines block) (r, [])
      dsimp only
      generalize (reqLines block).foldl (resolveReqLine c) (r, []) = state at tests ⊢
      obtain ⟨r', seen⟩ := state
      have nodup : seen.Nodup := tests.nodup List.nodup_nil
      have mem : ∀ text, text ∈ seen ↔ text ∈ named (blockAtoms block) := fun text => by
        simpa [blockAtoms] using tests.mem text
      have card : (named (blockAtoms block)).toFinset.card = seen.length := by
        rw [← List.toFinset_card_of_nodup nodup]
        congr 1
        ext text
        rw [List.mem_toFinset, List.mem_toFinset, mem]
      have sound : (∀ block' ∈ (block :: others).head?, BlockSound r c.cid block') ↔
          (∀ text ∈ named (blockAtoms block), Testable r c.cid text) ∧ seen.length ≤ atomLimit := by
        simp [BlockSound, card]
      have clean : r'.errors = [] ↔ r.errors = [] ∧
          ∀ text ∈ named (blockAtoms block), Testable r c.cid text := tests.clean
      rw [sound]
      dsimp only
      split
      case isTrue many =>
        refine ⟨tests.tables.trans (.emit _ _), tests.incs, ?_⟩
        simp [Resolved.emit, Nat.not_le.mpr many]
      case isFalse few =>
        refine ⟨tests.tables, tests.incs, ?_⟩
        rw [clean]
        simp [Nat.not_lt.mp few]

/-! ## All contracts -/

/-- The references of a contract are in order. -/
structure ContractSound (r : Resolved) (c : Contract) : Prop where
  visible : ∀ text ∈ named (incorporated c.members), Visible r.globals (pkgOf r c.name) text
  once : (named (incorporated c.members)).Nodup
  provided : ((provEntries r.globals (incorporated c.members)).map Prod.fst).Nodup
  clauses : ∀ name ∈ (provEntries r.globals (incorporated c.members)).map Prod.fst,
    IsClause r c.cid name
  block : ∀ block ∈ (reqBlocks c.members).head?, BlockSound r c.cid block

theorem BlockSound.congr {r r' : Resolved} (same : SameTables r r') (cid : Nat)
    (block : ReqBlockNode) : BlockSound r' cid block ↔ BlockSound r cid block := by
  simp only [BlockSound, Testable.congr same]

theorem ContractSound.congr {r r' : Resolved} (same : SameTables r r') (c : Contract) :
    ContractSound r' c ↔ ContractSound r c := by
  constructor <;> rintro ⟨visible, once, provided, clauses, block⟩
  · rw [same.globals, same.pkgOf] at visible
    rw [same.globals] at provided clauses
    simp only [IsClause.congr same] at clauses
    simp only [BlockSound.congr same] at block
    exact ⟨visible, once, provided, clauses, block⟩
  · constructor
    · rwa [same.globals, same.pkgOf]
    · exact once
    · rwa [same.globals]
    · rw [same.globals]
      simpa only [IsClause.congr same] using clauses
    · simpa only [BlockSound.congr same] using block

/-- References change no names. -/
theorem resolveContract_tables (c : Contract) (r : Resolved) :
    SameTables r (resolveRequirements c (resolveIncorporates c r)) :=
  (incorporates_spec c.cid c.name (pkgOf r c.name) (incorporated c.members) (r, [])).tables.trans
    (resolveRequirements_spec c (resolveIncorporates c r)).1

theorem resolveContracts_tables (cs : List Contract) (r : Resolved) :
    SameTables r (cs.foldl (fun r c => resolveRequirements c (resolveIncorporates c r)) r) := by
  induction cs generalizing r with
  | nil => exact .refl r
  | cons c cs ih => exact (resolveContract_tables c r).trans (ih _)

/-- One contract, whose incorporates come up for the first time. -/
theorem resolveContract_spec (c : Contract) (r : Resolved)
    (new : ∀ text, r.incs.lookup (c.cid, text) = none) :
    (∀ cid text, cid ≠ c.cid →
      (resolveRequirements c (resolveIncorporates c r)).incs.lookup (cid, text) =
        r.incs.lookup (cid, text)) ∧
      ((resolveRequirements c (resolveIncorporates c r)).errors = [] ↔
        r.errors = [] ∧ ContractSound r c) := by
  have incorporates := incorporates_spec c.cid c.name (pkgOf r c.name) (incorporated c.members) (r, [])
  obtain ⟨-, incs, clean⟩ := resolveRequirements_spec c (resolveIncorporates c r)
  have keys : (incEntries c.cid (incorporated c.members)).map Prod.fst =
      (named (incorporated c.members)).map fun text => (c.cid, text) := by
    rw [incEntries, entry_flatMap_keys, named]
  have fresh : Fresh r.incs (incEntries c.cid (incorporated c.members)) ↔
      (named (incorporated c.members)).Nodup := by
    rw [Fresh, keys, List.nodup_map_iff fun _ _ same => (Prod.mk.inj same).2]
    apply and_iff_left
    intro key inside
    obtain ⟨text, -, rfl⟩ := List.mem_map.mp inside
    exact new text
  constructor
  · intro cid text other
    rw [incs]
    exact incorporates.others cid text other
  rw [clean]
  have cleanIncs : (resolveIncorporates c r).errors = [] ↔ _ := incorporates.clean
  rw [cleanIncs, fresh, fresh_empty]
  have blocks (block : ReqBlockNode) :
      BlockSound (resolveIncorporates c r) c.cid block ↔ BlockSound r c.cid block :=
    BlockSound.congr incorporates.tables c.cid block
  simp only [blocks]
  constructor
  · rintro ⟨⟨clean, visible, once, provided, clauses⟩, block⟩
    exact ⟨clean, visible, once, provided, clauses, block⟩
  · rintro ⟨clean, visible, once, provided, clauses, block⟩
    exact ⟨⟨clean, visible, once, provided, clauses⟩, block⟩

theorem resolveContracts_clean (cs : List Contract) (cids : (cs.map Contract.cid).Nodup)
    (r : Resolved) (new : ∀ c ∈ cs, ∀ text, r.incs.lookup (c.cid, text) = none) :
    (cs.foldl (fun r c => resolveRequirements c (resolveIncorporates c r)) r).errors = [] ↔
      r.errors = [] ∧ ∀ c ∈ cs, ContractSound r c := by
  induction cs generalizing r with
  | nil => simp
  | cons c cs ih =>
      obtain ⟨incs, clean⟩ := resolveContract_spec c r (new c List.mem_cons_self)
      rw [List.map_cons, List.nodup_cons] at cids
      rw [List.foldl_cons, ih cids.2, clean, List.forall_mem_cons]
      · simp only [ContractSound.congr (resolveContract_tables c r)]
        exact and_assoc
      · intro c' later text
        have other : c'.cid ≠ c.cid := by
          intro same
          rw [← same] at cids
          exact cids.1 (List.mem_map_of_mem later)
        rw [incs _ _ other]
        exact new c' (List.mem_cons_of_mem _ later) text

/-- A file resolves without a fault when its names are declared without one, and then the
references of every contract are in order. -/
theorem resolveFile_clean (f : File) (declPkg : List Nat) :
    (resolveFile f declPkg).errors = [] ↔ (collected f declPkg).errors = [] ∧
      ∀ c ∈ contracts f, ContractSound (collected f declPkg) c := by
  have none := (collected_spec f declPkg).incs
  apply resolveContracts_clean (contracts f) (contracts_nodup f) (collected f declPkg)
  intro c _ text
  rw [none]
  rfl

end Geas.Compiler.Parse.Resolve
