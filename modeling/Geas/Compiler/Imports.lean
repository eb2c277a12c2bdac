import Geas.Compiler.Loader
import Mathlib.Logic.Relation
import Mathlib.Data.List.Count

/-!
# The import graph

An edge of the graph leads from a file that reads and parses to a file one of its
imports resolves to.  The walk over the graph is depth first, and a cycle is seen
when an import lands on a path that is marked loading.  A path is marked loading
only while one of its imports loads, so the paths marked at any time are the ones
on the way from the root to the file being walked, that file itself left out.

`Visits` says what a stretch of the walk does to the state, `Loaded` what the load
of one file does.
-/

namespace Geas.Compiler

open Relation

/-- The path an import resolves to.  The root counts as a file throughout: it is
marked before anything is resolved. -/
def importTarget (env : LoadEnv) (root imp : String) : Option String :=
  ((dirOf root :: env.homes).map fun dir => pathUnder dir (importRel imp)).find? fun candidate =>
    candidate = root || env.sourceIsFile candidate

/-- A file that parses imports another one. -/
def Edge (env : LoadEnv) (root p q : String) : Prop :=
  ∃ src, env.sourceLoad p = some src ∧ (env.frontend.parse src).lexErrors = [] ∧
    (env.frontend.parse src).parseErrors = [] ∧
    ∃ imp ∈ (env.frontend.parse src).nodes .imports, imp.name ≠ "" ∧
      importTarget env root imp.name = some q

/-- One file leads to another through imports. -/
abbrev Reach (env : LoadEnv) (root : String) : String → String → Prop :=
  ReflTransGen (Edge env root)

/-- A path leads back to itself through another one. -/
def OnCycle (env : LoadEnv) (root p : String) : Prop :=
  ∃ q, q ≠ p ∧ Reach env root p q ∧ Reach env root q p

/-- A load reported an import cycle. -/
def Reported (ld : Ld) : Prop :=
  ∃ path lo hi text, LoadError.cycle path lo hi text ∈ ld.errors

/-- The paths of the files that were parsed, in order. -/
def Ld.parsedPaths (ld : Ld) : List String :=
  ld.files.map LdFile.path

/-- A state the walk is in: the root is marked, and every marked path is a file. -/
structure Ready (env : LoadEnv) (root : String) (ld : Ld) : Prop where
  rootdir : ld.rootdir = dirOf root
  rootSeen : (ld.status root).isSome = true
  marked : ∀ p, (ld.status p).isSome = true → p = root ∨ env.sourceIsFile p = true

/-- The files parsed are the marked paths that can be read, each once. -/
structure Booked (env : LoadEnv) (ld : Ld) : Prop where
  nodup : ld.parsedPaths.Nodup
  iff : ∀ p, p ∈ ld.parsedPaths ↔
    (ld.status p).isSome = true ∧ (env.sourceLoad p).isSome = true

theorem resolveImport_eq {env : LoadEnv} {root : String} {ld : Ld} (ready : Ready env root ld)
    (imp : String) : resolveImport env ld imp = importTarget env root imp := by
  unfold resolveImport importTarget
  rw [ready.rootdir]
  congr 1
  funext candidate
  by_cases isRoot : candidate = root
  · subst isRoot
    simp [ready.rootSeen]
  · cases seen : (ld.status candidate).isSome with
    | false => simp [isRoot]
    | true =>
        have isFile := (ready.marked candidate seen).resolve_left isRoot
        simp [isFile]

theorem importTarget_isFile {env : LoadEnv} {root imp q : String}
    (found : importTarget env root imp = some q) : q = root ∨ env.sourceIsFile q = true := by
  have holds := List.find?_some found
  simpa using holds

variable {env : LoadEnv} {root : String}

/-- What a stretch of the walk below a path does. -/
structure Visits (env : LoadEnv) (root path : String) (ld ld' : Ld) : Prop where
  keeps : ∀ p, (ld.status p).isSome = true → ld'.status p = ld.status p
  fresh : ∀ p, ld.status p = none → (ld'.status p).isSome = true →
    ld'.status p = some .done ∧ Reach env root path p
  edges : ∀ u w, ld.status u = none → (ld'.status u).isSome = true → Edge env root u w →
    (ld'.status w).isSome = true ∧
      (ld.status w = some .loading ∨ w = path → Reported ld')
  grows : Reported ld → Reported ld'
  sound : Reported ld' → Reported ld ∨
    ∃ u w, u ≠ w ∧ Reach env root path u ∧ Reach env root w u ∧ Edge env root u w
  acyclic : ¬ Reported ld' → (∀ p, p ≠ path → ld.status p = some .done → ¬ OnCycle env root p) →
    ∀ p, p ≠ path → ld'.status p = some .done → ¬ OnCycle env root p
  ready : Ready env root ld → Ready env root ld'
  booked : Booked env ld → Booked env ld'

theorem Visits.refl (path : String) (ld : Ld) : Visits env root path ld ld where
  keeps _ _ := rfl
  fresh p unseen seen := by simp [unseen] at seen
  edges u w unseen seen := by simp [unseen] at seen
  grows reported := reported
  sound reported := Or.inl reported
  acyclic _ before := before
  ready ready := ready
  booked booked := booked

theorem Visits.trans {path : String} {first second third : Ld}
    (front : Visits env root path first second) (back : Visits env root path second third) :
    Visits env root path first third where
  keeps p seen := by
    have kept := front.keeps p seen
    rw [back.keeps p (by rwa [kept]), kept]
  fresh p unseen seen := by
    cases middle : second.status p with
    | none => exact back.fresh p middle seen
    | some status =>
        have reached := front.fresh p unseen (by simp [middle])
        rw [back.keeps p (by simp [middle])]
        exact reached
  edges u w unseen seen edge := by
    cases middle : second.status u with
    | none =>
        have later := back.edges u w middle seen edge
        refine ⟨later.1, fun onStack => later.2 ?_⟩
        rcases onStack with loading | isPath
        · exact Or.inl ((front.keeps w (by simp [loading])).trans loading)
        · exact Or.inr isPath
    | some status =>
        have here := front.edges u w unseen (by simp [middle]) edge
        refine ⟨?_, fun onStack => back.grows (here.2 onStack)⟩
        rw [back.keeps w here.1]
        exact here.1
  grows reported := back.grows (front.grows reported)
  sound reported := by
    rcases back.sound reported with reported | found
    · exact front.sound reported
    · exact Or.inr found
  acyclic clean before :=
    back.acyclic clean (front.acyclic (fun reported => clean (back.grows reported)) before)
  ready ready := back.ready (front.ready ready)
  booked booked := back.booked (front.booked booked)

/-- Recording a fault visits nothing; a cycle fault stands on a cycle. -/
theorem visits_ldError {path : String} {ld : Ld} {error : LoadError}
    (justified : (∃ file lo hi text, error = .cycle file lo hi text) →
      ∃ u w, u ≠ w ∧ Reach env root path u ∧ Reach env root w u ∧ Edge env root u w) :
    Visits env root path ld (ld.ldError error) where
  keeps _ _ := rfl
  fresh p unseen seen := by simp [Ld.ldError, unseen] at seen
  edges u w unseen seen := by simp [Ld.ldError, unseen] at seen
  grows := by
    rintro ⟨file, lo, hi, text, inside⟩
    exact ⟨file, lo, hi, text, List.mem_append_left _ inside⟩
  sound := by
    rintro ⟨file, lo, hi, text, inside⟩
    rcases List.mem_append.mp inside with inside | here
    · exact Or.inl ⟨file, lo, hi, text, inside⟩
    · rw [List.mem_singleton] at here
      exact Or.inr (justified ⟨file, lo, hi, text, here.symm⟩)
  acyclic _ before := before
  ready ready := ⟨ready.rootdir, ready.rootSeen, ready.marked⟩
  booked booked := ⟨booked.nodup, booked.iff⟩

/-- What the load of a path that was not seen does. -/
structure Loaded (env : LoadEnv) (root path : String) (ld ld' : Ld) : Prop where
  keeps : ∀ p, (ld.status p).isSome = true → ld'.status p = ld.status p
  finished : ld'.status path = some .done
  fresh : ∀ p, ld.status p = none → (ld'.status p).isSome = true →
    ld'.status p = some .done ∧ Reach env root path p
  edges : ∀ u w, ld.status u = none → (ld'.status u).isSome = true → Edge env root u w →
    (ld'.status w).isSome = true ∧
      (ld.status w = some .loading ∨ w = path ∧ u ≠ path → Reported ld')
  grows : Reported ld → Reported ld'
  sound : Reported ld' → Reported ld ∨
    ∃ u w, u ≠ w ∧ Reach env root path u ∧ Reach env root w u ∧ Edge env root u w
  acyclic : ¬ Reported ld' → (∀ p, ld.status p = some .done → ¬ OnCycle env root p) →
    ∀ p, ld'.status p = some .done → ¬ OnCycle env root p
  ready : Ready env root (ld.setStatus path .loading) → Ready env root ld'
  booked : Booked env ld → Booked env ld'

theorem setStatus_status (ld : Ld) (path p : String) (status : LoadStatus) :
    (ld.setStatus path status).status p = if p = path then some status else ld.status p := by
  simp [Ld.setStatus, Function.update_apply]

theorem ready_setStatus {ld : Ld} {path : String} {status : LoadStatus}
    (isFile : path = root ∨ env.sourceIsFile path = true) (ready : Ready env root ld) :
    Ready env root (ld.setStatus path status) where
  rootdir := ready.rootdir
  rootSeen := by
    rw [setStatus_status]
    split
    · rfl
    · exact ready.rootSeen
  marked p seen := by
    rw [setStatus_status] at seen
    split at seen
    · rename_i same
      rwa [same]
    · exact ready.marked p seen

/-- Marking a path again, or a path nobody can read, leaves the books in order. -/
theorem booked_setStatus {ld : Ld} {path : String} {status : LoadStatus}
    (counted : (ld.status path).isSome = true ∨ env.sourceLoad path = none)
    (booked : Booked env ld) : Booked env (ld.setStatus path status) where
  nodup := booked.nodup
  iff p := by
    have before := booked.iff p
    rw [setStatus_status]
    split
    · rename_i same
      subst same
      rcases counted with seen | unreadable
      · simpa [seen, Ld.setStatus, Ld.parsedPaths] using before
      · simpa [unreadable, Ld.setStatus, Ld.parsedPaths] using before
    · exact before

/-- The load of an import, seen from the importer. -/
theorem visits_load {path target : String} {ld ld' : Ld} (edge : Edge env root path target)
    (found : target = root ∨ env.sourceIsFile target = true)
    (here : ld.status path = some .done)
    (loaded : Loaded env root target (ld.setStatus path .loading) ld')
    (isFile : path = root ∨ env.sourceIsFile path = true) :
    Visits env root path ld (ld'.setStatus path .done) := by
  have below : ∀ p, Reach env root target p → Reach env root path p :=
    fun p reach => ReflTransGen.head edge reach
  have elsewhere : ∀ p, p ≠ path → (ld.setStatus path .loading).status p = ld.status p := by
    intro p other
    rw [setStatus_status, if_neg other]
  constructor
  · intro p seen
    rw [setStatus_status]
    split
    · rename_i same
      rw [same, here]
    · rename_i other
      rw [loaded.keeps p (by rwa [elsewhere p other]), elsewhere p other]
  · intro p unseen seen
    have other : p ≠ path := by
      rintro rfl
      simp [here] at unseen
    rw [setStatus_status, if_neg other] at seen ⊢
    have reached := loaded.fresh p (by rwa [elsewhere p other]) seen
    exact ⟨reached.1, below p reached.2⟩
  · intro u w unseen seen edge
    have other : u ≠ path := by
      rintro rfl
      simp [here] at unseen
    rw [setStatus_status, if_neg other] at seen
    have next := loaded.edges u w (by rwa [elsewhere u other]) seen edge
    constructor
    · rw [setStatus_status]
      split
      · rfl
      · exact next.1
    · intro onStack
      refine next.2 (Or.inl ?_)
      rw [setStatus_status]
      split
      · rfl
      · rename_i notPath
        exact onStack.resolve_right notPath
  · exact loaded.grows
  · intro reported
    rcases loaded.sound reported with reported | ⟨u, w, apart, reach, back, closes⟩
    · exact Or.inl reported
    · exact Or.inr ⟨u, w, apart, below u reach, back, closes⟩
  · intro clean before p other done
    rw [setStatus_status, if_neg other] at done
    refine loaded.acyclic clean (fun q marked => ?_) p done
    rw [setStatus_status] at marked
    split at marked
    · cases marked
    · rename_i notPath
      exact before q notPath marked
  · intro ready
    exact ready_setStatus isFile
      (loaded.ready (ready_setStatus found (ready_setStatus isFile ready)))
  · intro booked
    have seen : (ld'.status path).isSome = true := by
      rw [loaded.keeps path (by simp [setStatus_status])]
      simp [setStatus_status]
    exact booked_setStatus (Or.inl seen)
      (loaded.booked (booked_setStatus (Or.inl (by simp [here])) booked))

namespace Visits

variable {path : String} {ld ld' : Ld}

/-- A stretch of the walk leaves no path marked loading that was not. -/
theorem loading (visits : Visits env root path ld ld') {p : String}
    (loading : ld'.status p = some .loading) : ld.status p = some .loading := by
  cases before : ld.status p with
  | none =>
      have done := (visits.fresh p before (by simp [loading])).1
      rw [loading] at done
      cases done
  | some status =>
      rw [← before, ← visits.keeps p (by simp [before]), loading]

theorem seen (visits : Visits env root path ld ld') {p : String}
    (seen : (ld.status p).isSome = true) : (ld'.status p).isSome = true := by
  rwa [visits.keeps p seen]

end Visits

/-- An import is dealt with: its file was seen, and reported if it was loading. -/
def Handled (env : LoadEnv) (root : String) (before after : Ld) (imp : String) : Prop :=
  ∀ w, importTarget env root imp = some w →
    (after.status w).isSome = true ∧ (before.status w = some .loading → Reported after)

theorem Handled.later {path imp : String} {first second third : Ld}
    (handled : Handled env root first second imp) (visits : Visits env root path second third) :
    Handled env root first third imp :=
  fun w found => ⟨visits.seen (handled w found).1,
    fun loading => visits.grows ((handled w found).2 loading)⟩

theorem Handled.earlier {path imp : String} {first second third : Ld}
    (visits : Visits env root path first second) (handled : Handled env root second third imp) :
    Handled env root first third imp :=
  fun w found => ⟨(handled w found).1, fun loading =>
    (handled w found).2 ((visits.keeps w (by simp [loading])).trans loading)⟩

/-- An import dealt with by a stretch of the walk stays so. -/
theorem Handled.now {path imp : String} {first second : Ld}
    (visits : Visits env root path first second) (handled : Handled env root first second imp) :
    Handled env root second second imp :=
  fun w found => ⟨(handled w found).1, fun loading => (handled w found).2 (visits.loading loading)⟩

theorem handled_iff_of_found {imp target : String} {before after : Ld}
    (found : importTarget env root imp = some target) :
    Handled env root before after imp ↔
      (after.status target).isSome = true ∧ (before.status target = some .loading → Reported after) := by
  constructor
  · exact fun handled => handled target found
  · intro facts w found'
    rw [found] at found'
    cases found'
    exact facts

theorem reported_cycle (ld : Ld) (path : String) (lo hi : Nat) (text : String) :
    Reported (ld.ldError (.cycle path lo hi text)) :=
  ⟨path, lo, hi, text, by simp [Ld.ldError]⟩

/-- An import that is loading closes a cycle with the importer. -/
theorem visits_cycle {path target : String} {ld : Ld} (here : ld.status path = some .done)
    (stack : ∀ p, ld.status p = some .loading → Reach env root p path)
    (edge : Edge env root path target) (loading : ld.status target = some .loading)
    (lo hi : Nat) (text : String) :
    Visits env root path ld (ld.ldError (.cycle path lo hi text)) := by
  have apart : path ≠ target := by
    rintro rfl
    rw [here] at loading
    cases loading
  apply visits_ldError
  intro _
  exact ⟨path, target, apart, ReflTransGen.refl, stack target loading, edge⟩

/-- The load of an import that was not seen, with the importer marked around it. -/
theorem visits_import {path imp target : String} {ld next : Ld} (ready : Ready env root ld)
    (here : ld.status path = some .done)
    (stack : ∀ p, ld.status p = some .loading → Reach env root p path)
    (found : importTarget env root imp = some target) (edge : Edge env root path target)
    (unseen : ld.status target = none)
    (loads : (ld.setStatus path .loading).status target = none →
      (∀ p, (ld.setStatus path .loading).status p = some .loading → Reach env root p target) →
      Ready env root ((ld.setStatus path .loading).setStatus target .loading) →
      Loaded env root target (ld.setStatus path .loading) next) :
    Visits env root path ld (next.setStatus path .done) ∧
      Handled env root ld (next.setStatus path .done) imp := by
  have isFile := ready.marked path (by simp [here])
  have targetIsFile := importTarget_isFile found
  have other : target ≠ path := by
    rintro rfl
    simp [here] at unseen
  have stack' : ∀ p, (ld.setStatus path .loading).status p = some .loading →
      Reach env root p target := by
    intro p loading
    rw [setStatus_status] at loading
    split at loading
    · rename_i same
      rw [same]
      exact ReflTransGen.single edge
    · exact ReflTransGen.tail (stack p loading) edge
  have loaded := loads (by rwa [setStatus_status, if_neg other]) stack'
    (ready_setStatus targetIsFile (ready_setStatus isFile ready))
  refine ⟨visits_load edge targetIsFile here loaded isFile, ?_⟩
  rw [handled_iff_of_found found]
  constructor
  · rw [setStatus_status, if_neg other, loaded.finished]
    rfl
  · intro loading
    simp [unseen] at loading

/-- The walk over the imports of a file. -/
theorem walkImports_visits {load : Ld → String → Option Ld} {path : String} {base : Nat}
    (loads : ∀ ld target ld', load ld target = some ld' → ld.status target = none →
      (∀ p, ld.status p = some .loading → Reach env root p target) →
      Ready env root (ld.setStatus target .loading) → Loaded env root target ld ld')
    {imps : List Node} {seen : List String} {ld ld' : Ld}
    (walked : walkImports env load path base imps seen ld = some ld')
    (ready : Ready env root ld) (here : ld.status path = some .done)
    (stack : ∀ p, ld.status p = some .loading → Reach env root p path)
    (imports : ∀ imp ∈ imps, imp.name ≠ "" → ∀ w, importTarget env root imp.name = some w →
      Edge env root path w)
    (handled : ∀ text ∈ seen, Handled env root ld ld text) :
    Visits env root path ld ld' ∧
      ∀ imp ∈ imps, imp.name ≠ "" → Handled env root ld ld' imp.name := by
  induction imps generalizing seen ld with
  | nil =>
      cases walked
      exact ⟨Visits.refl path _, by simp⟩
  | cons imp imps ih =>
      -- Every branch makes one stretch of the walk and goes on with the other imports.
      have goOn : ∀ {next : Ld} {seen' : List String},
          walkImports env load path base imps seen' next = some ld' →
          Visits env root path ld next →
          (∀ text ∈ seen', Handled env root next next text) →
          (imp.name ≠ "" → Handled env root ld next imp.name) →
          Visits env root path ld ld' ∧
            ∀ imp' ∈ imp :: imps, imp'.name ≠ "" → Handled env root ld ld' imp'.name := by
        intro next seen' walked visits handled first
        have rest := ih walked (visits.ready ready)
          ((visits.keeps path (by simp [here])).trans here)
          (fun p loading => stack p (visits.loading loading))
          (fun imp' inside => imports imp' (List.mem_cons_of_mem _ inside)) handled
        refine ⟨visits.trans rest.1, ?_⟩
        intro imp' inside named
        rcases List.mem_cons.mp inside with rfl | inside
        · exact (first named).later rest.1
        · exact Handled.earlier visits (rest.2 imp' inside named)
      have kept : ∀ {next : Ld}, Visits env root path ld next →
          ∀ text ∈ seen, Handled env root next next text :=
        fun visits text inside => ((handled text inside).later visits).now visits
      -- A branch that resolves the import remembers its text.
      have goOnSeen : ∀ {next : Ld},
          walkImports env load path base imps (imp.name :: seen) next = some ld' →
          Visits env root path ld next → Handled env root ld next imp.name →
          Visits env root path ld ld' ∧
            ∀ imp' ∈ imp :: imps, imp'.name ≠ "" → Handled env root ld ld' imp'.name := by
        intro next walked visits first
        refine goOn walked visits ?_ fun _ => first
        intro text inside
        rcases List.mem_cons.mp inside with rfl | inside
        · exact first.now visits
        · exact kept visits text inside
      rw [walkImports] at walked
      split at walked
      · rename_i unnamed
        exact goOn walked (Visits.refl path ld) handled (fun named => absurd unnamed named)
      · rename_i named
        split at walked
        · rename_i repeated
          have visits : Visits env root path ld
              (ld.ldError (.duplicate path (imp.lo - base) (imp.hi - base) imp.name)) :=
            visits_ldError (by simp)
          exact goOn walked visits (kept visits)
            (fun _ => (handled imp.name repeated).later visits)
        · rw [resolveImport_eq ready] at walked
          split at walked
          · rename_i unresolved
            apply goOnSeen walked (visits_ldError (by simp))
            intro w found
            rw [unresolved] at found
            cases found
          · rename_i target found
            have edge := imports imp (by simp) named target found
            split at walked
            · rename_i loading
              have visits := visits_cycle here stack edge loading (imp.lo - base) (imp.hi - base)
                imp.name
              apply goOnSeen walked visits
              rw [handled_iff_of_found found]
              exact ⟨visits.seen (by simp [loading]), fun _ => reported_cycle ..⟩
            · rename_i done
              apply goOnSeen walked (Visits.refl path ld)
              rw [handled_iff_of_found found]
              simp [done]
            · rename_i unseen
              split at walked
              · cases walked
              · rename_i next loaded
                have both := visits_import ready here stack found edge unseen (loads _ _ _ loaded)
                exact goOnSeen walked both.1 both.2

/-- A path that was loaded without a fault is on no cycle: a way back to it would
come through a file of its own load, or through one finished before. -/
theorem not_onCycle_of_edges {path : String} {ld ld' : Ld} (unseen : ld.status path = none)
    (seen : (ld'.status path).isSome = true) (clean : ¬ Reported ld')
    (edges : ∀ u w, ld.status u = none → (ld'.status u).isSome = true → Edge env root u w →
      (ld'.status w).isSome = true ∧
        (ld.status w = some .loading ∨ w = path ∧ u ≠ path → Reported ld'))
    (before : ∀ p, ld.status p = some .done → ¬ OnCycle env root p) :
    ¬ OnCycle env root path := by
  rintro ⟨q, other, leads, back⟩
  -- Everything the path leads to and that leads back to it belongs to its load.
  have inside : ∀ u, Reach env root path u → Reach env root u path →
      ld.status u = none ∧ (ld'.status u).isSome = true := by
    intro u reach
    induction reach with
    | refl => exact fun _ => ⟨unseen, seen⟩
    | @tail u w reach edge ih =>
        intro home
        have here := ih (ReflTransGen.head edge home)
        have next := edges u w here.1 here.2 edge
        refine ⟨?_, next.1⟩
        cases status : ld.status w with
        | none => rfl
        | some status' =>
            cases status' with
            | loading => exact absurd (next.2 (Or.inl status)) clean
            | done =>
                refine absurd ⟨path, ?_, home, reach.tail edge⟩ (before w status)
                rintro rfl
                simp [unseen] at status
  obtain ⟨u, apart, reach, edge⟩ : ∃ u, u ≠ path ∧ Reach env root path u ∧
      Edge env root u path := by
    clear inside
    induction back using ReflTransGen.head_induction_on with
    | refl => exact absurd rfl other
    | @head u w edge rest ih =>
        by_cases same : w = path
        · subst same
          exact ⟨u, other, leads, edge⟩
        · exact ih same (leads.tail edge)
  have here := inside u reach (ReflTransGen.single edge)
  exact clean ((edges u path here.1 here.2 edge).2 (Or.inr ⟨rfl, apart⟩))

/-- A load from the state its file was entered in and the walk over its imports. -/
theorem loaded_of_visits {path : String} {ld entered ld' : Ld} (unseen : ld.status path = none)
    (status : ∀ p, entered.status p = if p = path then some .done else ld.status p)
    (reported : Reported entered ↔ Reported ld)
    (ready : Ready env root (ld.setStatus path .loading) → Ready env root entered)
    (booked : Booked env ld → Booked env entered)
    (visits : Visits env root path entered ld')
    (own : ∀ w, Edge env root path w → (ld'.status w).isSome = true ∧
      (entered.status w = some .loading → Reported ld')) :
    Loaded env root path ld ld' := by
  have elsewhere : ∀ p, p ≠ path → entered.status p = ld.status p := by
    intro p other
    rw [status, if_neg other]
  have here : entered.status path = some .done := by rw [status, if_pos rfl]
  have onStack : ∀ w, ld.status w = some .loading → entered.status w = some .loading := by
    intro w loading
    rw [elsewhere w, loading]
    rintro rfl
    simp [unseen] at loading
  have edges : ∀ u w, ld.status u = none → (ld'.status u).isSome = true → Edge env root u w →
      (ld'.status w).isSome = true ∧
        (ld.status w = some .loading ∨ w = path ∧ u ≠ path → Reported ld') := by
    intro u w before seen edge
    by_cases same : u = path
    · subst same
      have next := own w edge
      refine ⟨next.1, fun closes => next.2 (onStack w ?_)⟩
      rcases closes with loading | ⟨-, other⟩
      · exact loading
      · exact absurd rfl other
    · have next := visits.edges u w (by rwa [elsewhere u same]) seen edge
      refine ⟨next.1, fun closes => next.2 ?_⟩
      rcases closes with loading | ⟨isPath, -⟩
      · exact Or.inl (onStack w loading)
      · exact Or.inr isPath
  constructor
  · intro p seen
    have other : p ≠ path := by
      rintro rfl
      simp [unseen] at seen
    rw [visits.keeps p (by rwa [elsewhere p other]), elsewhere p other]
  · rw [visits.keeps path (by simp [here]), here]
  · intro p before seen
    by_cases same : p = path
    · subst same
      rw [visits.keeps p (by simp [here])]
      exact ⟨here, ReflTransGen.refl⟩
    · exact visits.fresh p (by rwa [elsewhere p same]) seen
  · exact edges
  · exact fun before => visits.grows (reported.mpr before)
  · intro after
    rcases visits.sound after with before | found
    · exact Or.inl (reported.mp before)
    · exact Or.inr found
  · intro clean before p done
    by_cases same : p = path
    · subst same
      exact not_onCycle_of_edges unseen (by simp [done]) clean edges before
    · refine visits.acyclic clean (fun q notPath marked => ?_) p same done
      rw [elsewhere q notPath] at marked
      exact before q marked
  · exact fun marked => visits.ready (ready marked)
  · exact fun before => visits.booked (booked before)

theorem pkgOf_fields (ld : Ld) (dir : String) :
    (ld.pkgOf dir).2.errors = ld.errors ∧ (ld.pkgOf dir).2.rootdir = ld.rootdir := by
  unfold Ld.pkgOf
  split <;> exact ⟨rfl, rfl⟩

theorem reported_enterFile (ld : Ld) (path : String) (src : Source) (parsed : Parsed) :
    Reported (ld.enterFile path src parsed) ↔ Reported ld := by
  have errors : (ld.enterFile path src parsed).errors = ld.errors ++
      (parsed.lexErrors.map (LoadError.source path) ++
        parsed.parseErrors.map (LoadError.source path)) := by
    simp only [Ld.enterFile, pkgOf_fields]
    simp
  simp [Reported, errors]

theorem enterFile_status (ld : Ld) (path p : String) (src : Source) (parsed : Parsed) :
    (ld.enterFile path src parsed).status p =
      if p = path then some .done else ld.status p := by
  simp [Ld.enterFile, Function.update_apply]

theorem ready_enterFile {ld : Ld} {path : String} {src : Source} {parsed : Parsed}
    (ready : Ready env root (ld.setStatus path .loading)) :
    Ready env root ((ld.setStatus path .loading).enterFile path src parsed) := by
  have rootdir : ((ld.setStatus path .loading).enterFile path src parsed).rootdir =
      (ld.setStatus path .loading).rootdir := by
    simp only [Ld.enterFile, pkgOf_fields]
    simp
  have seen : ∀ p, (((ld.setStatus path .loading).enterFile path src parsed).status p).isSome =
      ((ld.setStatus path .loading).status p).isSome := by
    intro p
    rw [enterFile_status, setStatus_status]
    split <;> simp_all
  exact ⟨rootdir.trans ready.rootdir, (seen root).trans ready.rootSeen,
    fun p marked => ready.marked p ((seen p).symm.trans marked)⟩

theorem booked_enterFile {ld : Ld} {path : String} {src : Source} {parsed : Parsed}
    (unseen : ld.status path = none) (readable : env.sourceLoad path = some src)
    (booked : Booked env ld) :
    Booked env ((ld.setStatus path .loading).enterFile path src parsed) := by
  have paths : ((ld.setStatus path .loading).enterFile path src parsed).parsedPaths =
      ld.parsedPaths ++ [path] := by
    simp [Ld.parsedPaths, Ld.enterFile, Ld.setStatus]
  have absent : path ∉ ld.parsedPaths := by
    intro inside
    have marked := ((booked.iff path).mp inside).1
    simp [unseen] at marked
  constructor
  · rw [paths, List.nodup_append]
    refine ⟨booked.nodup, by simp, ?_⟩
    intro p inside q last same
    rw [List.mem_singleton] at last
    exact absent (last ▸ same ▸ inside)
  · intro p
    rw [paths, enterFile_status, List.mem_append, List.mem_singleton, setStatus_status]
    by_cases same : p = path
    · subst same
      simp [readable]
    · simp [same, booked.iff p]

theorem entered_imports (ld : Ld) (path : String) (src : Source) (parsed : Parsed) :
    ((ld.enterFile path src parsed).ast.arenas .imports).drop (ld.ast.arenas .imports).length =
      (parsed.nodes .imports).map (Node.shift ld.base) := by
  change ((shiftSpans (ld.ast.append parsed) (takeMarks ld.ast) ld.base).arenas .imports).drop _ = _
  rw [shiftSpans_append, List.drop_left]
  rfl

/-- The load of a path that cannot be read. -/
theorem loaded_unreadable {ld : Ld} {path : String} (unseen : ld.status path = none)
    (unreadable : env.sourceLoad path = none)
    (ready : Ready env root (ld.setStatus path .loading)) :
    Loaded env root path ld
      (((ld.setStatus path .loading).ldError (.unreadable path)).setStatus path .done) := by
  have isFile := ready.marked path (by simp [setStatus_status])
  refine loaded_of_visits unseen (fun p => ?_) ?_ (fun _ => ?_) ?_ (Visits.refl path _) ?_
  · rw [setStatus_status]
    split
    · rfl
    · rename_i other
      exact (setStatus_status ld path p .loading).trans (if_neg other)
  · simp [Reported, Ld.setStatus, Ld.ldError]
  · exact ready_setStatus isFile ⟨ready.rootdir, ready.rootSeen, ready.marked⟩
  · intro booked
    have marked : Booked env (ld.setStatus path .loading) :=
      booked_setStatus (Or.inr unreadable) booked
    exact booked_setStatus (Or.inr unreadable) ⟨marked.nodup, marked.iff⟩
  · intro w edge
    obtain ⟨src, readable, -⟩ := edge
    rw [unreadable] at readable
    cases readable

/-- The load of a path from the walk over the imports of its file. -/
theorem loaded_readable {ld ld' : Ld} {path : String} {src : Source}
    (unseen : ld.status path = none) (readable : env.sourceLoad path = some src)
    (visits : Visits env root path
      ((ld.setStatus path .loading).enterFile path src (env.frontend.parse src)) ld')
    (own : ∀ w, Edge env root path w → (ld'.status w).isSome = true ∧
      (((ld.setStatus path .loading).enterFile path src (env.frontend.parse src)).status w =
        some .loading → Reported ld')) :
    Loaded env root path ld ld' := by
  have status : ∀ p, ((ld.setStatus path .loading).enterFile path src
      (env.frontend.parse src)).status p = if p = path then some .done else ld.status p := by
    intro p
    rw [enterFile_status, setStatus_status]
    split <;> rfl
  have reported : Reported ((ld.setStatus path .loading).enterFile path src
      (env.frontend.parse src)) ↔ Reported ld :=
    (reported_enterFile _ _ _ _).trans Iff.rfl
  exact loaded_of_visits unseen status reported (fun ready => ready_enterFile ready)
    (fun booked => booked_enterFile unseen readable booked) visits own

/-- The load of a path that was not seen. -/
theorem loadFile_loaded {fuel : Nat} {ld ld' : Ld} {path : String}
    (loaded : loadFile env fuel ld path = some ld') (unseen : ld.status path = none)
    (stack : ∀ p, ld.status p = some .loading → Reach env root p path)
    (ready : Ready env root (ld.setStatus path .loading)) : Loaded env root path ld ld' := by
  induction fuel generalizing ld ld' path with
  | zero => cases loaded
  | succ fuel ih =>
      simp only [loadFile] at loaded
      split at loaded
      · rename_i unreadable
        cases loaded
        exact loaded_unreadable unseen unreadable ready
      · rename_i src readable
        split at loaded
        · rename_i faulted
          cases loaded
          refine loaded_readable unseen readable (Visits.refl path _) ?_
          intro w edge
          obtain ⟨src', readable', lexed, parsed, -⟩ := edge
          rw [readable] at readable'
          cases readable'
          simp [lexed, parsed] at faulted
        · rename_i clean
          simp only [not_or, not_not] at clean
          rw [entered_imports] at loaded
          have walked := walkImports_visits
            (fun _ _ _ loaded unseen stack ready => ih loaded unseen stack ready) loaded
            (ready_enterFile ready) (by simp [enterFile_status])
            (by
              intro p loading
              rw [enterFile_status, setStatus_status] at loading
              split at loading
              · cases loading
              · exact stack p loading)
            (by
              intro imp inside named w found
              obtain ⟨source, member, rfl⟩ := List.mem_map.mp inside
              exact ⟨src, readable, clean.1, clean.2, source, member, named, found⟩)
            (by simp)
          refine loaded_readable unseen readable walked.1 ?_
          intro w edge
          obtain ⟨src', readable', -, -, imp, member, named, found⟩ := edge
          rw [readable] at readable'
          cases readable'
          exact walked.2 _ (List.mem_map_of_mem member) named w found

/-! ### Termination -/

/-- The paths of a list that were not seen. -/
def unseenCount (files : List String) (ld : Ld) : Nat :=
  files.countP fun p => (ld.status p).isNone

theorem unseenCount_le {files : List String} {ld ld' : Ld}
    (keeps : ∀ p, (ld.status p).isSome = true → (ld'.status p).isSome = true) :
    unseenCount files ld' ≤ unseenCount files ld := by
  apply List.countP_mono_left
  intro p _ unseen
  cases before : ld.status p with
  | none => rfl
  | some status =>
      have seen := keeps p (by simp [before])
      rw [Option.isSome_iff_ne_none] at seen
      simp at unseen
      exact absurd unseen seen

theorem unseenCount_lt {files : List String} {ld ld' : Ld} {path : String} (inside : path ∈ files)
    (unseen : ld.status path = none) (seen : (ld'.status path).isSome = true)
    (keeps : ∀ p, (ld.status p).isSome = true → (ld'.status p).isSome = true) :
    unseenCount files ld' < unseenCount files ld := by
  induction files with
  | nil => cases inside
  | cons p files ih =>
      have rest : unseenCount files ld' ≤ unseenCount files ld := unseenCount_le keeps
      simp only [unseenCount, List.countP_cons] at rest ih ⊢
      rcases List.mem_cons.mp inside with rfl | inside
      · have notUnseen : (ld'.status path).isNone = false := by
          simpa [Option.isSome_iff_ne_none] using seen
        simp [unseen, notUnseen]
        omega
      · have later := ih inside
        have head : (ld'.status p).isNone = true → (ld.status p).isNone = true := by
          intro unseen'
          cases before : ld.status p with
          | none => rfl
          | some status =>
              have seen' := keeps p (by simp [before])
              simp_all
        by_cases here : (ld'.status p).isNone = true
        · simp [here, head here]
          omega
        · simp only [here, Bool.false_eq_true, ↓reduceIte]
          omega

/-- A load only ever adds to the paths seen. -/
theorem loadFile_seen {fuel : Nat} {ld ld' : Ld} {path p : String}
    (loaded : loadFile env fuel ld path = some ld') (seen : (ld.status p).isSome = true) :
    (ld'.status p).isSome = true := by
  refine loadFile_preserves (P := fun ld => (ld.status p).isSome = true)
    (fun ld path status seen => ?_) (fun _ _ seen => seen) (fun ld path src _ seen => ?_) loaded seen
  · rw [setStatus_status]
    split
    · rfl
    · exact seen
  · rw [enterFile_status]
    split
    · rfl
    · exact seen

theorem loadFile_ready {fuel : Nat} {ld ld' : Ld} {path : String}
    (loaded : loadFile env fuel ld path = some ld')
    (ready : Ready env root (ld.setStatus path .loading)) : Ready env root ld' := by
  induction fuel generalizing ld ld' path with
  | zero => cases loaded
  | succ fuel ih =>
      have isFile := ready.marked path (by simp [setStatus_status])
      simp only [loadFile] at loaded
      split at loaded
      · cases loaded
        exact ready_setStatus isFile ⟨ready.rootdir, ready.rootSeen, ready.marked⟩
      · rename_i src readable
        have entered : Ready env root ((ld.setStatus path .loading).enterFile path src
            (env.frontend.parse src)) := ready_enterFile ready
        split at loaded
        · cases loaded
          exact entered
        · refine walkImports_preserves (fun _ _ ready => ready_setStatus isFile ready)
            (fun _ _ ready => ⟨ready.rootdir, ready.rootSeen, ready.marked⟩) ?_ loaded entered
          intro ld target ld' loaded candidate ready
          apply ih loaded
          refine ready_setStatus ?_ ready
          rcases Bool.or_eq_true_iff.mp candidate with seen | isFile
          · exact ready.marked target seen
          · exact Or.inr isFile

theorem walkImports_total {load : Ld → String → Option Ld} {files : List String} {fuel : Nat}
    (loads : ∀ ld target, ld.status target = none → target ∈ files →
      unseenCount files ld ≤ fuel → Ready env root (ld.setStatus target .loading) →
      ∃ ld', load ld target = some ld' ∧ Ready env root ld' ∧
        ∀ p, (ld.status p).isSome = true → (ld'.status p).isSome = true)
    {path : String} {base : Nat} {imps : List Node} {seen : List String} {ld : Ld}
    (imports : ∀ imp ∈ imps, imp.name ≠ "" → ∀ w, importTarget env root imp.name = some w →
      w ∈ files)
    (enough : unseenCount files ld ≤ fuel) (here : (ld.status path).isSome = true)
    (ready : Ready env root ld) :
    ∃ ld', walkImports env load path base imps seen ld = some ld' := by
  induction imps generalizing seen ld with
  | nil => exact ⟨ld, rfl⟩
  | cons imp imps ih =>
      have later : ∀ imp' ∈ imps, imp'.name ≠ "" → ∀ w,
          importTarget env root imp'.name = some w → w ∈ files :=
        fun imp' inside => imports imp' (List.mem_cons_of_mem _ inside)
      have faulted : ∀ error, Ready env root (ld.ldError error) :=
        fun error => ⟨ready.rootdir, ready.rootSeen, ready.marked⟩
      rw [walkImports]
      split
      · exact ih later enough here ready
      · rename_i named
        split
        · exact ih later enough here (faulted _)
        · rw [resolveImport_eq ready]
          split
          · exact ih later enough here (faulted _)
          · rename_i target found
            split
            · exact ih later enough here (faulted _)
            · exact ih later enough here ready
            · rename_i unseen
              have inside := imports imp (by simp) named target found
              have isFile := ready.marked path here
              have other : target ≠ path := by
                rintro rfl
                simp [unseen] at here
              have marks : ∀ p, (ld.status p).isSome = true →
                  ((ld.setStatus path .loading).status p).isSome = true := by
                intro p seen
                rw [setStatus_status]
                split
                · rfl
                · exact seen
              obtain ⟨next, loaded, ready', keeps⟩ := loads (ld.setStatus path .loading) target
                (by rwa [setStatus_status, if_neg other]) inside
                (Nat.le_trans (unseenCount_le marks) enough)
                (ready_setStatus (importTarget_isFile found) (ready_setStatus isFile ready))
              rw [loaded]
              have remarks : ∀ p, (ld.status p).isSome = true →
                  ((next.setStatus path .done).status p).isSome = true := by
                intro p seen
                rw [setStatus_status]
                split
                · rfl
                · exact keeps p (marks p seen)
              exact ih later (Nat.le_trans (unseenCount_le remarks) enough) (remarks path here)
                (ready_setStatus isFile ready')

/-- A load ends once its fuel counts the files that were not seen. -/
theorem loadFile_total {files : List String}
    (closed : ∀ p ∈ files, ∀ q, Edge env root p q → q ∈ files)
    {fuel : Nat} {ld : Ld} {path : String} (unseen : ld.status path = none)
    (inside : path ∈ files) (enough : unseenCount files ld ≤ fuel)
    (ready : Ready env root (ld.setStatus path .loading)) :
    ∃ ld', loadFile env fuel ld path = some ld' := by
  induction fuel generalizing ld path with
  | zero =>
      have some_left : unseenCount files ld ≠ 0 := by
        simp only [unseenCount, ne_eq, List.countP_eq_zero, not_forall]
        exact ⟨path, inside, by simp [unseen]⟩
      omega
  | succ fuel ih =>
      simp only [loadFile]
      split
      · exact ⟨_, rfl⟩
      · rename_i src readable
        split
        · exact ⟨_, rfl⟩
        · rename_i clean
          simp only [not_or, not_not] at clean
          have marks : ∀ p, (ld.status p).isSome = true → (((ld.setStatus path .loading).enterFile
              path src (env.frontend.parse src)).status p).isSome = true := by
            intro p seen
            rw [enterFile_status, setStatus_status]
            split
            · rfl
            · exact seen
          have fewer := unseenCount_lt inside unseen
            (show (((ld.setStatus path .loading).enterFile path src
              (env.frontend.parse src)).status path).isSome = true by simp [enterFile_status]) marks
          have rest := Nat.le_of_lt_succ (Nat.lt_of_lt_of_le fewer enough)
          rw [entered_imports]
          refine walkImports_total ?_ ?_ rest (by simp [enterFile_status]) (ready_enterFile ready)
          · intro ld target unseen inside enough ready
            obtain ⟨ld', loaded⟩ := ih unseen inside enough ready
            exact ⟨ld', loaded, loadFile_ready loaded ready, fun p seen => loadFile_seen loaded seen⟩
          · intro imp member named w found
            obtain ⟨source, declared, rfl⟩ := List.mem_map.mp member
            exact closed path inside w
              ⟨src, readable, clean.1, clean.2, source, declared, named, found⟩

theorem walkImports_mono {load load' : Ld → String → Option Ld}
    (loads : ∀ ld target ld', load ld target = some ld' → load' ld target = some ld')
    {path : String} {base : Nat} {imps : List Node} {seen : List String} {ld ld' : Ld}
    (walked : walkImports env load path base imps seen ld = some ld') :
    walkImports env load' path base imps seen ld = some ld' := by
  induction imps generalizing seen ld with
  | nil => exact walked
  | cons imp imps ih =>
      rw [walkImports] at walked ⊢
      split at walked
      · rename_i unnamed
        rw [if_pos unnamed]
        exact ih walked
      · rename_i named
        rw [if_neg named]
        split at walked
        · rename_i repeated
          rw [if_pos repeated]
          exact ih walked
        · rename_i first
          rw [if_neg first]
          split at walked
          · exact ih walked
          · split at walked
            · exact ih walked
            · exact ih walked
            · split at walked
              · cases walked
              · rename_i loaded
                simp only [loads _ _ _ loaded]
                exact ih walked

/-- More fuel does not change what was loaded. -/
theorem loadFile_mono {fuel more : Nat} (le : fuel ≤ more) {ld ld' : Ld} {path : String}
    (loaded : loadFile env fuel ld path = some ld') : loadFile env more ld path = some ld' := by
  induction fuel generalizing more ld ld' path with
  | zero => cases loaded
  | succ fuel ih =>
      obtain ⟨more, rfl⟩ : ∃ n, more = n + 1 := ⟨more - 1, by omega⟩
      simp only [loadFile] at loaded ⊢
      split at loaded
      · exact loaded
      · split at loaded
        · rename_i faulted
          rw [if_pos faulted]
          exact loaded
        · rename_i clean
          rw [if_neg clean]
          exact walkImports_mono (fun _ _ _ loaded => ih (by omega) loaded) loaded

end Geas.Compiler
