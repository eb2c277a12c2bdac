import Geas.Compiler.Imports

/-!
# Loading a program

The results about a whole load.  From the root file the walk parses every file the
imports lead to, once each, and tags every declaration with the package of its
file's directory.  A file that imports itself is not reported: its own status is
done while its imports are walked, and only a longer cycle meets a path that is
still loading.  The spans of the merged tree lead back to the files they were parsed
from, up to the schemas, whose arena the shift does not walk.
-/

namespace Geas.Compiler

open Relation

variable {env : LoadEnv} {root : String}

theorem ready_startLd (env : LoadEnv) (root : String) :
    Ready env root ((startLd root).setStatus root .loading) where
  rootdir := rfl
  rootSeen := by simp [setStatus_status]
  marked p seen := by
    rw [setStatus_status] at seen
    split at seen
    · rename_i same
      exact Or.inl same
    · cases seen

/-- The load of the root. -/
theorem loaded_root {fuel : Nat} {ld : Ld}
    (loads : loadFile env fuel (startLd root) root = some ld) :
    Loaded env root root (startLd root) ld :=
  loadFile_loaded loads rfl (fun _ loading => by cases loading) (ready_startLd env root)

/-- The walk marks the files the root leads to and no others. -/
theorem Loaded.seen_iff {ld : Ld} (loaded : Loaded env root root (startLd root) ld) (p : String) :
    (ld.status p).isSome = true ↔ Reach env root root p := by
  constructor
  · intro seen
    exact (loaded.fresh p rfl seen).2
  · intro reach
    induction reach with
    | refl => simp [loaded.finished]
    | tail _ edge ih => exact (loaded.edges _ _ rfl ih edge).1

theorem Loaded.booked_root {ld : Ld} (loaded : Loaded env root root (startLd root) ld) :
    Booked env ld :=
  loaded.booked ⟨List.nodup_nil, by simp [startLd, Ld.parsedPaths]⟩

/-- The parsed files are those the root leads to and that can be read. -/
theorem Loaded.parsedPaths_iff {ld : Ld} (loaded : Loaded env root root (startLd root) ld)
    (p : String) :
    p ∈ ld.parsedPaths ↔ Reach env root root p ∧ (env.sourceLoad p).isSome = true := by
  rw [← loaded.seen_iff p]
  exact loaded.booked_root.iff p

/-- A cycle is reported exactly when one leads through two files. -/
theorem Loaded.reported_iff {ld : Ld} (loaded : Loaded env root root (startLd root) ld) :
    Reported ld ↔ ∃ p, Reach env root root p ∧ OnCycle env root p := by
  constructor
  · intro reported
    rcases loaded.sound reported with ⟨_, _, _, _, inside⟩ | ⟨u, w, apart, reach, back, edge⟩
    · cases inside
    · exact ⟨u, reach, w, apart.symm, ReflTransGen.single edge, back⟩
  · rintro ⟨p, reach, cycle⟩
    by_contra clean
    have done := (loaded.fresh p rfl ((loaded.seen_iff p).mpr reach)).1
    exact loaded.acyclic clean (fun _ marked => by cases marked) p done cycle

/-- A cycle leads through two files or is a file's import of itself. -/
theorem cycle_cases {p : String} :
    TransGen (Edge env root) p p ↔ OnCycle env root p ∨ Edge env root p p := by
  constructor
  · intro cycle
    obtain ⟨q, edge, back⟩ := TransGen.head'_iff.mp cycle
    by_cases same : q = p
    · subst same
      exact Or.inr edge
    · exact Or.inl ⟨q, same, ReflTransGen.single edge, back⟩
  · rintro (⟨q, apart, there, back⟩ | edge)
    · rcases reflTransGen_iff_eq_or_transGen.mp there with same | there
      · exact absurd same apart
      · exact there.trans_left back
    · exact TransGen.single edge

/-- A load of a finite import graph ends, and more fuel changes nothing. -/
theorem loadFile_root_total {files : List String}
    (finite : ∀ p, Reach env root root p → p ∈ files) :
    ∃ ld, ∀ fuel, files.length ≤ fuel → loadFile env fuel (startLd root) root = some ld := by
  classical
  have all : ∀ p ∈ files.filter (Reach env root root ·), ∀ q, Edge env root p q →
      q ∈ files.filter (Reach env root root ·) := by
    intro p inside q edge
    have reach : Reach env root root p := by simpa using (List.mem_filter.mp inside).2
    have next := reach.tail edge
    exact List.mem_filter.mpr ⟨finite q next, by simpa using next⟩
  have enough : unseenCount (files.filter (Reach env root root ·)) (startLd root) ≤ files.length :=
    Nat.le_trans List.countP_le_length (List.length_filter_le _ _)
  have unseen : (startLd root).status root = none := rfl
  obtain ⟨ld, loaded⟩ := loadFile_total all unseen
    (List.mem_filter.mpr ⟨finite root ReflTransGen.refl, by simpa using ReflTransGen.refl⟩) enough
    (ready_startLd env root)
  exact ⟨ld, fun fuel le => loadFile_mono le loaded⟩

/-! ### Declarations -/

/-- Every declaration of the program carries the package of its file, and two files
share a package exactly when they share a directory.  The builtin record comes last. -/
structure Tagged (env : LoadEnv) (ld : Ld) : Prop where
  length : ld.declPkg.length = ld.ast.decls.length
  tags : ∃ builtin, ld.ast.decls.zip ld.declPkg =
    (ld.files.flatMap fun f => (env.frontend.parse f.src).decls.map fun decl => (decl, f.pkg)) ++
      [(builtin, 0)]
  packages : ∀ f ∈ ld.files, ∀ g ∈ ld.files, f.pkg = g.pkg ↔ dirOf f.path = dirOf g.path

theorem zip_flatMap_replicate {α β γ : Type} (files : List α) (items : α → List β) (tag : α → γ) :
    (files.flatMap items).zip (files.flatMap fun f => List.replicate (items f).length (tag f)) =
      files.flatMap fun f => (items f).map fun item => (item, tag f) := by
  induction files with
  | nil => rfl
  | cons f files ih =>
      simp only [List.flatMap_cons]
      rw [List.zip_append (by simp), ih]
      congr 1
      induction items f with
      | nil => rfl
      | cons item rest ih => simp [List.replicate_succ, ih]

theorem tagged_injectBuiltins {ld : Ld} (merged : Merged env ld) :
    Tagged env (injectBuiltins ld) := by
  have same : ld.declPkg.length = ld.ast.decls.length := by
    simp [merged.declPkg, merged.decls, List.length_flatMap]
  constructor
  · simp [injectBuiltins, same]
  · refine ⟨⟨0, (ld.ast.arenas .records).length⟩, ?_⟩
    simp only [injectBuiltins]
    rw [List.zip_append same.symm, merged.decls, merged.declPkg, zip_flatMap_replicate]
    rfl
  · intro f inside g inside'
    have first := merged.packages f inside
    have second := merged.packages g inside'
    constructor
    · intro same
      rw [← same] at second
      exact merged.distinct _ _ _ first second
    · intro same
      rw [same, second] at first
      exact (Option.some.inj first).symm

/-- The load of a program with finitely many reachable files ends.  It parses each of
them that can be read exactly once and tags every declaration with its file's
directory; its cycle reports tell whether the imports have a cycle exactly when a file
importing itself is not the only kind of cycle there is. -/
theorem loadProgram_reports_iff (env : LoadEnv) (root : String) (files : List String)
    (finite : ∀ p, Reach env root root p → p ∈ files) :
    ∃ ld, (∀ fuel, files.length ≤ fuel → loadProgram env fuel root = some ld) ∧
      ld.parsedPaths.Nodup ∧
      (∀ p, p ∈ ld.parsedPaths ↔
        Reach env root root p ∧ (env.sourceLoad p).isSome = true) ∧
      Tagged env ld ∧
      ((Reported ld ↔ ∃ p, Reach env root root p ∧ TransGen (Edge env root) p p) ↔
        ((∃ p, Reach env root root p ∧ Edge env root p p) →
          ∃ p, Reach env root root p ∧ OnCycle env root p)) := by
  obtain ⟨ld, loads⟩ := loadFile_root_total finite
  have loaded := loaded_root (loads files.length (Nat.le_refl _))
  have merged := merged_loadFile (loads files.length (Nat.le_refl _)) (merged_startLd env root)
  refine ⟨injectBuiltins ld, ?_, loaded.booked_root.nodup, loaded.parsedPaths_iff,
    tagged_injectBuiltins merged, ?_⟩
  · intro fuel le
    rw [loadProgram, loads fuel le]
    rfl
  · have reported : Reported (injectBuiltins ld) ↔
        ∃ p, Reach env root root p ∧ OnCycle env root p := loaded.reported_iff
    simp only [reported, cycle_cases, and_or_left, exists_or]
    exact iff_comm.trans or_iff_left_iff_imp

/-- A frontend for files of one word: a schema, or the import that it names. -/
def oneWord : Frontend where
  parse src :=
    { lexErrors := []
      parseErrors := []
      nodes := fun arena =>
        if arena = (if src.text = "schema" then .schemas else .imports) then
          [⟨src.text, 0, src.len, []⟩]
        else []
      decls := [] }
  inside source arena node member := by
    dsimp only at member
    generalize (if source.text = "schema" then Arena.schemas else .imports) = form at member
    split at member
    · rw [List.mem_singleton] at member
      subst member
      exact Nat.zero_le _
    · cases member

/-- The files of a list, each a path and its one word. -/
def listed (files : List (String × String)) : LoadEnv where
  frontend := oneWord
  sourceLoad path := (files.lookup path).map fun text => ⟨text, text.length⟩
  sourceIsFile path := (files.lookup path).isSome
  homes := []

theorem listed_finite (files : List (String × String)) (root p : String)
    (reach : Reach (listed files) root root p) : p ∈ root :: files.map Prod.fst := by
  induction reach with
  | refl => exact List.mem_cons_self
  | tail _ edge _ =>
      obtain ⟨src, -, -, -, imp, -, -, found⟩ := edge
      rcases importTarget_isFile found with rfl | isFile
      · exact List.mem_cons_self
      · apply List.mem_cons_of_mem
        change (files.lookup _).isSome = true at isFile
        obtain ⟨text, known⟩ := Option.isSome_iff_exists.mp isFile
        obtain ⟨before, after, split, -⟩ := List.lookup_eq_some_iff.mp known
        simp [split]

/-- A root file that imports itself. -/
def selfImport : LoadEnv :=
  listed [("r/main.geas", "main")]

theorem selfImport_edge : Edge selfImport "r/main.geas" "r/main.geas" "r/main.geas" :=
  ⟨⟨"main", 4⟩, by decide +kernel, rfl, rfl, ⟨"main", 0, 4, []⟩, by decide +kernel,
    by decide +kernel, by decide +kernel⟩

/-- The import of a file by itself goes unreported. -/
theorem selfImport_unreported : ∃ ld,
    (∀ fuel, 2 ≤ fuel → loadProgram selfImport fuel "r/main.geas" = some ld) ∧
      ¬ (Reported ld ↔ ∃ p, Reach selfImport "r/main.geas" "r/main.geas" p ∧
        TransGen (Edge selfImport "r/main.geas") p p) := by
  obtain ⟨ld, loads⟩ := loadFile_root_total
    (listed_finite [("r/main.geas", "main")] "r/main.geas")
  refine ⟨injectBuiltins ld, ?_, ?_⟩
  · intro fuel le
    rw [loadProgram, selfImport, loads fuel le]
    rfl
  · intro reports
    have reported : Reported ld := reports.mpr
      ⟨"r/main.geas", ReflTransGen.refl, TransGen.single selfImport_edge⟩
    -- The root is the only file, so no cycle leads through two of them.
    obtain ⟨p, reach, q, apart, there, -⟩ := (loaded_root (loads 2 (Nat.le_refl _))).reported_iff.mp
      reported
    have isRoot := listed_finite _ _ p reach
    have isRoot' := listed_finite _ _ q (reach.trans there)
    simp only [List.map_cons, List.map_nil, List.mem_cons, List.not_mem_nil, or_false,
      or_self] at isRoot isRoot'
    exact apart (isRoot'.trans isRoot.symm)

/-- Two files that import each other. -/
def mutualImport : LoadEnv :=
  listed [("r/main.geas", "part"), ("r/part.geas", "main")]

theorem mutualImport_onCycle : OnCycle mutualImport "r/main.geas" "r/main.geas" := by
  refine ⟨"r/part.geas", by decide, ReflTransGen.single ?_, ReflTransGen.single ?_⟩
  · exact ⟨⟨"part", 4⟩, by decide +kernel, rfl, rfl, ⟨"part", 0, 4, []⟩, by decide +kernel,
      by decide +kernel, by decide +kernel⟩
  · exact ⟨⟨"main", 4⟩, by decide +kernel, rfl, rfl, ⟨"main", 0, 4, []⟩, by decide +kernel,
      by decide +kernel, by decide +kernel⟩

theorem loadProgram_reports_mutualImport : ∃ ld,
    (∀ fuel, 3 ≤ fuel → loadProgram mutualImport fuel "r/main.geas" = some ld) ∧
      (Reported ld ↔ ∃ p, Reach mutualImport "r/main.geas" "r/main.geas" p ∧
        TransGen (Edge mutualImport "r/main.geas") p p) := by
  obtain ⟨ld, loads, -, -, -, reports⟩ := loadProgram_reports_iff mutualImport "r/main.geas"
    ["r/main.geas", "r/main.geas", "r/part.geas"] (listed_finite _ _)
  exact ⟨ld, loads, reports.mpr fun _ => ⟨_, ReflTransGen.refl, mutualImport_onCycle⟩⟩

/-! ### Spans -/

/-- The nodes of no file. -/
def builtinNodes (arena : Arena) : List Node :=
  if arena = .records then [builtinRecord] else []

theorem injectBuiltins_arenas (ld : Ld) (arena : Arena) :
    (injectBuiltins ld).ast.arenas arena = ld.ast.arenas arena ++ builtinNodes arena := by
  by_cases records : arena = .records
  · subst records
    simp [injectBuiltins, builtinNodes]
  · simp [injectBuiltins, builtinNodes, records]

/-- Every node of the program is reported in the file that declared it, at the offsets
its parse recorded, the builtin record aside. -/
def ReadsBack (env : LoadEnv) (ld : Ld) : Prop :=
  ∀ arena, (ld.ast.arenas arena).map (fun node => ldEmit ld.files node.lo node.hi) =
    (ld.files.flatMap fun f => ((env.frontend.parse f.src).nodes arena).map fun node =>
      some (f.path, node.lo, node.hi)) ++
    (builtinNodes arena).map fun node => ldEmit ld.files node.lo node.hi

theorem readsBack_injectBuiltins (ld : Ld) :
    ReadsBack env (injectBuiltins ld) ↔ SpansInvert env ld := by
  apply forall_congr'
  intro arena
  rw [injectBuiltins_arenas, List.map_append]
  exact List.append_left_inj _

/-- The first file of a load is at a path. -/
def StartsAt (path : String) (ld : Ld) : Prop :=
  ∃ f rest, ld.files = f :: rest ∧ f.path = path

theorem startsAt_enterFile {ld : Ld} {first path : String} {src : Source} {parsed : Parsed}
    (starts : StartsAt first ld) : StartsAt first (ld.enterFile path src parsed) := by
  obtain ⟨f, rest, files, isFirst⟩ := starts
  unfold StartsAt
  simp only [Ld.enterFile, files, List.cons_append]
  exact ⟨f, _, rfl, isFirst⟩

/-- The first file of a program is its root. -/
theorem startsAt_root {fuel : Nat} {ld : Ld} {src : Source}
    (loads : loadFile env fuel (startLd root) root = some ld)
    (readable : env.sourceLoad root = some src) : StartsAt root ld := by
  cases fuel with
  | zero => cases loads
  | succ fuel =>
      have entered : StartsAt root (((startLd root).setStatus root .loading).enterFile root src
          (env.frontend.parse src)) := ⟨_, [], rfl, rfl⟩
      simp only [loadFile, readable] at loads
      split at loads
      · cases loads
        exact entered
      · refine walkImports_preserves (P := StartsAt root) (fun _ _ starts => starts)
          (fun _ _ starts => starts) ?_ loads entered
        intro _ _ _ loaded _ starts
        exact loadFile_preserves (fun _ _ _ starts => starts) (fun _ _ starts => starts)
          (fun _ _ _ _ starts => startsAt_enterFile starts) loaded starts

/-- The files behind the first are the reachable ones other than the root. -/
theorem forall_tail_iff {fuel : Nat} {ld : Ld}
    (loads : loadFile env fuel (startLd root) root = some ld) {P : Source → Prop} :
    (∀ f ∈ ld.files.tail, P f.src) ↔
      ∀ p, Reach env root root p → p ≠ root → ∀ src, env.sourceLoad p = some src → P src := by
  have loaded := loaded_root loads
  have merged := merged_loadFile loads (merged_startLd env root)
  have parsed := loaded.parsedPaths_iff
  constructor
  · intro holds p reach other src readable
    obtain ⟨f, inside, isPath⟩ := List.mem_map.mp ((parsed p).mpr ⟨reach, by simp [readable]⟩)
    have source := merged.sources f inside
    rw [isPath, readable] at source
    cases source
    -- A file other than the root was reached, so the root could be read.
    obtain ⟨rootSrc, rootReadable⟩ : ∃ src, env.sourceLoad root = some src := by
      rcases ReflTransGen.cases_head reach with same | ⟨_, ⟨src, readable, -⟩, -⟩
      · exact absurd same.symm other
      · exact ⟨src, readable⟩
    obtain ⟨first, rest, files, isRoot⟩ := startsAt_root loads rootReadable
    rw [files] at inside holds
    rcases List.mem_cons.mp inside with rfl | inside
    · exact absurd (isPath.symm.trans isRoot) other
    · exact holds f inside
  · intro holds f inside
    have member := List.mem_of_mem_tail inside
    have reach := ((parsed f.path).mp (List.mem_map_of_mem member)).1
    refine holds f.path reach ?_ f.src (merged.sources f member)
    intro isRoot
    have readable := merged.sources f member
    rw [isRoot] at readable
    obtain ⟨first, rest, files, isFirst⟩ := startsAt_root loads readable
    have nodup : (ld.files.map LdFile.path).Nodup := loaded.booked_root.nodup
    rw [files] at inside nodup
    rw [List.map_cons, List.nodup_cons, isFirst, ← isRoot] at nodup
    exact nodup.1 (List.mem_map_of_mem inside)

/-- The ranges of two files of a program do not meet, and every span leads back to
where it was parsed exactly when no file but the root declares a schema. -/
theorem loadProgram_readsBack_iff {fuel : Nat} {ld : Ld}
    (loads : loadProgram env fuel root = some ld) :
    (ld.files.Pairwise fun f g => f.base + f.src.len < g.base) ∧
      (ReadsBack env ld ↔
        ∀ p, Reach env root root p → p ≠ root → ∀ src, env.sourceLoad p = some src →
          (env.frontend.parse src).nodes .schemas = []) := by
  obtain ⟨merging, loaded, rfl⟩ := Option.map_eq_some_iff.mp loads
  have merged := merged_loadFile loaded (merged_startLd env root)
  refine ⟨laid_pairwise merged.laid, ?_⟩
  rw [readsBack_injectBuiltins, spansInvert_iff merged (loaded_root loaded).booked_root.nodup]
  exact forall_tail_iff loaded (P := fun src => (env.frontend.parse src).nodes .schemas = [])

theorem loadProgram_readsBack_mutualImport : ∃ ld,
    loadProgram mutualImport 3 "r/main.geas" = some ld ∧ ReadsBack mutualImport ld := by
  have loads : (loadProgram mutualImport 3 "r/main.geas").isSome = true := by decide +kernel
  obtain ⟨ld, loads⟩ := Option.isSome_iff_exists.mp loads
  refine ⟨ld, loads, (loadProgram_readsBack_iff loads).2.mpr ?_⟩
  intro p reach other src readable
  have listed := listed_finite _ _ p reach
  simp only [List.map_cons, List.map_nil, List.mem_cons, List.not_mem_nil, or_false, other,
    false_or] at listed
  subst listed
  have known : mutualImport.sourceLoad "r/part.geas" = some ⟨"main", 4⟩ := by decide +kernel
  rw [known] at readable
  cases readable
  decide +kernel

/-- A root that imports a file with a schema. -/
def importedSchema : LoadEnv :=
  listed [("r/main.geas", "part"), ("r/part.geas", "schema")]

/-- A schema of an imported file is reported in the root. -/
theorem importedSchema_misreported : ∃ ld,
    loadProgram importedSchema 2 "r/main.geas" = some ld ∧ ld.ok = true ∧
      ¬ ReadsBack importedSchema ld := by
  refine ⟨(loadProgram importedSchema 2 "r/main.geas").get (by decide +kernel), by simp,
    by decide +kernel, ?_⟩
  intro readsBack
  exact absurd (readsBack .schemas) (by decide +kernel)

end Geas.Compiler
