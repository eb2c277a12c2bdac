import Mathlib.Data.List.Basic
import Mathlib.Data.List.Nodup
import Mathlib.Logic.Function.Basic

/-!
# The module loader

A program is loaded from its root file: every file is read, parsed into one
shared tree, its spans shifted by the file's own base, and its imports walked
depth first.  The tree is a set of arenas, one list of nodes for each node form,
and a file's parse appends to them, so what one file added is what stands behind
the lengths taken before its parse.

The lexer and the parser are parameters.  Of the nodes they add, the loader reads
a name and a span and carries the other slots along; that a node starts inside its
file is part of what a frontend is.  Reading a file and asking whether a path is a
file are parameters too.
-/

namespace Geas.Compiler

/-- The node forms that carry a span, one arena each. -/
inductive Arena where
  | exprs | imports | records | sums | provs | vows | pledges | clauses | subs | schemas
  | reqs | reqblocks | incs | contracts
  deriving DecidableEq, Repr

/-- A node: the text of its name, its span and its other slots. -/
structure Node where
  name : String
  lo : Nat
  hi : Nat
  slots : List Int
  deriving DecidableEq, Repr

/-- A declaration: its form and its index in the form's arena. -/
structure DeclNode where
  kind : Nat
  id : Nat
  deriving DecidableEq, Repr

/-- The shared tree. -/
structure Ast where
  arenas : Arena → List Node
  decls : List DeclNode

/-- The text of a file and its length in bytes. -/
structure Source where
  text : String
  len : Nat
  deriving DecidableEq, Repr

/-- A fault with its span. -/
structure Located where
  lo : Nat
  hi : Nat
  msg : String
  deriving DecidableEq, Repr

/-- What lexing and parsing one file yields. -/
structure Parsed where
  lexErrors : List Located
  parseErrors : List Located
  nodes : Arena → List Node
  decls : List DeclNode

/-- A lexer and parser, whose nodes start inside the file. -/
structure Frontend where
  parse : Source → Parsed
  inside : ∀ source arena node, node ∈ (parse source).nodes arena → node.lo ≤ source.len

/-- Everything outside the loader: the frontend, the files, and the roots an import
falls back to. -/
structure LoadEnv where
  frontend : Frontend
  sourceLoad : String → Option Source
  sourceIsFile : String → Bool
  homes : List String

/-- A loaded file. -/
structure LdFile where
  path : String
  src : Source
  base : Nat
  pkg : Nat

/-- A load fault, with the file it was found in. -/
inductive LoadError where
  | unreadable (path : String)
  | source (path : String) (located : Located)
  | duplicate (path : String) (lo hi : Nat) (text : String)
  | unresolved (path : String) (lo hi : Nat) (text : String)
  | cycle (path : String) (lo hi : Nat) (text : String)
  deriving DecidableEq, Repr

/-- The message of a load fault. -/
def LoadError.msg : LoadError → String
  | unreadable path => "geas: cannot read source file '" ++ path ++ "'"
  | source _ located => located.msg
  | duplicate _ _ _ text => "duplicate import '" ++ text ++ "'"
  | unresolved _ _ _ text => "cannot resolve import '" ++ text ++ "'"
  | cycle _ _ _ text => "import cycle detected through '" ++ text ++ "'"

/-- The status of a path that was seen. -/
inductive LoadStatus where
  | loading | done
  deriving DecidableEq, Repr

/-- The state of one load. -/
structure Ld where
  ast : Ast
  files : List LdFile
  declPkg : List Nat
  errors : List LoadError
  status : String → Option LoadStatus
  pkgs : String → Option Nat
  npkgs : Nat
  rootdir : String
  base : Nat
  ok : Bool

/-! ### Paths -/

/-- The index of the last slash. -/
def lastSlash : List Char → Nat → Option Nat → Option Nat
  | [], _, last => last
  | c :: rest, i, last => lastSlash rest (i + 1) (if c = '/' then some i else last)

/-- The directory of a path. -/
def dirOf (path : String) : String :=
  match lastSlash path.toList 0 none with
  | none => "."
  | some 0 => "/"
  | some last => String.ofList (path.toList.take last)

/-- A dotted import as a relative file path. -/
def importRel (imp : String) : String :=
  String.ofList (imp.toList.map fun c => if c = '.' then '/' else c) ++ ".geas"

/-- A relative path under a directory. -/
def pathUnder (dir rel : String) : String :=
  dir ++ "/" ++ rel

/-! ### Spans -/

/-- The arenas the shift walks, in order. -/
def shiftedArenas : List Arena :=
  [.exprs, .imports, .records, .sums, .provs, .vows, .pledges, .clauses, .subs, .reqs,
    .reqblocks, .incs, .contracts]

/-- The arena lengths before a parse. -/
def takeMarks (a : Ast) : Arena → Nat :=
  fun arena => (a.arenas arena).length

/-- A node moved up by a base. -/
def Node.shift (base : Nat) (node : Node) : Node :=
  { node with lo := node.lo + base, hi := node.hi + base }

/-- Shift the nodes of one arena from a mark on. -/
def shiftArena (mark base : Nat) (arena : Arena) (a : Ast) : Ast :=
  let nodes := a.arenas arena
  { a with arenas := Function.update a.arenas arena
             (nodes.take mark ++ (nodes.drop mark).map (Node.shift base)) }

/-- Shift the nodes one file's parse added. -/
def shiftSpans (a : Ast) (marks : Arena → Nat) (base : Nat) : Ast :=
  if base = 0 then a
  else shiftedArenas.foldl (fun a arena => shiftArena (marks arena) base arena a) a

/-- The tree after one more parse. -/
def Ast.append (a : Ast) (parsed : Parsed) : Ast where
  arenas := fun arena => a.arenas arena ++ parsed.nodes arena
  decls := a.decls ++ parsed.decls

/-! ### Loading -/

namespace Ld

/-- Set the status of a path. -/
def setStatus (ld : Ld) (path : String) (status : LoadStatus) : Ld :=
  { ld with status := Function.update ld.status path (some status) }

/-- Record a fault. -/
def ldError (ld : Ld) (error : LoadError) : Ld :=
  { ld with errors := ld.errors ++ [error], ok := false }

/-- Record the faults of a parse. -/
def ldErrors (ld : Ld) (path : String) (faults : List Located) : Ld :=
  faults.foldl (fun ld fault => ld.ldError (.source path fault)) ld

/-- The package of a directory, numbered in order of first encounter. -/
def pkgOf (ld : Ld) (dir : String) : Nat × Ld :=
  match ld.pkgs dir with
  | some id => (id, ld)
  | none =>
      (ld.npkgs, { ld with pkgs := Function.update ld.pkgs dir (some ld.npkgs)
                           npkgs := ld.npkgs + 1 })

/-- Enter a parsed file: its faults, its nodes shifted by its base, its package, and
its declarations tagged with it. -/
def enterFile (ld : Ld) (path : String) (src : Source) (parsed : Parsed) : Ld :=
  let marks := takeMarks ld.ast
  let ld' := (ld.ldErrors path parsed.lexErrors).ldErrors path parsed.parseErrors
  let packaged := ld'.pkgOf (dirOf path)
  { packaged.2 with
    ast := shiftSpans (ld.ast.append parsed) marks ld.base
    base := ld.base + src.len + 1
    files := ld.files ++ [⟨path, src, ld.base, packaged.1⟩]
    declPkg := ld.declPkg ++ List.replicate parsed.decls.length packaged.1
    status := Function.update ld.status path (some .done) }

end Ld

/-- The file an import names: beside the root first, then under each home.  A path
that was seen counts as found. -/
def resolveImport (env : LoadEnv) (ld : Ld) (imp : String) : Option String :=
  ((ld.rootdir :: env.homes).map fun dir => pathUnder dir (importRel imp)).find? fun candidate =>
    (ld.status candidate).isSome || env.sourceIsFile candidate

/-- Walk the imports of a file in declaration order.  The importer is marked loading
around the load of an import, and only there. -/
def walkImports (env : LoadEnv) (load : Ld → String → Option Ld) (path : String) (base : Nat) :
    List Node → List String → Ld → Option Ld
  | [], _, ld => some ld
  | imp :: imps, seen, ld =>
      if imp.name = "" then walkImports env load path base imps seen ld
      else if imp.name ∈ seen then
        walkImports env load path base imps seen
          (ld.ldError (.duplicate path (imp.lo - base) (imp.hi - base) imp.name))
      else
        match resolveImport env ld imp.name with
        | none =>
            walkImports env load path base imps (imp.name :: seen)
              (ld.ldError (.unresolved path (imp.lo - base) (imp.hi - base) imp.name))
        | some target =>
            match ld.status target with
            | some .loading =>
                walkImports env load path base imps (imp.name :: seen)
                  (ld.ldError (.cycle path (imp.lo - base) (imp.hi - base) imp.name))
            | some .done => walkImports env load path base imps (imp.name :: seen) ld
            | none =>
                match load (ld.setStatus path .loading) target with
                | none => none
                | some ld =>
                    walkImports env load path base imps (imp.name :: seen)
                      (ld.setStatus path .done)

/-- Load one file and, depth first, everything it imports.  The fuel bounds the depth
of the walk. -/
def loadFile (env : LoadEnv) : Nat → Ld → String → Option Ld
  | 0, _, _ => none
  | fuel + 1, ld, path =>
      let ld := ld.setStatus path .loading
      match env.sourceLoad path with
      | none => some ((ld.ldError (.unreadable path)).setStatus path .done)
      | some src =>
          let parsed := env.frontend.parse src
          let entered := ld.enterFile path src parsed
          if parsed.lexErrors ≠ [] ∨ parsed.parseErrors ≠ [] then some entered
          else
            walkImports env (loadFile env fuel) path ld.base
              ((entered.ast.arenas .imports).drop (ld.ast.arenas .imports).length) [] entered

/-- The builtin record, without a span of its own. -/
def builtinRecord : Node := ⟨"PartialResult", 0, 0, []⟩

/-- Add the builtin record as a last declaration, in the root's package. -/
def injectBuiltins (ld : Ld) : Ld :=
  { ld with
    ast :=
      { arenas := Function.update ld.ast.arenas .records
          (ld.ast.arenas .records ++ [builtinRecord])
        decls := ld.ast.decls ++ [⟨0, (ld.ast.arenas .records).length⟩] }
    declPkg := ld.declPkg ++ [0] }

/-- The state a load starts from. -/
def startLd (root : String) : Ld where
  ast := ⟨fun _ => [], []⟩
  files := []
  declPkg := []
  errors := []
  status := fun _ => none
  pkgs := fun _ => none
  npkgs := 0
  rootdir := dirOf root
  base := 0
  ok := true

/-- Load the program of a root file. -/
def loadProgram (env : LoadEnv) (fuel : Nat) (root : String) : Option Ld :=
  (loadFile env fuel (startLd root) root).map injectBuiltins

/-- The file and the local offsets a shifted span is reported at; a span outside
every file goes to the start of the first. -/
def ldEmit (files : List LdFile) (lo hi : Nat) : Option (String × Nat × Nat) :=
  match files.find? fun f => f.base ≤ lo ∧ lo ≤ f.base + f.src.len with
  | some f => some (f.path, lo - f.base, hi - f.base)
  | none => files.head?.map fun f => (f.path, 0, 0)

/-! ### What every load keeps -/

section Preserves

variable {env : LoadEnv} {P : Ld → Prop}

theorem walkImports_preserves {load : Ld → String → Option Ld} {path : String} {base : Nat}
    (setStatus : ∀ ld status, P ld → P (ld.setStatus path status))
    (ldError : ∀ ld error, P ld → P (ld.ldError error))
    (loads : ∀ ld target ld', load ld target = some ld' →
      ((ld.status target).isSome || env.sourceIsFile target) = true → P ld → P ld')
    {imps : List Node} {seen : List String} {ld ld' : Ld}
    (walked : walkImports env load path base imps seen ld = some ld') (start : P ld) : P ld' := by
  induction imps generalizing seen ld with
  | nil =>
      cases walked
      exact start
  | cons imp imps ih =>
      rw [walkImports] at walked
      split at walked
      · exact ih walked start
      · split at walked
        · exact ih walked (ldError _ _ start)
        · split at walked
          · exact ih walked (ldError _ _ start)
          · rename_i target found
            split at walked
            · exact ih walked (ldError _ _ start)
            · exact ih walked start
            · split at walked
              · cases walked
              · rename_i loaded
                have marked := setStatus _ .loading start
                have candidate : (((ld.setStatus path .loading).status target).isSome ||
                    env.sourceIsFile target) = true := by
                  have found := List.find?_some found
                  simp only [Ld.setStatus, Function.update_apply]
                  split
                  · rfl
                  · exact found
                exact ih walked (setStatus _ .done (loads _ _ _ loaded candidate marked))

/-- A property of the state that marking a path, recording a fault and entering a
file keep is kept by every load. -/
theorem loadFile_preserves (setStatus : ∀ ld path status, P ld → P (ld.setStatus path status))
    (ldError : ∀ ld error, P ld → P (ld.ldError error))
    (enterFile : ∀ ld path src, env.sourceLoad path = some src → P ld →
      P (ld.enterFile path src (env.frontend.parse src)))
    {fuel : Nat} {ld ld' : Ld} {path : String}
    (loaded : loadFile env fuel ld path = some ld') (start : P ld) : P ld' := by
  induction fuel generalizing ld path ld' with
  | zero => cases loaded
  | succ fuel ih =>
      simp only [loadFile] at loaded
      have marked := setStatus ld path .loading start
      split at loaded
      · cases loaded
        exact setStatus _ _ _ (ldError _ _ marked)
      · rename_i src readable
        have entered := enterFile _ path src readable marked
        split at loaded
        · cases loaded
          exact entered
        · exact walkImports_preserves (fun ld => setStatus ld path) ldError
            (fun _ _ _ loaded _ start => ih loaded start) loaded entered

end Preserves

@[simp] theorem ldErrors_eq (ld : Ld) (path : String) (faults : List Located) :
    ld.ldErrors path faults =
      { ld with errors := ld.errors ++ faults.map (LoadError.source path)
                ok := ld.ok && faults.isEmpty } := by
  induction faults generalizing ld with
  | nil => simp [Ld.ldErrors]
  | cons fault faults ih =>
      change (ld.ldError (.source path fault)).ldErrors path faults = _
      rw [ih]
      simp [Ld.ldError]

/-! ### The merged tree -/

theorem foldl_shiftArena (marks : Arena → Nat) (base : Nat) {arenas : List Arena}
    (nodup : arenas.Nodup) (a : Ast) (arena : Arena) :
    (arenas.foldl (fun a arena => shiftArena (marks arena) base arena a) a).arenas arena =
      if arena ∈ arenas then
        (a.arenas arena).take (marks arena) ++
          ((a.arenas arena).drop (marks arena)).map (Node.shift base)
      else a.arenas arena := by
  induction arenas generalizing a with
  | nil => rfl
  | cons first arenas ih =>
      rw [List.nodup_cons] at nodup
      rw [List.foldl_cons, ih nodup.2]
      by_cases here : arena = first
      · subst here
        simp [nodup.1, shiftArena]
      · simp [here, shiftArena]

@[simp] theorem foldl_shiftArena_decls (marks : Arena → Nat) (base : Nat) (arenas : List Arena)
    (a : Ast) : (arenas.foldl (fun a arena => shiftArena (marks arena) base arena a) a).decls =
      a.decls := by
  induction arenas generalizing a with
  | nil => rfl
  | cons first arenas ih =>
      rw [List.foldl_cons, ih]
      rfl

theorem shift_zero (node : Node) : node.shift 0 = node := rfl

theorem mem_shiftedArenas (arena : Arena) : arena ∈ shiftedArenas ↔ arena ≠ .schemas := by
  cases arena <;> simp [shiftedArenas]

/-- The nodes a file adds to an arena: all of them shifted by the file's base, the
schemas apart. -/
def addedNodes (nodes : Arena → List Node) (base : Nat) (arena : Arena) : List Node :=
  if arena = .schemas then nodes arena else (nodes arena).map (Node.shift base)

theorem shiftSpans_append (a : Ast) (parsed : Parsed) (base : Nat) (arena : Arena) :
    (shiftSpans (a.append parsed) (takeMarks a) base).arenas arena =
      a.arenas arena ++ addedNodes parsed.nodes base arena := by
  unfold shiftSpans addedNodes
  split
  · rename_i zero
    subst zero
    have unshifted : (parsed.nodes arena).map (Node.shift 0) = parsed.nodes arena := by
      simp [funext shift_zero]
    rw [unshifted, ite_self]
    rfl
  · rw [foldl_shiftArena (takeMarks a) base (by decide)]
    by_cases schemas : arena = .schemas
    · simp [schemas, shiftedArenas, Ast.append]
    · simp [(mem_shiftedArenas arena).mpr schemas, schemas, takeMarks, Ast.append]

theorem shiftSpans_decls (a : Ast) (marks : Arena → Nat) (base : Nat) :
    (shiftSpans a marks base).decls = a.decls := by
  unfold shiftSpans
  split
  · rfl
  · simp

/-- Files laid end to end from a first base, one position between two of them. -/
def Laid : Nat → List LdFile → Nat → Prop
  | first, [], last => first = last
  | first, f :: files, last => f.base = first ∧ Laid (first + f.src.len + 1) files last

theorem laid_append {first last : Nat} {files : List LdFile} {f : LdFile}
    (laid : Laid first files last) (next : f.base = last) :
    Laid first (files ++ [f]) (last + f.src.len + 1) := by
  induction files generalizing first with
  | nil =>
      cases laid
      exact ⟨next, rfl⟩
  | cons g files ih => exact ⟨laid.1, ih laid.2⟩

theorem laid_base_ge {first last : Nat} {files : List LdFile} (laid : Laid first files last) :
    ∀ f ∈ files, first ≤ f.base := by
  induction files generalizing first with
  | nil => simp
  | cons g files ih =>
      intro f inside
      rcases List.mem_cons.mp inside with rfl | inside
      · exact Nat.le_of_eq laid.1.symm
      · have later := ih laid.2 f inside
        omega

/-- The ranges of two files do not meet. -/
theorem laid_pairwise {first last : Nat} {files : List LdFile} (laid : Laid first files last) :
    files.Pairwise fun f g => f.base + f.src.len < g.base := by
  induction files generalizing first with
  | nil => exact List.Pairwise.nil
  | cons f files ih =>
      refine List.Pairwise.cons ?_ (ih laid.2)
      intro g inside
      have later := laid_base_ge laid.2 g inside
      have here := laid.1
      omega

/-- The merged tree, file by file. -/
structure Merged (env : LoadEnv) (ld : Ld) : Prop where
  arenas : ∀ arena, ld.ast.arenas arena = ld.files.flatMap fun f =>
    addedNodes (env.frontend.parse f.src).nodes f.base arena
  decls : ld.ast.decls = ld.files.flatMap fun f => (env.frontend.parse f.src).decls
  declPkg : ld.declPkg = ld.files.flatMap fun f =>
    List.replicate (env.frontend.parse f.src).decls.length f.pkg
  laid : Laid 0 ld.files ld.base
  sources : ∀ f ∈ ld.files, env.sourceLoad f.path = some f.src
  packages : ∀ f ∈ ld.files, ld.pkgs (dirOf f.path) = some f.pkg
  numbered : ∀ dir id, ld.pkgs dir = some id → id < ld.npkgs
  distinct : ∀ dir dir' id, ld.pkgs dir = some id → ld.pkgs dir' = some id → dir = dir'

theorem merged_startLd (env : LoadEnv) (root : String) : Merged env (startLd root) where
  arenas _ := rfl
  decls := rfl
  declPkg := rfl
  laid := rfl
  sources _ inside := by cases inside
  packages _ inside := by cases inside
  numbered _ _ known := by cases known
  distinct _ _ _ known := by cases known

/-- What asking for a package does to the table of packages. -/
theorem pkgOf_spec {ld : Ld} {dir : String}
    (numbered : ∀ dir id, ld.pkgs dir = some id → id < ld.npkgs)
    (distinct : ∀ dir dir' id, ld.pkgs dir = some id → ld.pkgs dir' = some id → dir = dir') :
    (ld.pkgOf dir).2.pkgs dir = some (ld.pkgOf dir).1 ∧
      (∀ other id, ld.pkgs other = some id → (ld.pkgOf dir).2.pkgs other = some id) ∧
      (∀ other id, (ld.pkgOf dir).2.pkgs other = some id → id < (ld.pkgOf dir).2.npkgs) ∧
      (∀ other other' id, (ld.pkgOf dir).2.pkgs other = some id →
        (ld.pkgOf dir).2.pkgs other' = some id → other = other') := by
  unfold Ld.pkgOf
  split
  · rename_i id known
    exact ⟨known, fun _ _ known => known, numbered, distinct⟩
  · rename_i unknown
    refine ⟨by simp, ?_, ?_, ?_⟩ <;> grind [Function.update_apply]

theorem merged_enterFile {env : LoadEnv} {ld : Ld} {path : String} {src : Source}
    (readable : env.sourceLoad path = some src) (merged : Merged env ld) :
    Merged env (ld.enterFile path src (env.frontend.parse src)) := by
  obtain ⟨arenas, decls, declPkg, laid, sources, packages, numbered, distinct⟩ := merged
  generalize tagged : ((ld.ldErrors path (env.frontend.parse src).lexErrors).ldErrors path
    (env.frontend.parse src).parseErrors).pkgOf (dirOf path) = packaged
  have table := @pkgOf_spec ((ld.ldErrors path (env.frontend.parse src).lexErrors).ldErrors path
    (env.frontend.parse src).parseErrors) (dirOf path) (by simpa using numbered)
    (by simpa using distinct)
  rw [tagged] at table
  obtain ⟨own, older, small, apart⟩ := table
  simp only [Ld.enterFile, tagged]
  constructor
  · intro arena
    simp [shiftSpans_append, arenas arena]
  · simp [shiftSpans_decls, Ast.append, decls]
  · simp [declPkg]
  · exact laid_append laid rfl
  · intro f inside
    rcases List.mem_append.mp inside with inside | inside
    · exact sources f inside
    · rw [List.mem_singleton] at inside
      subst inside
      exact readable
  · intro f inside
    rcases List.mem_append.mp inside with inside | inside
    · exact older _ _ (by simpa using packages f inside)
    · rw [List.mem_singleton] at inside
      subst inside
      exact own
  · exact small
  · exact apart

/-- Every load keeps the tree merged. -/
theorem merged_loadFile {env : LoadEnv} {fuel : Nat} {ld ld' : Ld} {path : String}
    (loaded : loadFile env fuel ld path = some ld') (merged : Merged env ld) : Merged env ld' :=
  loadFile_preserves (fun _ _ _ => fun ⟨a, b, c, d, e, f, g, h⟩ => ⟨a, b, c, d, e, f, g, h⟩)
    (fun _ _ => fun ⟨a, b, c, d, e, f, g, h⟩ => ⟨a, b, c, d, e, f, g, h⟩)
    (fun _ _ _ readable merged => merged_enterFile readable merged) loaded merged

/-! ### Reading a span back -/

/-- A position inside a file's range leads to that file. -/
theorem find_laid {first last : Nat} {files : List LdFile} {f : LdFile} {lo : Nat}
    (laid : Laid first files last) (inside : f ∈ files) (within : lo ≤ f.src.len) :
    files.find? (fun g => g.base ≤ lo + f.base ∧ lo + f.base ≤ g.base + g.src.len) = some f := by
  induction files generalizing first with
  | nil => cases inside
  | cons g files ih =>
      rcases List.mem_cons.mp inside with rfl | later
      · rw [List.find?_cons_of_pos]
        simp only [decide_eq_true_eq]
        omega
      · have base := laid_base_ge laid.2 f later
        have here := laid.1
        rw [List.find?_cons_of_neg, ih laid.2 later]
        simp only [decide_eq_true_eq]
        omega

/-- A shifted span is reported in its own file at its own offsets. -/
theorem ldEmit_shift {last : Nat} {files : List LdFile} {f : LdFile} {node : Node}
    (laid : Laid 0 files last) (inside : f ∈ files) (within : node.lo ≤ f.src.len) :
    ldEmit files (node.shift f.base).lo (node.shift f.base).hi =
      some (f.path, node.lo, node.hi) := by
  have found := find_laid laid inside within
  change ldEmit files (node.lo + f.base) (node.hi + f.base) = _
  rw [ldEmit, found]
  simp

/-- A span left unshifted is reported in its own file at its own offsets only in the
first file. -/
theorem ldEmit_unshifted {last : Nat} {files : List LdFile} {first f : LdFile} {lo hi : Nat}
    (laid : Laid 0 (first :: files) last)
    (nodup : ((first :: files).map LdFile.path).Nodup) (inside : f ∈ files) :
    ldEmit (first :: files) lo hi ≠ some (f.path, lo, hi) := by
  have later : first.base + first.src.len < f.base :=
    List.rel_of_pairwise_cons (laid_pairwise laid) inside
  intro reported
  unfold ldEmit at reported
  split at reported
  · rename_i g found
    have within := List.find?_some found
    have member := List.mem_of_find?_eq_some found
    simp only [decide_eq_true_eq] at within
    simp only [Option.some.injEq, Prod.mk.injEq] at reported
    have same : g = f :=
      List.inj_on_of_nodup_map nodup member (List.mem_cons_of_mem _ inside) reported.1
    subst same
    omega
  · simp only [List.head?_cons, Option.map_some, Option.some.injEq, Prod.mk.injEq] at reported
    rw [List.map_cons, List.nodup_cons] at nodup
    exact nodup.1 (reported.1 ▸ List.mem_map_of_mem inside)

/-- Every node of every arena is reported in the file that declared it, at the
offsets its parse recorded. -/
def SpansInvert (env : LoadEnv) (ld : Ld) : Prop :=
  ∀ arena, (ld.ast.arenas arena).map (fun node => ldEmit ld.files node.lo node.hi) =
    ld.files.flatMap fun f => ((env.frontend.parse f.src).nodes arena).map fun node =>
      some (f.path, node.lo, node.hi)

theorem reported_shifted {env : LoadEnv} {ld : Ld} (merged : Merged env ld) {arena : Arena}
    (shifted : arena ≠ .schemas) :
    (ld.ast.arenas arena).map (fun node => ldEmit ld.files node.lo node.hi) =
      ld.files.flatMap fun f => ((env.frontend.parse f.src).nodes arena).map fun node =>
        some (f.path, node.lo, node.hi) := by
  rw [merged.arenas arena, List.map_flatMap]
  apply List.flatMap_congr
  intro f inside
  rw [addedNodes, if_neg shifted, List.map_map]
  apply List.map_congr_left
  intro node member
  exact ldEmit_shift merged.laid inside (env.frontend.inside f.src arena node member)

theorem flatMap_map_inj {α β γ : Type} {files : List α} {nodes : α → List β} {left right : α → β → γ}
    (same : (files.flatMap fun f => (nodes f).map (left f)) =
      files.flatMap fun f => (nodes f).map (right f)) :
    ∀ f ∈ files, ∀ node ∈ nodes f, left f node = right f node := by
  induction files with
  | nil => simp
  | cons first files ih =>
      rw [List.flatMap_cons, List.flatMap_cons] at same
      have parts := List.append_inj same (by simp)
      intro f inside node member
      rcases List.mem_cons.mp inside with rfl | inside
      · exact List.map_inj_left.mp parts.1 node member
      · exact ih parts.2 f inside node member

/-- Spans are read back exactly when no file but the first declares a schema. -/
theorem spansInvert_iff {env : LoadEnv} {ld : Ld} (merged : Merged env ld)
    (nodup : (ld.files.map LdFile.path).Nodup) :
    SpansInvert env ld ↔
      ∀ f ∈ ld.files.tail, (env.frontend.parse f.src).nodes .schemas = [] := by
  constructor
  · intro inverts f inside
    have reported := inverts .schemas
    rw [merged.arenas .schemas, List.map_flatMap] at reported
    simp only [addedNodes, if_pos] at reported
    have each := flatMap_map_inj reported
    have laid := merged.laid
    cases shape : ld.files with
    | nil =>
        rw [shape] at inside
        cases inside
    | cons first files =>
        rw [shape] at inside nodup laid each
        apply List.eq_nil_iff_forall_not_mem.mpr
        intro node member
        exact ldEmit_unshifted laid nodup inside
          (each f (List.mem_cons_of_mem _ inside) node member)
  · intro without arena
    by_cases schemas : arena = .schemas
    · subst schemas
      rw [merged.arenas .schemas, List.map_flatMap]
      apply List.flatMap_congr
      intro f inside
      rw [addedNodes, if_pos rfl]
      apply List.map_congr_left
      intro node member
      have laid := merged.laid
      cases shape : ld.files with
      | nil =>
          rw [shape] at inside
          cases inside
      | cons first files =>
          rw [shape] at inside without laid
          rcases List.mem_cons.mp inside with rfl | inside
          · have within := env.frontend.inside f.src .schemas node member
            have reported := ldEmit_shift laid (List.mem_cons_self) within
            rwa [laid.1, shift_zero] at reported
          · rw [without f inside] at member
            cases member
    · exact reported_shifted merged schemas

end Geas.Compiler
