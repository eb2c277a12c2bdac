import Geas.Compiler.ReadDecls
import Geas.Compiler.Room

/-!
# A printed file is read back

A file comes back from its tokens as it was, without a fault: the imports of its head, then
its declarations in order.  The room the parse has is the room it needs, so the statement
is about the parse itself.
-/

namespace Geas.Compiler.Parse

open Geas.Lib Geas.Lib.Descent
open Geas.Runtime (CString ascii)
open Filter (atTop)

/-! ## Imports -/

/-- The turns over a dotted path put its parts together again. -/
theorem foldl_dots (part : CString) (parts : List CString) :
    parts.foldl (fun path part => path ++ [46] ++ part) part = [46].intercalate (part :: parts) := by
  induction parts generalizing part with
  | nil => rw [List.foldl_nil, List.intercalate_singleton]
  | cons part' parts ih =>
      rw [List.foldl_cons, ih, List.intercalate_cons_cons, List.append_assoc part]
      cases parts with
      | nil => rw [List.intercalate_singleton, List.intercalate_singleton, List.append_assoc]
      | cons part'' parts => simp only [List.intercalate_cons_cons, List.append_assoc]

section Imports

variable {flag : Bool} {levels : Nat}

theorem importLoop_gives {parts : List CString} (isIdent : ∀ part ∈ parts, IsIdent part)
    (path : CString) (p : Parser) (rest : List Token)
    (before : Before flag levels (dottedToks parts) rest p) (ends : (next rest).kind ≠ .dot) :
    Gives (pLoop importTurn path) (parts.foldl (fun path part => path ++ [46] ++ part) path)
      (dottedToks parts) p := by
  induction parts generalizing path p with
  | nil =>
      refine .loop_stop ((Gives.eatNot ?_).bind fun _ _ => .pure)
      rwa [before.kind_of_nil]
  | cons part parts ih =>
      have turned : Gives (importTurn path) (.again (path ++ [46] ++ part))
          [sym .dot, word part] p := by
        have whole : Before flag levels ([sym .dot, word part] ++ dottedToks parts) rest p := before
        have before := whole.split
        refine (Gives.eat before rfl).one before fun q _ before => ?_
        exact (Gives.ident before (isIdent part List.mem_cons_self) rfl).map
      refine (Leads.again turned (List.cons_ne_nil _ _)).gives fun q reads => ?_
      exact ih (fun part later => isIdent part (List.mem_cons_of_mem _ later)) _ q (before.after reads)

theorem import_parses {path : CString} (spelled : PathSpelled path) :
    Parses (·.import_) path flag levels (onNewLine (importToks path)) EndsDecl := by
  cases split : pathParts path with
  | nil => exact absurd split (List.splitOn_ne_nil _ _)
  | cons part parts =>
      have whole : parts.foldl (fun path part => path ++ [46] ++ part) part = path := by
        rw [foldl_dots, ← split]
        exact List.intercalate_splitOn 46
      have isIdent (part' : CString) (inside : part' ∈ part :: parts) : IsIdent part' :=
        spelled part' (by rwa [split])
      rw [importToks, split]
      refine .call (fun _ => parseImport) (fun _ => rfl) (.of_forall fun n p rest before ends => ?_)
      have before : Before flag levels
        (symOn true (.kw .import_) :: word part :: dottedToks parts) rest p := before
      refine (Gives.bump before (by decide)).one before fun q group before => ?_
      refine (Gives.ident before (isIdent part List.mem_cons_self) rfl).one before
        fun u group' before => ?_
      have looped := importLoop_gives (fun part' later => isIdent part' (List.mem_cons_of_mem _ later))
        part u rest before (ends.kind_ne rfl (by decide) (by decide))
      rwa [whole] at looped

theorem importToks_opens (path : CString) :
    ∃ others, onNewLine (importToks path) = symOn true (.kw .import_) :: others :=
  ⟨_, rfl⟩

end Imports

/-! ## The two loops of a file -/

/-- A declaration opens a line, and not as an import does. -/
theorem declToks_opens {d : Decl} (spelled : DeclSpelled d) : ∃ t others,
    onNewLine (declToks d) = t :: others ∧ t.nlBefore = true ∧ opensLine t.kind = true ∧
      t.kind ≠ .kw .import_ := by
  cases d with
  | record name fields => exact ⟨_, _, rfl, rfl, rfl, fun here => by cases here⟩
  | sum name variants =>
      have isIdent : (wordOn true name).kind = .ident := spelled.1.kind true
      refine ⟨wordOn true name, _, rfl, rfl, ?_, ?_⟩
      · rw [isIdent]
        rfl
      · rw [isIdent]
        decide
  | prov internal name sigs =>
      cases internal with
      | false => exact ⟨_, _, rfl, rfl, rfl, fun here => by cases here⟩
      | true => exact ⟨_, _, rfl, rfl, rfl, fun here => by cases here⟩
  | contract internal name attrs members =>
      cases internal with
      | false => exact ⟨_, _, rfl, rfl, rfl, fun here => by cases here⟩
      | true => exact ⟨_, _, rfl, rfl, rfl, fun here => by cases here⟩

section Files

variable {r : Parsers} {levels : Nat}

/-- The part is read back, up to the next one. -/
def PartGives {α : Type} (levels : Nat) (m : P α) (a : α) (toks : List Token) : Prop :=
  ∀ p rest, Before false levels toks rest p → EndsDecl p.groupDepth (next rest) → Gives m a toks p

theorem headLoop_gives {imports : List CString}
    (each : ∀ path ∈ imports, PartGives levels r.import_ path (onNewLine (importToks path)))
    (seen : List CString) (p : Parser) (rest : List Token)
    (before : Before false levels (imports.map fun path => onNewLine (importToks path)).flatten rest p)
    (ends : EndsDecl p.groupDepth (next rest)) (noImport : (next rest).kind ≠ .kw .import_) :
    Gives (pLoop (headTurn r) seen) (seen ++ imports)
      (imports.map fun path => onNewLine (importToks path)).flatten p := by
  induction imports generalizing seen p with
  | nil =>
      rw [List.append_nil]
      refine .loop_stop (.here (pAt_no ?_) .pure)
      rwa [before.kind_of_nil]
  | cons path imports ih =>
      rw [List.map_cons, List.flatten_cons] at before ⊢
      have follows : EndsDecl p.groupDepth (next
          ((imports.map fun path => onNewLine (importToks path)).flatten ++ rest)) := by
        cases imports with
        | nil => exact ends
        | cons path' imports => exact ⟨ends.1, .inl ⟨rfl, rfl⟩⟩
      have turned : Gives (headTurn r seen) (.again (seen ++ [path])) (onNewLine (importToks path)) p := by
        have given := each path List.mem_cons_self p _ before.split follows
        refine .here (pAt_yes before.kind) ?_
        exact given.sep before.split follows.sep _
      refine (Leads.again turned (List.cons_ne_nil _ _)).gives fun q reads => ?_
      rw [← reads.groupDepth] at ends
      have done := ih (fun path later => each path (List.mem_cons_of_mem _ later)) (seen ++ [path]) q
        (before.after reads) ends
      rwa [List.append_assoc] at done

theorem declTurn_gives {d : Decl} (spelled : DeclSpelled d)
    (given : PartGives levels r.decl ([], [d]) (onNewLine (declToks d))) (file : File) (p : Parser)
    (rest : List Token) (before : Before false levels (onNewLine (declToks d)) rest p)
    (ends : EndsDecl p.groupDepth (next rest)) :
    Gives (declTurn r file) (.again ⟨file.imports, file.decls ++ [d]⟩) (onNewLine (declToks d)) p := by
  have given := given p rest before ends
  obtain ⟨t, others, same, -, opens, -⟩ := declToks_opens spelled
  rw [same] at given before ⊢
  have real : t.kind ≠ .eof := by
    intro here
    rw [here] at opens
    cases opens
  have goes : pAtEnd p = .ok (false, p) := by
    change Except.ok (p.hitDepthLimit || decide (p.kind = .eof), p) = _
    rw [before.running, decide_eq_false (by rwa [before.kind])]
    rfl
  refine .here goes (.here (m := ask Parser.pos) rfl ?_)
  refine (given.bind fun q reads => ?_).cast (List.append_nil _)
  have behind := before.done reads
  refine ((pSep_gives ?_ _).bind fun u stayed => ?_).cast (List.append_nil _)
  · rw [reads.groupDepth, behind.tok_of_nil]
    exact ends.sep
  have moved : u.pos ≠ p.pos := by
    rw [stayed.pos, reads.pos, List.length_cons]
    exact Nat.ne_of_gt (by simp)
  refine (guardProgress_gives moved _).bind fun _ _ => ?_
  rw [List.append_nil]
  exact .pure

theorem declLoop_gives {decls : List Decl} (spelled : ∀ d ∈ decls, DeclSpelled d)
    (each : ∀ d ∈ decls, PartGives levels r.decl ([], [d]) (onNewLine (declToks d)))
    (file : File) (p : Parser) (rest : List Token)
    (before : Before false levels (decls.map fun d => onNewLine (declToks d)).flatten rest p)
    (outside : p.groupDepth = 0) (ends : (next rest).kind = .eof) :
    Gives (pLoop (declTurn r) file) ⟨file.imports, file.decls ++ decls⟩
      (decls.map fun d => onNewLine (declToks d)).flatten p := by
  induction decls generalizing file p with
  | nil =>
      have ended : pAtEnd p = .ok (true, p) := by
        change Except.ok (p.hitDepthLimit || decide (p.kind = .eof), p) = _
        rw [before.kind_of_nil, ends, decide_eq_true rfl, Bool.or_true]
      rw [List.append_nil]
      exact .loop_stop (.here ended .pure)
  | cons d decls ih =>
      rw [List.map_cons, List.flatten_cons] at before ⊢
      have spelledLater (d' : Decl) (later : d' ∈ decls) := spelled d' (List.mem_cons_of_mem _ later)
      have follows : EndsDecl p.groupDepth (next
          ((decls.map fun d => onNewLine (declToks d)).flatten ++ rest)) := by
        refine ⟨outside, ?_⟩
        cases decls with
        | nil => exact .inr (.inr ends)
        | cons d' decls =>
            obtain ⟨t, others, same, newLine, opens, -⟩ :=
              declToks_opens (spelledLater d' List.mem_cons_self)
            rw [List.map_cons, List.flatten_cons, same]
            exact .inl ⟨newLine, opens⟩
      have turned := declTurn_gives (spelled d List.mem_cons_self) (each d List.mem_cons_self) file p
        _ before.split follows
      obtain ⟨t, others, same, -⟩ := declToks_opens (spelled d List.mem_cons_self)
      refine (Leads.again turned (by rw [same]; exact List.cons_ne_nil t others)).gives
        fun q reads => ?_
      have done := ih spelledLater (fun d' later => each d' (List.mem_cons_of_mem _ later))
        ⟨file.imports, file.decls ++ [d]⟩ q (before.after reads) (reads.groupDepth.trans outside)
      rwa [List.append_assoc] at done

end Files

/-! ## Files -/

/-- A file up to its end is read back. -/
theorem file_parses {f : File} (spelled : FileSpelled f) (clear : FileClear f) :
    Parses (·.file) f false (fileLevels f)
      ((f.imports.map fun path => onNewLine (importToks path)).flatten ++
        (f.decls.map fun d => onNewLine (declToks d)).flatten)
      fun g t => g = 0 ∧ t.kind = .eof := by
  have imports : ∀ᶠ n in atTop, ∀ path ∈ f.imports,
      PartGives (fileLevels f) (parsers n).import_ path (onNewLine (importToks path)) :=
    (Filter.eventually_all_finite (List.finite_toSet f.imports)).mpr fun path inside =>
      import_parses (spelled.1 path inside)
  have decls : ∀ᶠ n in atTop, ∀ d ∈ f.decls,
      PartGives (fileLevels f) (parsers n).decl ([], [d]) (onNewLine (declToks d)) :=
    (Filter.eventually_all_finite (List.finite_toSet f.decls)).mpr fun d inside =>
      decl_parses (spelled.2 d inside) (clear d inside) (le_deepest declLevels inside)
  refine .call parseFile (fun _ => rfl) ?_
  filter_upwards [imports, decls] with n imports decls p rest before ⟨outside, eof⟩
  have first : EndsDecl p.groupDepth (next
      ((f.decls.map fun d => onNewLine (declToks d)).flatten ++ rest)) ∧
      (next ((f.decls.map fun d => onNewLine (declToks d)).flatten ++ rest)).kind ≠ .kw .import_ := by
    cases same : f.decls with
    | nil => exact ⟨⟨outside, .inr (.inr eof)⟩, by rw [List.map_nil]; simp [eof]⟩
    | cons d later =>
        obtain ⟨t, others, here, newLine, opens, noImport⟩ :=
          declToks_opens (spelled.2 d (by simp [same]))
        rw [List.map_cons, List.flatten_cons, here]
        exact ⟨⟨outside, .inl ⟨newLine, opens⟩⟩, noImport⟩
  refine (headLoop_gives imports [] p _ before.split first.1 first.2).part before
    fun q group before => ?_
  exact declLoop_gives spelled.2 decls ⟨f.imports, []⟩ q rest before (group.trans outside) eof

/-- A file whose tokens a parse is given comes back from it, without a fault. -/
theorem parse_fileToks {f : File} (spelled : FileSpelled f) (clear : FileClear f)
    (room : fileLevels f ≤ ceiling) :
    ∃ p, parse (fileToks f) = .ok (f, p) ∧ p.errors = [] := by
  refine parse_of_eventually ⟨_, eofToken, rfl, rfl⟩ ?_
  refine Filter.Eventually.mono (file_parses spelled clear) fun n holds => ?_
  have before : Before false (fileLevels f) _ [eofToken] (parserNew (fileToks f)) :=
    ⟨rfl, rfl, rfl, (Nat.zero_add _).trans_le room⟩
  obtain ⟨_, q, runs, rfl, reads⟩ := holds _ _ before ⟨rfl, rfl⟩
  exact ⟨q, runs, reads.errors⟩

end Geas.Compiler.Parse
