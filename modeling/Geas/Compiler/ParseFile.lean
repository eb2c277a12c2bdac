import Geas.Compiler.ParseDepth
import Mathlib.Data.Set.Basic

/-!
# Parsing a file

Every token stream is parsed to its end.  The recursion stays within the bound the
nesting ceiling sets, up to the subcontracts that stand in each other: each of them is a
call inside the call for the one around it, and a file can hold any number.
-/

namespace Geas.Compiler.Parse

open Geas.Lib Geas.Lib.Descent
open Geas.Runtime (CString ascii)

/-- The parse of a file.  It has as much room as it takes. -/
def parse (toks : List Token) : Except Stop (File × Parser) :=
  (parsers (depthBound + subKeywords toks + 1)).file (parserNew toks)

/-- The state in the first call. -/
theorem ready_parserNew {toks : List Token} (ends : EndsInEof toks) :
    Ready (subKeywords toks) (depthBound + subKeywords toks) 6 (parserNew toks).called where
  ends := ends
  depth := Nat.zero_le _
  live := Nat.le_max_right _ _
  deepest := by
    change 1 ≤ depthBound + 0
    decide
  liveSubs := Nat.le_refl _
  deepestSubs := Nat.zero_le _
  subs := Nat.zero_lt_one
  bounded := Nat.zero_le _
  level := by
    change 1 + 6 ≤ stretch * (0 + 1) + 0
    decide
  toCome := Nat.le_of_eq (Nat.zero_add _)
  fuel := by
    simp only [Parser.called, parserNew]
    omega

/-- A parse comes to its end, whatever it is given, and has opened at most as many calls
as the ceiling allows and as there were subcontracts open. -/
theorem parse_ends {toks : List Token} (ends : EndsInEof toks) :
    Ends (parsers (depthBound + subKeywords toks + 1)).file (parserNew toks) fun _ p =>
      p.calls.deepestSubs ≤ p.calls.deepest ∧
        p.calls.deepest ≤ depthBound + p.calls.deepestSubs ∧
        p.calls.deepestSubs ≤ subKeywords toks := by
  have := good (subKeywords toks) (depthBound + subKeywords toks)
  have body : Steady (disc (subKeywords toks) (depthBound + subKeywords toks) 6)
      (parseFile (parsers (depthBound + subKeywords toks))) := parseFile_steady
  refine .update_bind (.bind (body.ends _ (ready_parserNew ends)) fun file p after => ?_)
  refine .update_bind (.pure ?_)
  exact ⟨after.deepestSubs, after.deepest, after.bounded⟩

/-- How deep the calls of the parse functions get. -/
def callDepth (toks : List Token) : Nat :=
  match parse toks with
  | .ok (_, p) => p.calls.deepest
  | .error _ => 0

/-- How many subcontracts are open at once. -/
def subDepth (toks : List Token) : Nat :=
  match parse toks with
  | .ok (_, p) => p.calls.deepestSubs
  | .error _ => 0

/-! ## Subcontracts in each other -/

/-- A `subcontract` keyword on a line of its own. -/
def subToken : Token := ⟨.kw .subcontract, ascii "subcontract", true⟩

/-- `count` keywords in a row, and the end. -/
def subRow (count : Nat) : List Token := List.replicate count subToken ++ [eofToken]

/-- The state at a row of keywords. -/
structure AtRow (count : Nat) (p : Parser) : Prop where
  toks : p.toks = subRow count
  running : p.hitDepthLimit = false

theorem AtRow.kind {count : Nat} {p : Parser} (row : AtRow count p) :
    p.kind = if count = 0 then .eof else .kw .subcontract := by
  cases count with
  | zero => exact p.kind_of_toks row.toks
  | succ count => exact p.kind_of_toks (row.toks.trans rfl)

theorem AtRow.fault {count : Nat} {p : Parser} (row : AtRow count p) (msg : CString) :
    AtRow count (p.fault msg) ∧ (p.fault msg).pos = p.pos ∧ (p.fault msg).calls = p.calls := by
  rw [Parser.fault, if_neg (by simp [row.running])]
  exact ⟨⟨row.toks, row.running⟩, rfl, rfl⟩

/-- What a row of keywords leads to: all of them are open at once. -/
structure Reached (count : Nat) (p q : Parser) : Prop where
  row : AtRow 0 q
  liveSubs : q.calls.liveSubs = p.calls.liveSubs
  deepestSubs : p.calls.liveSubs + count ≤ q.calls.deepestSubs
  pos : p.pos + count ≤ q.pos

/-- At the end of the input a body has no more elements. -/
theorem bodyTurn_eof {β : Type} {ctx : String} {element : β → P β} {b : β} {p : Parser}
    (row : AtRow 0 p) : Ends (bodyTurn ctx element b) p fun t q => t = .stop b ∧ q = p := by
  have atEof : p.kind = .eof := row.kind
  refine .ask_bind ?_
  rw [if_neg (by simp [atEof])]
  refine .ask_bind ?_
  rw [if_pos (by simp [Parser.atEnd, atEof])]
  exact .pure ⟨rfl, rfl⟩

theorem loopFrom_eof {β : Type} {ctx : String} {element : β → P β} {b : β} {p : Parser}
    (row : AtRow 0 p) (fuel : Nat) :
    Ends (loopFrom (fun p : Parser => p.toks.length) Stop.stalled (bodyTurn ctx element)
      (fuel + 1) b) p fun _ q => q = p := by
  refine .ask_bind (.bind (bodyTurn_eof row) ?_)
  rintro _ _ ⟨rfl, rfl⟩
  exact .pure rfl

/-- The guard lets an element pass that has read something. -/
theorem pGuardProgress_moved {before : Nat} {ctx : String} {p : Parser} (moved : p.pos ≠ before) :
    Ends (pGuardProgress before ctx) p fun _ q => q = p := by
  refine .ask_bind ?_
  rw [if_neg moved]
  exact .pure rfl

/-- One element of a subcontract at a row of keywords, by what its first keyword opens. -/
theorem bodyTurn_row {count : Nat} {r : Parsers} {p : Parser} (row : AtRow (count + 1) p)
    (opens : ∀ q, AtRow (count + 1) q → Ends r.subcontract q fun _ t => Reached (count + 1) q t) :
    Ends (bodyTurn "unexpected token in the subcontract" (subElement r) []) p fun t q =>
      (∃ b, t = .again b) ∧ Reached (count + 1) p q := by
  have here : p.kind = .kw .subcontract := row.kind
  obtain ⟨faulted, samePos, sameCalls⟩ :=
    row.fault (ascii "a subcontract cannot contain another subcontract")
  have element : Ends (subElement r []) p fun _ q => Reached (count + 1) p q := by
    refine .ask_bind ?_
    rw [if_neg (by simp [here])]
    refine .ask_bind ?_
    rw [if_pos (by simp [here])]
    refine .update_bind (.bind (opens _ faulted) fun _ q reached => .pure ?_)
    obtain ⟨atEnd, live, deep, pos⟩ := reached
    rw [sameCalls] at live deep
    rw [samePos] at pos
    exact ⟨atEnd, live, deep, pos⟩
  refine .ask_bind ?_
  rw [if_neg (by simp [here])]
  refine .ask_bind ?_
  rw [if_neg (by simp [Parser.atEnd, row.running, here])]
  refine .ask_bind (.bind element fun b q reached => ?_)
  have moved := reached.pos
  refine .bind (pGuardProgress_moved (by omega)) ?_
  rintro _ _ rfl
  exact .pure ⟨⟨b, rfl⟩, reached⟩

/-- The elements of a subcontract at a row of keywords. -/
theorem bodyLoop_row {count : Nat} {r : Parsers} {p : Parser} (row : AtRow count p)
    (deep : p.calls.liveSubs ≤ p.calls.deepestSubs) (opens : ∀ fewer q, fewer + 1 = count →
      AtRow count q → Ends r.subcontract q fun _ t => Reached count q t) :
    Ends (bodyLoop "unexpected token in the subcontract" (subElement r) []) p fun _ q =>
      Reached count p q := by
  cases count with
  | zero =>
      refine .ask_bind ((loopFrom_eof row _).mono ?_)
      rintro _ _ rfl
      exact ⟨row, rfl, deep, Nat.le_refl _⟩
  | succ count =>
      refine .ask_bind (.ask_bind (.bind (bodyTurn_row row fun q => opens count q rfl) ?_))
      rintro _ q ⟨⟨b, rfl⟩, reached⟩
      have longer : p.toks.length = count + 2 := by
        rw [row.toks]
        simp [subRow]
      have short : q.toks.length = 1 := by
        rw [reached.row.toks]
        rfl
      refine .ask_bind ?_
      rw [if_pos (by omega), longer]
      refine (loopFrom_eof reached.row _).mono ?_
      rintro _ _ rfl
      exact reached

/-- A subcontract behind its keyword, at a row of keywords. -/
theorem subcontractRest_row {count : Nat} {r : Parsers} {p : Parser} (row : AtRow count p)
    (deep : p.calls.liveSubs ≤ p.calls.deepestSubs) (opens : ∀ fewer q, fewer + 1 = count →
      AtRow count q → Ends r.subcontract q fun _ t => Reached count q t) :
    Ends (subcontractRest r) p fun _ q => Reached count p q := by
  have apart : ∀ k, k ≠ .eof → k ≠ .kw .subcontract → p.kind ≠ k := by
    intro k notEof notSub same
    rw [row.kind] at same
    split at same
    · exact notEof same.symm
    · exact notSub same.symm
  have noIdent := apart .ident (by decide) (by decide)
  have noWord := apart (.kw .transactional) (by decide) (by decide)
  have noBrace := apart .lbrace (by decide) (by decide)
  obtain ⟨faulted, samePos, sameCalls⟩ :=
    row.fault (p.expectedFound "'\x7b' to open the subcontract body")
  rw [← sameCalls] at deep
  -- no name, no modifier and no brace: the body starts where it is
  refine .ask_bind ?_
  rw [show decide (p.kind = .ident) = false from decide_eq_false noIdent]
  refine .step rfl (.step (pEatKw_not noWord) (.step (pExpect_not noBrace) ?_))
  refine .bind (bodyLoop_row faulted deep opens) fun pledges q reached => ?_
  -- the input has ended, so the close is reported
  have atEof : q.kind = .eof := reached.row.kind
  let notClosed := "the subcontract body is not closed; expected '\x7d' before end of input"
  obtain ⟨closed, closedPos, closedCalls⟩ := reached.row.fault (ascii notClosed)
  have close : pExpectClose notClosed q = .ok ((), q.fault (ascii notClosed)) := by
    refine (run_bind (pEat_not (by rw [atEof]; decide))).trans ?_
    change (if decide (q.kind = .eof) = true then _ else _ : P Unit) q = _
    rw [if_pos (by simpa using atEof)]
    rfl
  refine .step close (.pure ?_)
  obtain ⟨-, live, deeper, pos⟩ := reached
  rw [sameCalls] at live deeper
  rw [samePos] at pos
  refine ⟨closed, ?_, ?_, ?_⟩
  · rw [closedCalls, live]
  · rw [closedCalls]
    exact deeper
  · rw [closedPos]
    exact pos

/-- The first keyword of a row, by what the next one opens. -/
theorem subcontract_first {count n : Nat} {p : Parser} (row : AtRow (count + 1) p)
    (opens : ∀ fewer q, fewer + 1 = count → AtRow count q →
      Ends (parsers n).subcontract q fun _ t => Reached count q t) :
    Ends (parsers (n + 1)).subcontract p fun _ q => Reached (count + 1) p q := by
  have here : p.called.kind ≠ .eof := by
    have : p.called.kind = .kw .subcontract := row.kind
    rw [this]
    decide
  have bumped : AtRow count p.called.bump.subOpened := by
    rw [Parser.bump, if_neg here]
    refine ⟨?_, row.running⟩
    change p.toks.tail = subRow count
    rw [row.toks]
    rfl
  have opened : p.called.bump.subOpened.calls.liveSubs = p.calls.liveSubs + 1 ∧
      p.called.bump.subOpened.pos = p.pos + 1 := by
    rw [Parser.bump, if_neg here]
    exact ⟨rfl, rfl⟩
  have deep : p.called.bump.subOpened.calls.liveSubs ≤ p.called.bump.subOpened.calls.deepestSubs :=
    Nat.le_max_right _ _
  have body : Ends (parseSubcontract (parsers n)) p.called fun _ q => Reached (count + 1) p q := by
    refine .update_bind (.update_bind (.bind (subcontractRest_row bumped deep opens) ?_))
    rintro sub q ⟨atEnd, live, deeper, pos⟩
    rw [opened.1] at live deeper
    rw [opened.2] at pos
    refine .update_bind (.pure ⟨⟨atEnd.toks, atEnd.running⟩, ?_, ?_, ?_⟩)
    · change q.calls.liveSubs - 1 = _
      omega
    · change _ ≤ q.calls.deepestSubs
      omega
    · change _ ≤ q.pos
      omega
  refine .update_bind (.bind body fun sub q reached => .update_bind (.pure ?_))
  obtain ⟨⟨toks, running⟩, live, deeper, pos⟩ := reached
  exact ⟨⟨toks, running⟩, live, deeper, pos⟩

/-- Every keyword of a row opens a subcontract in the one before it. -/
theorem subcontract_row (count n : Nat) (p : Parser) (row : AtRow (count + 1) p)
    (room : count < n) : Ends (parsers n).subcontract p fun _ q => Reached (count + 1) p q := by
  induction count generalizing n p with
  | zero =>
      obtain ⟨n, rfl⟩ : ∃ m, n = m + 1 := ⟨n - 1, by omega⟩
      exact subcontract_first row fun fewer _ none => by omega
  | succ count ih =>
      obtain ⟨n, rfl⟩ : ∃ m, n = m + 1 := ⟨n - 1, by omega⟩
      exact subcontract_first row fun _ q _ rowNext => ih n q rowNext (by omega)

/-- A contract with a row of keywords for a body. -/
def nestedFile (count : Nat) : List Token :=
  ⟨.kw .contract, ascii "contract", true⟩ :: ⟨.ident, ascii "Deep", false⟩ ::
    ⟨.lbrace, ascii "\x7b", false⟩ :: subRow count

theorem endsInEof_nestedFile (count : Nat) : EndsInEof (nestedFile count) :=
  ⟨_ :: _ :: _ :: List.replicate count subToken, eofToken, rfl, rfl⟩

/-- The run ends, and by then `count` subcontracts have been open at once. -/
def Deepens {α : Type} (most count : Nat) (m : P α) (p : Parser) : Prop :=
  Ends m p fun _ q => After most p q ∧ count ≤ q.calls.deepestSubs

section Deepens

variable {most n room count : Nat} {α β : Type} {p : Parser}

theorem Deepens.bind {m : P α} {f : α → P β} (ready : Ready most n room p)
    (first : Deepens most count m p) (next : ∀ a, Steady (disc most n room) (f a)) :
    Deepens most count (m >>= f) p := by
  refine Ends.bind first fun a q ⟨after, deep⟩ => ?_
  refine ((next a).ends q ((disc most n room).keeps ready after)).mono fun b t afterNext => ?_
  exact ⟨(disc most n room).trans after afterNext, Nat.le_trans deep afterNext.grows⟩

theorem Deepens.framed {m : P α} (ready : Ready most (n + 1) (room + 1) p)
    (body : Deepens most count m p.called) : Deepens most count (framed m) p :=
  framed_ends (count ≤ ·.calls.deepestSubs) ready body fun _ => id

theorem Deepens.step {m : P α} {f : α → P β} {a : α} {q : Parser} (runs : m p = .ok (a, q))
    (after : After most p q) (next : Deepens most count (f a) q) :
    Deepens most count (m >>= f) p := by
  refine Ends.step runs (Ends.mono next fun b t ⟨afterNext, deep⟩ => ⟨?_, deep⟩)
  exact after.trans afterNext

/-- A loop whose first turn gets there. -/
theorem Deepens.loop {turn : β → P (Turn β)} {b : β} (ready : Ready most n room p)
    (strides : ∀ b, Strides (disc most n room) (turn b)) (first : Deepens most count (turn b) p) :
    Deepens most count (pLoop turn b) p := by
  refine .ask_bind (.ask_bind (.bind (first.and ((strides b).ends p ready)) ?_))
  rintro decided q ⟨⟨after, deep⟩, -, less⟩
  cases decided with
  | stop b => exact .pure ⟨after, deep⟩
  | again b =>
      have used : q.toks.length < p.toks.length := less b rfl
      refine .ask_bind ?_
      rw [if_pos used]
      refine (loopFrom_ends strides _ b q ((disc most n room).keeps ready after) used).mono ?_
      intro _ t afterNext
      exact ⟨(disc most n room).trans after afterNext, Nat.le_trans deep afterNext.grows⟩

theorem subcontract_deepens (ready : Ready most n (room + 3) p) (row : AtRow (count + 1) p)
    (fits : count < n) : Deepens most (count + 1) (parsers n).subcontract p := by
  have here : p.kind = .kw .subcontract := row.kind
  have := good most n
  refine ((Good.subcontract room p ready here).and (subcontract_row count n p row fits)).mono ?_
  rintro _ q ⟨after, reached⟩
  exact ⟨after, Nat.le_trans (Nat.le_add_left _ _) reached.deepestSubs⟩

theorem member_deepens (ready : Ready most (n + 1) (room + 4) p) (row : AtRow (count + 1) p)
    (fits : count < n) : Deepens most (count + 1) (parsers (n + 1)).member p := by
  have here : p.called.kind = .kw .subcontract := row.kind
  have inside : Ready most n (room + 3) p.called := (Ready.called ready).1
  have rowNow : AtRow (count + 1) p.called := ⟨row.toks, row.running⟩
  refine Deepens.framed ready (.ask_bind ?_)
  rw [here]
  exact (subcontract_deepens inside rowNow fits).bind inside fun _ => inferInstance

/-- The members of a contract whose body is a row of keywords. -/
theorem members_deepen (ready : Ready most (n + 1) (room + 4) p) (row : AtRow (count + 1) p)
    (fits : count < n) :
    Deepens most (count + 1)
      (bodyLoop "expected a contract member" (memberElement (parsers (n + 1))) []) p := by
  have here : p.kind = .kw .subcontract := row.kind
  have := good most (n + 1)
  refine Deepens.loop ready (fun _ => inferInstance) (.ask_bind ?_)
  rw [if_neg (by simp [here])]
  refine .ask_bind ?_
  rw [if_neg (by simp [Parser.atEnd, row.running, here])]
  refine .ask_bind (Deepens.bind ready ?_ fun _ => inferInstance)
  exact (member_deepens ready row fits).bind ready fun _ => inferInstance

/-- The contract around a row of keywords. -/
theorem contract_deepens (ready : Ready most (n + 2) (room + 5) p)
    (toks : p.toks = nestedFile (count + 1)) (running : p.hitDepthLimit = false)
    (fits : count < n) : Deepens most (count + 1) ((parsers (n + 2)).contract false) p := by
  have inside : Ready most (n + 1) (room + 4) p.called := (Ready.called ready).1
  have := good most (n + 1)
  refine Deepens.framed ready ?_
  -- the keyword, the name and the brace are read, and then the body starts
  let D := disc most (n + 1) (room + 4)
  have first : p.called.kind = .kw .contract := Parser.kind_of_toks toks
  have read := (Ready.advance inside (by rw [first]; decide)).1
  have secondToks : p.called.advance.toks = ⟨.ident, ascii "Deep", false⟩ :: _ :=
    congrArg List.tail toks
  have second : p.called.advance.kind = .ident := Parser.kind_of_toks secondToks
  have readName := (Ready.advance (D.keeps inside read) (by rw [second]; decide)).1
  have thirdToks : p.called.advance.advance.toks = ⟨.lbrace, ascii "\x7b", false⟩ :: _ :=
    congrArg List.tail secondToks
  have third : p.called.advance.advance.kind = .lbrace := Parser.kind_of_toks thirdToks
  have after := read.trans readName
  have readBrace := (Ready.advance (D.keeps inside after) (by rw [third]; decide)).1
  have row : AtRow (count + 1) p.called.advance.advance.advance :=
    ⟨congrArg List.tail thirdToks, running⟩
  have noAttrs : onThisLine .lbracket (parsers (n + 1)).attrs p.called.advance.advance =
      .ok (none, p.called.advance.advance) := by
    change (optionally (decide (p.called.advance.advance.kind = .lbracket) && _) _ : P _) _ = _
    rw [third]
    rfl
  refine .step (pBump_at (by rw [first]; decide)) read (.step (pIdent_at second) readName ?_)
  refine .step noAttrs ((disc most (n + 1) (room + 4)).refl (D.keeps inside after)) ?_
  refine .step (pExpect_at third) readBrace ?_
  have readyNow := D.keeps inside (after.trans readBrace)
  exact (members_deepen readyNow row fits).bind readyNow fun _ => inferInstance

/-- The file around a row of keywords. -/
theorem file_deepens (ready : Ready most (n + 3) (room + 6) p)
    (toks : p.toks = nestedFile (count + 1)) (running : p.hitDepthLimit = false)
    (fits : count < n) : Deepens most (count + 1) (parseFile (parsers (n + 3))) p := by
  have here : p.kind = .kw .contract := Parser.kind_of_toks toks
  have := good most (n + 3)
  have := good most (n + 2)
  have noImport : headTurn (parsers (n + 3)) [] p = .ok (.stop [], p) := by
    change (if decide (p.kind = .kw .import_) = true then _ else _ : P (Turn (List CString))) p = _
    rw [if_neg (by simp [here])]
    rfl
  have noImports : pLoop (headTurn (parsers (n + 3))) [] p = .ok ([], p) := loop_stop noImport
  refine .step noImports ((disc most (n + 3) (room + 6)).refl ready) ?_
  refine Deepens.loop ready (fun _ => inferInstance) (.ask_bind ?_)
  rw [if_neg (by simp [Parser.atEnd, running, here])]
  refine .ask_bind (Deepens.bind ready ?_ fun _ => inferInstance)
  have inside : Ready most (n + 2) (room + 5) p.called := (Ready.called ready).1
  refine Deepens.framed ready (.ask_bind ?_)
  rw [show p.called.kind = .kw .contract from here]
  exact (contract_deepens inside toks running fits).bind inside fun _ => inferInstance

end Deepens

/-- A row of keywords is as deep as it is long. -/
theorem subDepth_nestedFile (count : Nat) : count + 1 ≤ subDepth (nestedFile (count + 1)) := by
  have keywords : subKeywords (nestedFile (count + 1)) = count + 1 := by
    simp [subKeywords, nestedFile, subRow, subToken, eofToken, List.countP_replicate]
  have room : depthBound + subKeywords (nestedFile (count + 1)) = (3504 + count + 1) + 3 := by
    rw [keywords]
    simp only [depthBound, stretch, ceiling]
    omega
  have ready := ready_parserNew (endsInEof_nestedFile (count + 1))
  rw [room] at ready
  obtain ⟨file, p, runs, after, deep⟩ := file_deepens ready rfl rfl (by omega : count < _)
  have parsed : parse (nestedFile (count + 1)) = .ok (file, p.returned) := by
    unfold parse
    rw [room]
    exact (run_bind (a := ()) rfl).trans (run_bind runs)
  simp only [subDepth, parsed]
  exact deep

/-! ## The bound -/

/-- Every token stream is parsed to its end, and no loop turns without reading a token.
On a set of streams the depth of the recursion is bounded exactly when the number of
subcontracts that are open at once is; it stays within the ceiling's own bound when no
subcontract stands in another. -/
theorem parse_depth_bounded_iff (inputs : Set (List Token))
    (ends : ∀ toks ∈ inputs, EndsInEof toks) :
    (∀ toks ∈ inputs, ∃ file p, parse toks = .ok (file, p)) ∧
      (∀ toks ∈ inputs, subDepth toks ≤ subKeywords toks ∧ subDepth toks ≤ callDepth toks ∧
        callDepth toks ≤ depthBound + subDepth toks) ∧
      ((∃ bound, ∀ toks ∈ inputs, callDepth toks ≤ bound) ↔
        ∃ most, ∀ toks ∈ inputs, subDepth toks ≤ most) := by
  have each : ∀ toks ∈ inputs, subDepth toks ≤ subKeywords toks ∧ subDepth toks ≤ callDepth toks ∧
      callDepth toks ≤ depthBound + subDepth toks := by
    intro toks inside
    obtain ⟨file, p, runs, subs, deepest, keywords⟩ := parse_ends (ends toks inside)
    have runs : parse toks = .ok (file, p) := runs
    simp only [subDepth, callDepth, runs]
    exact ⟨keywords, subs, deepest⟩
  refine ⟨fun toks inside => ?_, each, ?_, ?_⟩
  · obtain ⟨file, p, runs, -⟩ := parse_ends (ends toks inside)
    exact ⟨file, p, runs⟩
  · rintro ⟨bound, bounded⟩
    exact ⟨bound, fun toks inside => Nat.le_trans (each toks inside).2.1 (bounded toks inside)⟩
  · rintro ⟨most, bounded⟩
    refine ⟨depthBound + most, fun toks inside => ?_⟩
    exact Nat.le_trans (each toks inside).2.2 (Nat.add_le_add_left (bounded toks inside) _)

/-- Two subcontracts in each other. -/
theorem parse_depth_nested_twice :
    (∀ toks ∈ ({nestedFile 2} : Set (List Token)), EndsInEof toks) ∧
      callDepth (nestedFile 2) ≤ depthBound + 2 := by
  have ends : ∀ toks ∈ ({nestedFile 2} : Set (List Token)), EndsInEof toks := by
    rintro _ rfl
    exact endsInEof_nestedFile 2
  obtain ⟨-, each, -⟩ := parse_depth_bounded_iff {nestedFile 2} ends
  obtain ⟨keywords, -, deep⟩ := each _ rfl
  have two : subKeywords (nestedFile 2) = 2 := by decide
  exact ⟨ends, by omega⟩

/-- No bound fits every file. -/
theorem no_depth_bound : ¬∃ bound, ∀ toks, EndsInEof toks → callDepth toks ≤ bound := by
  rintro ⟨bound, bounded⟩
  have ends := endsInEof_nestedFile (bound + 1)
  obtain ⟨file, p, runs, subs, -⟩ := parse_ends ends
  have runs : parse (nestedFile (bound + 1)) = .ok (file, p) := runs
  have deep := subDepth_nestedFile bound
  have shallow := bounded _ ends
  simp only [subDepth, callDepth, runs] at deep shallow
  omega

end Geas.Compiler.Parse
