import Geas.Compiler.Growth
import Geas.Compiler.ReadReqs

/-!
# Bare record literals

A header forbids bare record literals, and the arms of a match in it, with their blocks,
find the flag as the match does.  A record literal that stands bare there is read as its
name alone: the parse stops in front of the brace and whatever comes next reports a fault.

`Fails` says this of a run, and it is partial correctness: wherever the run ends, a fault
was reported, or the parser stands in front of a brace of the same line.  No parse
function takes a fault back, so one is enough.
-/

namespace Geas.Compiler.Parse

open Geas.Lib Geas.Lib.Descent
open Geas.Runtime (CString ascii)
open Filter (atTop)

/-! ## Runs that fail -/

/-- In front of a brace of the same line. -/
structure AtBrace (p : Parser) : Prop where
  kind : p.kind = .lbrace
  sameLine : p.tok.nlBefore = false
  running : p.hitDepthLimit = false

/-- Wherever the run ends, it has reported a fault or, where it may stick, stands in front
of a brace. -/
def Fails {α : Type} (stick : Bool) (m : P α) (p : Parser) : Prop :=
  ∀ a q, m p = .ok (a, q) → p.faults < q.faults ∨ (stick = true ∧ p.faults ≤ q.faults ∧ AtBrace q)

theorem AtBrace.goesOn {p : Parser} (at' : AtBrace p) : pNlTerm p = .ok (false, p) :=
  pNlTerm_no at'.running (not_breaks_of_sameLine at'.sameLine)

theorem AtBrace.not_breaks {p : Parser} (at' : AtBrace p) : ¬ Breaks p.groupDepth p.tok :=
  not_breaks_of_sameLine at'.sameLine

/-- A change of the state that the faults and the tokens do not see. -/
def Quiet (g : Parser → Parser) : Prop :=
  ∀ p, (g p).errors = p.errors ∧ (g p).toks = p.toks ∧ (g p).hitDepthLimit = p.hitDepthLimit

theorem Quiet.faults {g : Parser → Parser} (quiet : Quiet g) (p : Parser) :
    (g p).faults = p.faults :=
  congrArg List.length (quiet p).1

theorem Quiet.atBrace {g : Parser → Parser} (quiet : Quiet g) {p : Parser} (at' : AtBrace p) :
    AtBrace (g p) := by
  have same : (g p).tok = p.tok := by rw [Parser.tok, Parser.tok, (quiet p).2.1]
  refine ⟨?_, by rw [same]; exact at'.sameLine, (quiet p).2.2.trans at'.running⟩
  rw [Parser.kind, same]
  exact at'.kind

namespace Fails

variable {α β : Type} {stick : Bool} {m k : P α} {f : α → P β} {a : α} {toks : List Token}
  {p : Parser}

theorem weaken (fails : Fails false m p) : Fails stick m p := fun a q runs =>
  .inl ((fails a q runs).resolve_right fun stuck => by cases stuck.1)

theorem pure (at' : AtBrace p) : Fails true (pure a : P α) p := by
  intro b q runs
  cases runs
  exact .inr ⟨rfl, Nat.le_refl _, at'⟩

/-- What failed stays failed, if what comes next fails in front of a brace. -/
theorem bind {stick' : Bool} [grows : ∀ a, Grows Parser.faults (f a)] (first : Fails stick m p)
    (stuck : stick = true → ∀ a q, m p = .ok (a, q) → AtBrace q → Fails stick' (f a) q) :
    Fails stick' (m >>= f) p := by
  intro b t runs
  obtain ⟨a, q, runs, runsNext⟩ := bind_ok runs
  rcases first a q runs with fault | ⟨sticks, kept, at'⟩
  · exact .inl (Nat.lt_of_lt_of_le fault ((grows a).le runsNext))
  · rcases stuck sticks a q runs at' b t runsNext with fault | ⟨sticks, keptNext, at'⟩
    · exact .inl (Nat.lt_of_le_of_lt kept fault)
    · exact .inr ⟨sticks, kept.trans keptNext, at'⟩

/-- A fault that was reported stays. -/
theorem bind_fault {stick' : Bool} [grows : ∀ a, Grows Parser.faults (f a)]
    (first : Fails false m p) : Fails stick' (m >>= f) p :=
  first.bind fun sticks => by cases sticks

theorem of_faults_eq {p q : Parser} (same : q.faults = p.faults) {m m' : P α}
    (fails : Fails stick m q) (runs : m' p = m q) : Fails stick m' p := by
  intro a t ends
  rw [← same]
  exact fails a t (runs ▸ ends)

theorem step {q : Parser} (runs : m p = .ok (a, q)) (same : q.faults = p.faults)
    (next : Fails stick (f a) q) : Fails stick (m >>= f) p :=
  next.of_faults_eq same (run_bind runs)

theorem here (runs : m p = .ok (a, p)) (next : Fails stick (f a) p) : Fails stick (m >>= f) p :=
  step runs rfl next

/-- What was read properly reports nothing. -/
theorem after (given : Gives m a toks p) (next : ∀ q, Reads toks p q → Fails stick (f a) q) :
    Fails stick (m >>= f) p := by
  obtain ⟨_, q, runs, rfl, reads⟩ := given
  exact step runs (congrArg List.length reads.errors) (next q reads)

theorem afterLeads (leads : Leads m k toks p) (next : ∀ q, Reads toks p q → Fails stick k q) :
    Fails stick m p := by
  obtain ⟨q, reads, same⟩ := leads
  exact (next q reads).of_faults_eq (congrArg List.length reads.errors) same

theorem update {g : Parser → Parser} {f : Unit → P β} (quiet : Quiet g)
    (next : Fails stick (f ()) (g p)) : Fails stick (Descent.update g >>= f) p :=
  step rfl (quiet.faults p) next

/-- One token, then what fails. -/
theorem one {flag : Bool} {levels : Nat} {t : Token} {rest : List Token} (given : Gives m a [t] p)
    (before : Before flag levels (t :: toks) rest p)
    (next : ∀ q, Before flag levels toks rest q → Fails stick (f a) q) :
    Fails stick (m >>= f) p :=
  after given fun q reads => next q (Before.after before reads)

/-- A part of the tokens, then what fails. -/
theorem part {flag : Bool} {levels : Nat} {first rest : List Token} (given : Gives m a first p)
    (before : Before flag levels (first ++ toks) rest p)
    (next : ∀ q, q.groupDepth = p.groupDepth → Before flag levels toks rest q →
      Fails stick (f a) q) : Fails stick (m >>= f) p :=
  after given fun q reads => next q reads.groupDepth (before.after reads)

/-- What fails, and changes behind it that nobody sees. -/
theorem restored {g : Parser → Parser} {h : α → β} (quiet : Quiet g) (fails : Fails stick m p) :
    Fails stick (do
      let a ← m
      Descent.update g
      Pure.pure (h a)) p := by
  intro b t runs
  obtain ⟨a, q, ran, runsNext⟩ := bind_ok runs
  cases runsNext
  rcases fails a q ran with fault | ⟨sticks, kept, at'⟩
  · exact .inl (by rwa [quiet.faults])
  · exact .inr ⟨sticks, by rwa [quiet.faults], quiet.atBrace at'⟩

theorem map {h : α → β} (fails : Fails stick m p) :
    Fails stick (m >>= fun a => Pure.pure (h a)) p := by
  intro b t runs
  obtain ⟨a, q, ran, runsNext⟩ := bind_ok runs
  cases runsNext
  exact fails a _ ran

/-! ### In front of a brace -/

theorem fault_lt {msg : CString} (at' : AtBrace p) : p.faults < (p.fault msg).faults := by
  rw [Parser.fault, at'.running]
  simp [Parser.faults]

theorem expect {k : Kind} {what : String} (at' : AtBrace p) (other : k ≠ .lbrace) :
    Fails false (pExpect k what) p := by
  intro a q runs
  rw [pExpect_not (by rw [at'.kind]; exact other.symm)] at runs
  cases runs
  exact .inl (fault_lt at')

theorem sep {msg : String} (at' : AtBrace p) : Fails false (pSep msg) p := by
  refine here (pAt_no (by rw [at'.kind]; decide)) ?_
  refine here (pAt_no (by rw [at'.kind]; decide)) (here at'.goesOn ?_)
  intro a q runs
  cases runs
  exact .inl (fault_lt at')

/-! ### Calls, groups and loops -/

theorem framed (fails : Fails stick m p.called) : Fails stick (framed m) p :=
  update (fun _ => ⟨rfl, rfl, rfl⟩) (fails.restored (h := id) fun _ => ⟨rfl, rfl, rfl⟩)

theorem underCeiling {placeholder : α} (room : p.depth + 1 ≤ ceiling)
    (fails : Fails stick m { p with depth := p.depth + 1 }) :
    Fails stick (underCeiling m placeholder) p := by
  have entered : pEnterNesting p = .ok (true, { p with depth := p.depth + 1 }) :=
    pEnterNesting_below room
  exact step entered rfl (fails.restored (h := id) fun _ => ⟨rfl, rfl, rfl⟩)

theorem grouped (fails : Fails stick m { p with groupDepth := p.groupDepth + 1, noRecord := false }) :
    Fails stick (grouped m) p := by
  refine update (g := fun p => { p with groupDepth := p.groupDepth + 1 })
    (fun _ => ⟨rfl, rfl, rfl⟩) ?_
  refine step (m := pNoRecord) rfl rfl ?_
  refine update (g := fun p => { p with noRecord := false }) (fun _ => ⟨rfl, rfl, rfl⟩) ?_
  intro b t runs
  obtain ⟨a, q, ran, runsNext⟩ := bind_ok runs
  cases runsNext
  rcases fails _ q ran with fault | ⟨sticks, kept, at'⟩
  · exact .inl fault
  · exact .inr ⟨sticks, kept, ⟨at'.kind, at'.sameLine, at'.running⟩⟩

/-- What is read under another record flag. -/
theorem flagged {b' : Bool} {h : α → β} (fails : Fails stick m { p with noRecord := b' }) :
    Fails stick (do
      let saved ← pNoRecord
      pSetNoRecord b'
      let a ← m
      pSetNoRecord saved
      Pure.pure (h a)) p := by
  refine step (m := pNoRecord) rfl rfl ?_
  refine update (g := fun p => { p with noRecord := b' }) (fun _ => ⟨rfl, rfl, rfl⟩) ?_
  exact fails.restored fun _ => ⟨rfl, rfl, rfl⟩

/-- A loop whose turn fails fails, if its turns stop in front of a brace. -/
theorem loop {turn : β → P (Turn β)} {b : β} [grows : ∀ b, Grows Parser.faults (turn b)]
    (first : Fails stick (turn b) p) (stays : ∀ b q, AtBrace q → turn b q = .ok (.stop b, q)) :
    Fails stick (pLoop turn b) p := by
  intro b₁ t₁ runs
  rcases loop_ok runs with stops | ⟨b', t, goes, used, runs⟩
  · exact first _ _ stops
  · have later : Grows Parser.faults (pLoop turn b') := inferInstance
    rcases first _ _ goes with fault | ⟨sticks, kept, at'⟩
    · exact .inl (Nat.lt_of_lt_of_le fault (later.le runs))
    · cases runs.symm.trans (Descent.loop_stop (stays b' t at'))
      exact .inr ⟨sticks, kept, at'⟩

/-- A loop whose turn fails fails, if the turn stops where it sticks. -/
theorem loop_stopped {turn : β → P (Turn β)} {b : β} [grows : ∀ b, Grows Parser.faults (turn b)]
    (first : ∀ r q, turn b p = .ok (r, q) → p.faults < q.faults ∨
      (stick = true ∧ p.faults ≤ q.faults ∧ AtBrace q ∧ ∃ b', r = .stop b')) :
    Fails stick (pLoop turn b) p := by
  intro b₁ t₁ runs
  rcases loop_ok runs with stops | ⟨b', t, goes, used, runs⟩
  · exact (first _ _ stops).imp_right fun ⟨sticks, kept, at', _⟩ => ⟨sticks, kept, at'⟩
  · have later : Grows Parser.faults (pLoop turn b') := inferInstance
    have fault := (first _ _ goes).resolve_right fun ⟨_, _, _, _, same⟩ => by cases same
    exact .inl (Nat.lt_of_lt_of_le fault (later.le runs))

theorem loop_fault {turn : β → P (Turn β)} {b : β} [grows : ∀ b, Grows Parser.faults (turn b)]
    (first : Fails false (turn b) p) : Fails stick (pLoop turn b) p := by
  intro b₁ t₁ runs
  rcases loop_ok runs with stops | ⟨b', t, goes, used, runs⟩
  · exact first.weaken _ _ stops
  · have later : Grows Parser.faults (pLoop turn b') := inferInstance
    have fault := (first _ _ goes).resolve_right fun stuck => by cases stuck.1
    exact .inl (Nat.lt_of_lt_of_le fault (later.le runs))

end Fails

/-! ## Parse functions that fail -/

/-- With room enough, the function fails on the tokens, whatever follows them. -/
def Rejects {α : Type} (f : Parsers → P α) (stick flag : Bool) (levels : Nat)
    (toks : List Token) : Prop :=
  ∀ᶠ n in atTop, ∀ p rest, Before flag levels toks rest p → Fails stick (f (parsers n)) p

namespace Rejects

variable {α : Type} {f : Parsers → P α} {stick flag : Bool} {levels : Nat} {toks : List Token}

theorem call (body : Parsers → P α) (calls : ∀ n, f (parsers (n + 1)) = framed (body (parsers n)))
    (rejects : Rejects body stick flag levels toks) : Rejects f stick flag levels toks := by
  refine eventually_step (fun n holds p rest before => ?_) rejects
  rw [calls]
  exact Fails.framed (holds p.called rest
    ⟨before.toks, before.running, before.noRecord, before.depth⟩)

theorem underCeiling {body : Parsers → P α} {placeholder : α}
    (rejects : Rejects body stick flag levels toks) :
    Rejects (fun r => underCeiling (body r) placeholder) stick flag (levels + 1) toks := by
  refine rejects.mono fun n holds p rest before => ?_
  have room := before.depth
  refine Fails.underCeiling (by omega) (holds _ rest ?_)
  refine ⟨before.toks, before.running, before.noRecord, ?_⟩
  change p.depth + 1 + levels ≤ ceiling
  omega

theorem mono {more : Nat} (rejects : Rejects f stick flag levels toks) (le : levels ≤ more) :
    Rejects f stick flag more toks :=
  Filter.Eventually.mono rejects fun _ holds p rest before => holds p rest (before.mono le)

theorem weaken (rejects : Rejects f false flag levels toks) : Rejects f stick flag levels toks :=
  Filter.Eventually.mono rejects fun _ holds p rest before => (holds p rest before).weaken

/-- Tokens that begin with tokens that are rejected. -/
theorem append (rejects : Rejects f stick flag levels toks) (more : List Token) :
    Rejects f stick flag levels (toks ++ more) :=
  Filter.Eventually.mono rejects fun _ holds p _ before => holds p _ before.split

end Rejects

/-- The tokens open as a primary does, and the postfix loop over them fails. -/
structure BadSpine (stick flag : Bool) (levels : Nat) (toks : List Token) : Prop where
  opens : ∃ t more, toks = t :: more ∧ unopForKind t.kind = none
  rejects : ∀ nl, Rejects parsePostfix stick flag levels (opened nl toks)

/-- The tokens are rejected wherever an expression of the power `pw` may stand bare. -/
structure Rejected (stick flag : Bool) (pw levels : Nat) (toks : List Token) : Prop where
  chain : ∀ nl, ∀ᶠ n in atTop, ∀ m p rest, m ≤ pw → Before flag levels (opened nl toks) rest p →
    Fails stick (parseBinInner (parsers n) m) p
  unary : 70 ≤ pw → ∀ nl, Rejects (·.unary) stick flag levels (opened nl toks)
  spine : 80 ≤ pw → ∀ inner, levels ≤ inner + 1 → BadSpine stick flag inner toks

section Ladder

variable {stick flag : Bool} {pw levels : Nat} {toks : List Token}

theorem BadSpine.mono {more : Nat} (bad : BadSpine stick flag levels toks) (le : levels ≤ more) :
    BadSpine stick flag more toks :=
  ⟨bad.opens, fun nl => (bad.rejects nl).mono le⟩

theorem postfixTurn_stays {r : Parsers} (e : Expr) (q : Parser) (at' : AtBrace q) :
    postfixTurn r e q = .ok (.stop e, q) :=
  postfixTurn_stops at'.running (.inr (by rw [at'.kind]; rfl))

theorem binTurn_stays {r : Parsers} {m : Nat} (e : Expr) (q : Parser) (at' : AtBrace q) :
    binTurn r m e q = .ok (.stop e, q) :=
  binTurn_stops at'.running (.inr fun op found => by rw [at'.kind] at found; cases found)

theorem BadSpine.unary (bad : BadSpine stick flag levels toks) (nl : Bool) :
    Rejects (·.unary) stick flag (levels + 1) (opened nl toks) := by
  refine .call parseUnary (fun _ => rfl) (.underCeiling ?_)
  refine .call parseUnaryInner (fun _ => rfl) ?_
  have postfixes : Rejects (·.postfixExpr) stick flag levels (opened nl toks) :=
    .call parsePostfix (fun _ => rfl) (bad.rejects nl)
  obtain ⟨t, more, rfl, notUnary⟩ := bad.opens
  refine Filter.Eventually.mono postfixes fun n holds p rest before => ?_
  refine .here (pKind_at before) ?_
  simp only [notUnary]
  exact holds p rest before

theorem chain_of_unary (unary : Rejects (·.unary) stick flag levels toks) :
    ∀ᶠ n in atTop, ∀ m p rest, m ≤ pw → Before flag levels toks rest p →
      Fails stick (parseBinInner (parsers n) m) p := by
  refine Filter.Eventually.mono unary fun n holds m p rest _ before => ?_
  refine .bind (holds p rest before) fun sticks e q _ at' => ?_
  intro a t runs
  cases runs.symm.trans (Descent.loop_stop (binTurn_stays e q at'))
  exact .inr ⟨sticks, Nat.le_refl _, at'⟩

theorem Rejected.of_spine (bad : BadSpine stick flag levels toks) :
    Rejected stick flag 80 (levels + 1) toks where
  chain nl := chain_of_unary (bad.unary nl)
  unary _ nl := bad.unary nl
  spine _ _ le := bad.mono (Nat.le_of_succ_le_succ le)

theorem Rejected.mono {more : Nat} (rejected : Rejected stick flag pw levels toks)
    (le : levels ≤ more) : Rejected stick flag pw more toks where
  chain nl := (rejected.chain nl).mono fun _ holds m p rest small before =>
    holds m p rest small (before.mono le)
  unary tight nl := (rejected.unary tight nl).mono le
  spine tight inner above := rejected.spine tight inner (le.trans above)

theorem Rejected.bin (rejected : Rejected stick flag pw levels toks) (nl : Bool) {m : Nat}
    (le : m ≤ pw) : Rejects (·.bin m) stick flag (levels + 1) (opened nl toks) := by
  refine .call (fun r => parseBin r m) (fun _ => rfl) (.underCeiling ?_)
  refine .call (fun r => parseBinInner r m) (fun _ => rfl) ?_
  exact (rejected.chain nl).mono fun n holds p rest before => holds m p rest le before

theorem Rejected.expr (rejected : Rejected stick flag pw levels toks) (nl : Bool) :
    Rejects (·.expr) stick flag (levels + 1) (opened nl toks) :=
  .call parseExpr (fun _ => rfl) (rejected.bin nl (Nat.zero_le pw))

theorem Rejected.exprNoRecord (rejected : Rejected stick true pw levels toks) (nl : Bool) :
    Rejects (·.exprNoRecord) stick flag (levels + 1) (opened nl toks) := by
  refine .call parseExprNoRecord (fun _ => rfl) ?_
  refine Filter.Eventually.mono (rejected.bin nl (Nat.zero_le pw)) fun n holds p rest before => ?_
  exact Fails.flagged (h := id) (holds _ rest (before.reflag true))

/-- An expression that opens a line or another production. -/
theorem Rejected.value (rejected : Rejected stick flag pw levels toks) (opening : Opening toks)
    {room : Nat} (le : levels + 1 ≤ room) : Rejects (·.expr) stick flag room toks :=
  (opening.same ▸ rejected.expr false).mono le

end Ladder

/-! ## Lists of which one fails -/

section Lists

variable {α : Type} {m : P α} {stops : P Bool} {flag : Bool} {levels : Nat}
  {follow : Nat → Token → Prop} {opener : Kind → Prop}

/-- The items up to one are read back, and that one fails. -/
inductive SomeItem (m : P α) (flag : Bool) (levels : Nat) (follow : Nat → Token → Prop)
    (opener : Kind → Prop) : List α → List (List Token) → Prop where
  | here {a : α} {toks : List Token} {items : List α} {others : List (List Token)}
      (fails : ∀ p rest, Before flag levels toks rest p → Fails true m p)
      (opens : ∃ t more, toks = t :: more ∧ opener t.kind) :
      SomeItem m flag levels follow opener (a :: items) (toks :: others)
  | later {a : α} {toks : List Token} {items : List α} {others : List (List Token)}
      (item : Item m flag levels follow opener a toks)
      (rest : SomeItem m flag levels follow opener items others) :
      SomeItem m flag levels follow opener (a :: items) (toks :: others)

theorem SomeItem.opens {items : List α} {toks : List (List Token)}
    (some : SomeItem m flag levels follow opener items toks) :
    ∃ first others t more, toks = first :: others ∧ first = t :: more ∧ opener t.kind := by
  cases some with
  | here _ opens =>
      obtain ⟨t, more, rfl, opens⟩ := opens
      exact ⟨_, _, t, more, rfl, rfl, opens⟩
  | later item _ =>
      obtain ⟨t, more, rfl, opens⟩ := item.opens
      exact ⟨_, _, t, more, rfl, rfl, opens⟩

theorem commaLoop_fails [Grows Parser.faults m] [Grows Parser.faults stops] {items : List α}
    {toks : List (List Token)} (some : SomeItem m flag levels follow opener items toks)
    (goes : KeepsGoing stops opener) (comma : ∀ g, follow g (sym .comma)) (seen : List α)
    (p : Parser) (rest : List Token) (before : Before flag levels (commaSep toks) rest p) :
    Fails true (pLoop (fun seen => do
      if ← stops then return .stop seen else commaTurn m seen) seen) p := by
  induction some generalizing seen p with
  | @here a toks items others fails opens =>
      rw [commaSep_cons] at before
      have before := before.split
      obtain ⟨t, more, rfl, opens⟩ := opens
      have stays : stops p = .ok (false, p) := goes p before.running (by rwa [before.kind])
      refine .loop_stopped fun decided q runs => ?_
      obtain ⟨a', u, ran, runs⟩ := bind_ok ((run_bind stays).symm.trans runs)
      have next : Grows Parser.faults (do
          if ← pEat .comma then return .again (seen ++ [a']) else return .stop (seen ++ [a']) :
            P (Turn (List α))) := inferInstance
      rcases fails p _ before a' u ran with fault | ⟨sticks, kept, at'⟩
      · exact .inl (Nat.lt_of_lt_of_le fault (next.le runs))
      · have noComma : pEat .comma u = .ok (false, u) := pEat_not (by rw [at'.kind]; decide)
        cases (run_bind noComma).symm.trans runs
        exact .inr ⟨sticks, kept, at', _, rfl⟩
  | @later a toks items others item others' ih =>
      obtain ⟨first, others, t, more, rfl, -⟩ := others'.opens
      have split : commaSep (toks :: first :: others) =
          (toks ++ [sym .comma]) ++ commaSep (first :: others) := by
        rw [List.append_assoc]
        rfl
      rw [split] at before
      have turned := item.again goes before.split (comma _) seen
      refine .afterLeads (.again turned (by simp)) fun q reads => ?_
      exact ih (seen ++ [a]) q (before.after reads)

theorem commaList_fails [Grows Parser.faults m] [Grows Parser.faults stops] {items : List α}
    {toks : List (List Token)} (close : Kind)
    (some : SomeItem m flag levels follow opener items toks) (goes : KeepsGoing stops opener)
    (comma : ∀ g, follow g (sym .comma)) (noOpener : ¬ opener close) (p : Parser)
    (rest : List Token) (before : Before flag levels (commaSep toks) rest p) :
    Fails true (commaList close stops m) p := by
  refine .here (m := pAt close) rfl ?_
  obtain ⟨first, others, t, more, rfl, rfl, opens⟩ := some.opens
  have loops := commaLoop_fails some goes comma [] p rest before
  rw [commaSep_cons] at before
  have kind : p.kind = t.kind := before.split.kind
  have unclosed : ¬ (decide (p.kind = close) = true) := fun here => by
    rw [← of_decide_eq_true here, kind] at noOpener
    exact noOpener opens
  change Fails true (if decide (p.kind = close) = true then pure [] else commaLoop stops m) p
  rw [if_neg unclosed]
  exact loops

/-- With room enough, one of the items fails. -/
def SomeItems (f : Parsers → P α) (flag : Bool) (levels : Nat) (follow : Nat → Token → Prop)
    (opener : Kind → Prop) (items : List α) (toks : List (List Token)) : Prop :=
  ∀ᶠ n in atTop, SomeItem (f (parsers n)) flag levels follow opener items toks

theorem SomeItems.here {f : Parsers → P α} {a : α} {toks : List Token} {items : List α}
    {others : List (List Token)} (rejects : Rejects f true flag levels toks)
    (opens : ∃ t more, toks = t :: more ∧ opener t.kind) :
    SomeItems f flag levels follow opener (a :: items) (toks :: others) :=
  Filter.Eventually.mono rejects fun _ fails => .here fails opens

theorem SomeItems.later {f : Parsers → P α} {a : α} {toks : List Token} {items : List α}
    {others : List (List Token)} (parses : Parses f a flag levels toks follow)
    (opens : ∃ t more, toks = t :: more ∧ opener t.kind)
    (rest : SomeItems f flag levels follow opener items others) :
    SomeItems f flag levels follow opener (a :: items) (toks :: others) := by
  filter_upwards [parses, rest] with n gives rest
  exact .later ⟨gives, opens⟩ rest

variable {element : List α → P (List α)}

/-- The lines up to one are read back, and that one fails. -/
inductive SomeLineOf (opener : Kind → Prop) (element : List α → P (List α)) (flag : Bool)
    (levels : Nat) : List α → List (List Token) → Prop where
  | here {a : α} {toks : List Token} {items : List α} {others : List (List Token)}
      (fails : ∀ seen p rest, Before flag levels toks rest p → Fails false (element seen) p)
      (opens : ∃ t more, toks = t :: more ∧ t.nlBefore = true ∧ t.kind ≠ .rbrace ∧
        t.kind ≠ .eof ∧ opener t.kind) :
      SomeLineOf opener element flag levels (a :: items) (toks :: others)
  | later {a : α} {toks : List Token} {items : List α} {others : List (List Token)}
      (line : LineOf opener element flag levels a toks)
      (rest : SomeLineOf opener element flag levels items others) :
      SomeLineOf opener element flag levels (a :: items) (toks :: others)

theorem SomeLineOf.opens {items : List α} {toks : List (List Token)}
    (some : SomeLineOf opener element flag levels items toks) :
    ∃ first others t more, toks = first :: others ∧ first = t :: more ∧ t.nlBefore = true ∧
      t.kind ≠ .rbrace ∧ t.kind ≠ .eof ∧ opener t.kind := by
  cases some with
  | here _ opens =>
      obtain ⟨t, more, rfl, opens⟩ := opens
      exact ⟨_, _, t, more, rfl, rfl, opens⟩
  | later line _ =>
      obtain ⟨t, more, rfl, opens⟩ := line.opens
      exact ⟨_, _, t, more, rfl, rfl, opens⟩

theorem bodyLoop_fails {ctx : String} [∀ seen, Grows Parser.faults (element seen)]
    {items : List α} {toks : List (List Token)}
    (some : SomeLineOf opener element flag levels items toks) (seen : List α) (p : Parser)
    (rest : List Token) (before : Before flag levels toks.flatten rest p)
    (outside : p.groupDepth = 0) : Fails false (bodyLoop ctx element seen) p := by
  induction some generalizing seen p with
  | @here a toks items others fails opens =>
      rw [List.flatten_cons] at before
      have before := before.split
      obtain ⟨t, more, rfl, -, notBrace, real, -⟩ := opens
      refine .loop_fault ?_
      refine .here (pAt_no (by rwa [before.kind])) ?_
      have goes : pAtEnd p = .ok (false, p) := by
        change Except.ok (p.hitDepthLimit || decide (p.kind = .eof), p) = _
        rw [before.running, decide_eq_false (by rwa [before.kind])]
        rfl
      refine .here goes (.here (m := ask Parser.pos) rfl ?_)
      exact .bind_fault (fails seen p _ before)
  | @later a toks items others line others' ih =>
      rw [List.flatten_cons] at before
      obtain ⟨first, others, t, more, rfl, rfl, newLine, -, -, opens⟩ := others'.opens
      have follows : EndsBody opener p.groupDepth (next (((t :: more) :: others).flatten ++ rest)) :=
        ⟨outside, .inl ⟨newLine, opens⟩⟩
      have turned := line.turn ctx seen p before.split follows
      obtain ⟨t', more', same, -⟩ := line.opens
      refine .afterLeads (.again turned (by simp [same])) fun q reads => ?_
      exact ih (seen ++ [a]) q (before.after reads) (reads.groupDepth.trans outside)

/-- With room enough, one of the lines fails. -/
def SomeLinesOf (opener : Kind → Prop) (element : Parsers → List α → P (List α)) (flag : Bool)
    (levels : Nat) (items : List α) (toks : List (List Token)) : Prop :=
  ∀ᶠ n in atTop, SomeLineOf opener (element (parsers n)) flag levels items toks

/-- One line of a block or of the arms of a match fails. -/
abbrev SomeLines : (Parsers → List α → P (List α)) → Bool → Nat → List α → List (List Token) →
    Prop :=
  SomeLinesOf (· ≠ .kw .else_)

end Lists

/-! ## Operands -/

section Operands

variable {stick flag : Bool} {pw levels : Nat} {toks : List Token}

theorem Rejects.primary {t : Token} {more : List Token} (notLit : ∀ l, t.kind ≠ .lit l)
    (byToken : Rejects (fun r => primaryByToken r t) stick flag levels (t :: more)) :
    Rejects (·.primary) stick flag levels (t :: more) := by
  refine .call parsePrimary (fun _ => rfl) ?_
  refine Filter.Eventually.mono byToken fun n holds p rest before => ?_
  refine .here (pTok_at before) (.here (Gives.noLiteral before notLit) ?_)
  exact holds p rest before

theorem BadSpine.of_primary (opens : ∃ t more, toks = t :: more ∧ unopForKind t.kind = none)
    (primary : ∀ nl, Rejects (·.primary) stick flag levels (opened nl toks)) :
    BadSpine stick flag levels toks where
  opens := opens
  rejects nl := by
    refine Filter.Eventually.mono (primary nl) fun n holds p rest before => ?_
    refine .bind (holds p rest before) fun sticks e q _ at' => ?_
    intro a t runs
    cases runs.symm.trans (Descent.loop_stop (postfixTurn_stays e q at'))
    exact .inr ⟨sticks, Nat.le_refl _, at'⟩

/-- A postfix operator behind what fails. -/
theorem BadSpine.append (bad : BadSpine stick flag levels toks) (more : List Token) :
    BadSpine stick flag levels (toks ++ more) where
  opens := by
    obtain ⟨t, others, rfl, notUnary⟩ := bad.opens
    exact ⟨t, _, rfl, notUnary⟩
  rejects nl := by
    obtain ⟨t, others, rfl, notUnary⟩ := bad.opens
    exact (bad.rejects nl).append more

/-- A postfix operator that fails, behind what is read back. -/
theorem Spine.rejects {e : Expr} {t : Token} {more : List Token} (spine : Spine flag levels toks e)
    (notBrace : t.kind ≠ .lbrace)
    (turn : ∀ᶠ n in atTop, ∀ p rest, Before flag levels (t :: more) rest p →
      Fails false (postfixTurn (parsers n) e) p) :
    BadSpine stick flag levels (toks ++ t :: more) where
  opens := by
    obtain ⟨t', more', rfl, notUnary⟩ := spine.opens
    exact ⟨t', _, rfl, notUnary⟩
  rejects nl := by
    obtain ⟨t', more', rfl, notUnary⟩ := spine.opens
    filter_upwards [spine.leads nl, turn] with n leads turn p rest before
    have before : Before flag levels (opened nl (t' :: more') ++ t :: more) rest p := before
    refine .afterLeads (leads p _ before.split fun _ brace => absurd brace notBrace)
      fun q reads => ?_
    exact .loop_fault (turn q rest (before.after reads))

/-- The elements of a tuple behind those that were read, one of which fails. -/
theorem tupleLoop_fails {r : Parsers} [KeepsFaults r] {elems : List Expr}
    {items : List (List Token)}
    (some : SomeItem r.expr flag levels (EndsExpr flag 0) OpensExpr elems items)
    (seen : List Expr) (p : Parser) (rest : List Token)
    (before : Before flag levels (items.flatMap (sym .comma :: ·)) rest p) :
    Fails true (pLoop (tupleTurn r) seen) p := by
  induction some generalizing seen p with
  | @here e toks elems others fails opens =>
      rw [List.flatMap_cons] at before
      refine .loop ?_ fun b q at' => run_bind (pEat_not (by rw [at'.kind]; decide))
      have before := before.split
      refine .one (Gives.eat before rfl) before fun q before => ?_
      exact (fails q _ before).map
  | @later e toks elems others item others' ih =>
      rw [List.flatMap_cons] at before
      have turned : Gives (tupleTurn r seen) (.again (seen ++ [e])) (sym .comma :: toks) p := by
        have before := before.split
        refine (Gives.eat before rfl).one before fun q group before => ?_
        refine Gives.map (f := fun e => Turn.again (seen ++ [e])) (item.gives q _ before ?_)
        obtain ⟨first, others, t, more, rfl, -⟩ := others'.opens
        exact .closing rfl
      refine .afterLeads (.again turned (List.cons_ne_nil _ _)) fun q reads => ?_
      exact ih (seen ++ [e]) q (before.after reads)

theorem parenElems_fails {r : Parsers} [KeepsFaults r] {elems : List Expr}
    {items : List (List Token)}
    (some : SomeItem r.expr flag levels (EndsExpr flag 0) OpensExpr elems items) (p : Parser)
    (rest : List Token) (before : Before flag levels (commaSep items) rest p) :
    Fails true (parenElems r) p := by
  cases some with
  | @here e toks elems others fails opens =>
      rw [commaSep_cons] at before
      have before := before.split
      obtain ⟨t, more, rfl, opens⟩ := opens
      refine .here (pAt_no (by rw [before.kind]; exact OpensExpr.ne opens rfl)) ?_
      refine .bind (fails p _ before) fun _ e q _ at' => ?_
      have stops : tupleTurn r [e] q = .ok (.stop [e], q) :=
        run_bind (pEat_not (by rw [at'.kind]; decide))
      intro a t runs
      cases runs.symm.trans (Descent.loop_stop stops)
      exact .inr ⟨rfl, Nat.le_refl _, at'⟩
  | @later e toks elems others item others' =>
      rw [commaSep_cons] at before
      refine .here (pAt_no ((item.kind before.split).ne rfl)) ?_
      have first : Gives r.expr e toks p := by
        refine item.gives p _ before.split ?_
        obtain ⟨first, others, t, more, rfl, -⟩ := others'.opens
        exact .closing rfl
      exact .part first before fun q _ before => tupleLoop_fails others' [e] q rest before

theorem grouped_ok {α : Type} {m : P α} {a : α} {p q : Parser}
    (runs : grouped m p = .ok (a, q)) :
    ∃ u, m { p with groupDepth := p.groupDepth + 1, noRecord := false } = .ok (a, u) := by
  obtain ⟨_, s, entered, runs⟩ := bind_ok runs
  cases entered
  obtain ⟨_, s, asked, runs⟩ := bind_ok runs
  cases asked
  obtain ⟨_, s, cleared, runs⟩ := bind_ok runs
  cases cleared
  obtain ⟨b, u, ran, runs⟩ := bind_ok runs
  cases runs
  exact ⟨u, ran⟩

/-- What stands in parentheses that do not close at once is something. -/
theorem parenElems_ne_nil {r : Parsers} {elems : List Expr} {p q : Parser}
    (unclosed : p.kind ≠ .rparen) (runs : parenElems r p = .ok (elems, q)) : elems ≠ [] := by
  obtain ⟨first, u, -, runs⟩ := bind_ok ((run_bind (pAt_no unclosed)).symm.trans runs)
  have turns (seen : List Expr) (s : Parser) (decided : Turn (List Expr)) (t : Parser)
      (some : seen ≠ []) (turned : tupleTurn r seen s = .ok (decided, t)) (b' : List Expr)
      (goes : decided = .again b' ∨ decided = .stop b') : b' ≠ [] := by
    obtain ⟨comma, v, -, turned⟩ := bind_ok turned
    cases comma with
    | true =>
        obtain ⟨e, w, -, turned⟩ := bind_ok turned
        cases turned
        rcases goes with same | same
        · cases same
          simp
        · cases same
    | false =>
        cases turned
        rcases goes with same | same
        · cases same
        · cases same
          exact some
  exact loop_keeps turns (List.cons_ne_nil first []) runs

/-- Parentheses around items of which one fails. -/
theorem parens_bad {elems : List Expr} {items : List (List Token)}
    (some : SomeItems (·.expr) false levels (EndsExpr false 0) OpensExpr elems items) :
    BadSpine stick flag levels (inParens (commaSep items)) := by
  refine .of_primary ⟨_, _, rfl, rfl⟩ fun nl => ?_
  refine Rejects.primary (t := symOn nl .lparen) (fun _ here => by cases here) ?_
  have paren : Rejects (·.paren) stick flag levels
      (symOn nl .lparen :: (commaSep items ++ [sym .rparen])) := by
    refine .call parseParen (fun _ => rfl) ?_
    refine Filter.Eventually.mono some fun n some p rest before => ?_
    refine .one (Gives.bump before (by simp [symOn])) before fun q before => ?_
    have inside := before.split.grouped
    have unclosed : q.kind ≠ .rparen := by
      obtain ⟨first, others, t, more, rfl, rfl, opens⟩ := some.opens
      rw [commaSep_cons] at before
      rw [before.split.split.kind]
      exact OpensExpr.ne opens rfl
    refine .bind (Fails.grouped (parenElems_fails some _ _ inside)) fun _ elems u ran at' => ?_
    obtain ⟨v, ran⟩ := grouped_ok ran
    rw [if_neg (parenElems_ne_nil (p := { q with groupDepth := _, noRecord := false }) unclosed ran)]
    exact .bind_fault (.expect at' (by decide))
  exact paren

theorem callArgs_rejects {args : List Arg} {items : List (List Token)}
    (some : SomeItems (·.arg) false levels EndsItem OpensExpr args items) :
    Rejects (·.callArgs) false flag levels (inParens (commaSep items)) := by
  refine .call parseCallArgs (fun _ => rfl) ?_
  refine Filter.Eventually.mono some fun n some p rest before => ?_
  refine .one (Gives.bump before (by decide)) before fun q before => ?_
  have listed := commaList_fails .rparen some exprsGoOn (fun _ => rfl)
    (by simp [OpensExpr, opensExpr]) _ _ before.split.grouped
  refine .bind (Fails.grouped listed) fun _ args u _ at' => ?_
  exact .bind_fault (.expect at' (by decide))

theorem list_bad {elems : List Expr} {items : List (List Token)}
    (some : SomeItems (·.expr) false levels (EndsExpr false 0) OpensExpr elems items) :
    BadSpine stick flag levels (inBrackets (commaSep items)) := by
  refine .of_primary ⟨_, _, rfl, rfl⟩ fun nl => ?_
  refine Rejects.primary (t := symOn nl .lbracket) (fun _ here => by cases here) ?_
  have list : Rejects (·.list) stick flag levels
      (symOn nl .lbracket :: (commaSep items ++ [sym .rbracket])) := by
    refine .call parseList (fun _ => rfl) ?_
    refine Filter.Eventually.mono some fun n some p rest before => ?_
    refine .one (Gives.bump before (by simp [symOn])) before fun q before => ?_
    have listed := commaList_fails .rbracket some exprsGoOn (fun _ => .closing rfl)
      (by simp [OpensExpr, opensExpr]) _ _ before.split.grouped
    refine .bind (Fails.grouped listed) fun _ elems u _ at' => ?_
    exact .bind_fault (.expect at' (by decide))
  exact list

theorem Spine.call_rejects {e : Expr} (spine : Spine flag levels toks e) {args : List Arg}
    {items : List (List Token)}
    (some : SomeItems (·.arg) false levels EndsItem OpensExpr args items) :
    BadSpine stick flag levels (toks ++ inParens (commaSep items)) := by
  refine spine.rejects (by simp [sym, symOn]) ?_
  have args : Rejects (·.callArgs) false flag levels (inParens (commaSep items)) :=
    callArgs_rejects some
  refine Filter.Eventually.mono args fun n holds p rest before => ?_
  refine .here (before.goesOn rfl) (.here (pAt_yes before.kind) ?_)
  exact (holds p rest before).map

theorem Spine.index_rejects {e : Expr} (spine : Spine flag levels toks e) {inner : Nat}
    {keyToks : List Token} (rejected : Rejected true false pw inner keyToks)
    (opening : Opening keyToks) (le : inner + 1 ≤ levels) :
    BadSpine stick flag levels (toks ++ inBrackets keyToks) := by
  refine spine.rejects (by simp [sym, symOn]) ?_
  refine Filter.Eventually.mono (rejected.value opening le) fun n holds p rest before => ?_
  refine .here (before.goesOn rfl) ?_
  refine .here (pAt_no (by rw [before.kind]; decide)) (.here (pAt_yes before.kind) ?_)
  refine .one (Gives.bump before (by decide)) before fun q before => ?_
  refine .bind (Fails.grouped (holds _ _ before.split.grouped)) fun _ key u _ at' => ?_
  exact .bind_fault (.expect at' (by decide))

/-- A group of one expression that fails. -/
theorem grouped_expr_fails {α : Type} {r : Parsers} [KeepsFaults r] {k : Kind} {what : String}
    {f : Expr → α} {p : Parser} (other : k ≠ .lbrace)
    (fails : Fails true r.expr { p with groupDepth := p.groupDepth + 1, noRecord := false }) :
    Fails stick (do
      let e ← grouped r.expr
      pExpect k what
      return f e) p := by
  refine .bind (Fails.grouped fails) fun _ e u _ at' => ?_
  exact .bind_fault (.expect at' other)

/-- A primary that opens with an identifier. -/
theorem ident_bad {name : CString} (isIdent : IsIdent name) {more : List Token}
    (rejects : ∀ nl, Rejects (fun r => parseIdentPrimary r (wordOn nl name)) stick flag levels
      (wordOn nl name :: more)) : BadSpine stick flag levels (word name :: more) := by
  refine .of_primary ⟨_, _, rfl, by rw [Parse.word, isIdent.kind]; rfl⟩ fun nl => ?_
  refine Rejects.primary (t := wordOn nl name) (fun l here => ?_) ?_
  · rw [isIdent.kind] at here
    cases here
  have called : Rejects (fun r => r.identPrimary (wordOn nl name)) stick flag levels
      (wordOn nl name :: more) :=
    .call (fun r => parseIdentPrimary r (wordOn nl name)) (fun _ => rfl) (rejects nl)
  refine Filter.Eventually.mono called fun n holds p rest before => ?_
  change Fails stick (primaryByToken (parsers n) (wordOn nl name)) p
  rw [primaryByToken_ident (isIdent.kind nl)]
  exact holds p rest before

theorem ctor_bad {name : CString} (isIdent : IsIdent name) {ctor : Expr → Expr}
    (known : ctorForName name = some ctor) {inner : Nat}
    (rejected : Rejected true false pw inner toks) (opening : Opening toks)
    (le : inner + 1 ≤ levels) : BadSpine stick flag levels (word name :: inParens toks) := by
  refine ident_bad isIdent fun nl => ?_
  refine Filter.Eventually.mono (rejected.value opening le) fun n holds p rest before => ?_
  refine .here (pKind2_at before) ?_
  have text : (wordOn nl name).text = name := rfl
  rw [text, known]
  simp only
  rw [if_pos (show (next (inParens toks ++ rest)).kind = .lparen from rfl)]
  refine .one (Gives.bump before (isIdent.real nl)) before fun q before => ?_
  refine .one (Gives.bump before (by decide)) before fun q before => ?_
  exact grouped_expr_fails (by decide) (holds _ _ before.split.grouped)

theorem name_bad {name : CString} (isName : IsName name) {more : List Token}
    (rejects : ∀ nl, Rejects (fun r => parseName r (wordOn nl name)) stick flag levels
      (wordOn nl name :: more)) : BadSpine stick flag levels (word name :: more) := by
  refine ident_bad isName.1 fun nl => ?_
  refine Filter.Eventually.mono (rejects nl) fun n holds p rest before => ?_
  refine .here (pKind2_at before) ?_
  have text : (wordOn nl name).text = name := rfl
  rw [text, isName.noCtor]
  exact holds p rest before

/-- A record literal that stands bare where none may is read as its name. -/
theorem bare_record_bad {name : CString} (isName : IsName name) (more : List Token) :
    BadSpine true true levels (word name :: sym .lbrace :: more) := by
  refine name_bad isName fun nl => .of_forall fun n p rest before => ?_
  refine .here (pKind2_at before) ?_
  have text : (wordOn nl name).text = name := rfl
  rw [text, if_neg isName.ne_none, if_neg fun isMap => isName.ne_map isMap.1]
  refine .one (Gives.bump before (isName.1.real nl)) before fun q before => ?_
  refine .here (m := pAt .lbrace) rfl (.here (m := pNoRecord) rfl (.here (m := pNlHere) rfl ?_))
  rw [if_neg]
  · exact .pure ⟨before.kind, by rw [before.tok]; rfl, before.running⟩
  · rintro ⟨-, allowed, -⟩
    rw [before.noRecord] at allowed
    cases allowed

theorem recordField_rejects {name : CString} (isIdent : IsIdent name) {inner : Nat}
    (rejected : Rejected true false pw inner toks) (opening : Opening toks)
    (le : inner + 1 ≤ levels) :
    Rejects recordField true flag levels (word name :: sym .colon :: toks) := by
  refine Filter.Eventually.mono (rejected.value opening le) fun n holds p rest before => ?_
  refine .one (Gives.ident before isIdent rfl) before fun q before => ?_
  refine .one (Gives.expect before rfl) before fun q before => ?_
  exact Fails.flagged (h := Field.mk name) (holds _ rest (before.reflag false))

theorem recordLit_bad {name : CString} (isName : IsName name) {fields : List Field}
    {items : List (List Token)}
    (some : SomeItems recordField false levels (EndsExpr false 0) (· = .ident) fields items) :
    BadSpine stick false levels (word name :: inBraces (commaSep items)) := by
  refine name_bad isName fun nl => ?_
  have literal : Rejects (fun r => r.recordLit name) stick false levels
      (inBraces (commaSep items)) := by
    refine .call (fun r => parseRecordLit r name) (fun _ => rfl) ?_
    refine Filter.Eventually.mono some fun n some p rest before => ?_
    refine .one (Gives.bump before (by decide)) before fun q before => ?_
    refine .step (m := pBraceSave) rfl rfl ?_
    have listed := commaList_fails .rbrace some fieldsGoOn (fun _ => .closing rfl)
      (by decide) _ _ (before.regroup 0).split
    refine .bind listed fun _ fields u _ at' => ?_
    refine .update (fun _ => ⟨rfl, rfl, rfl⟩) (.bind_fault (.expect ?_ (by decide)))
    exact ⟨at'.kind, at'.sameLine, at'.running⟩
  refine Filter.Eventually.mono literal fun n holds p rest before => ?_
  refine .here (pKind2_at before) ?_
  have text : (wordOn nl name).text = name := rfl
  rw [text, if_neg isName.ne_none, if_neg fun isMap => isName.ne_map isMap.1]
  refine .one (Gives.bump before (isName.1.real nl)) before fun q before => ?_
  refine .here (m := pAt .lbrace) rfl (.here (m := pNoRecord) rfl (.here (m := pNlHere) rfl ?_))
  rw [if_pos]
  · exact holds q rest before
  · refine ⟨decide_eq_true before.kind, before.noRecord, ?_⟩
    change q.tok.nlBefore = false
    rw [before.tok]
    rfl

theorem mut_bad {inner : Nat} (rejected : Rejected true false pw inner toks)
    (opening : Opening toks) (le : inner + 1 ≤ levels) :
    BadSpine stick flag levels (sym (.kw .mut) :: inParens toks) := by
  refine .of_primary ⟨_, _, rfl, rfl⟩ fun nl => ?_
  refine Rejects.primary (t := symOn nl (.kw .mut)) (fun _ here => by cases here) ?_
  have mutExpr : Rejects (·.mutExpr) stick flag levels (symOn nl (.kw .mut) :: inParens toks) := by
    refine .call parseMutExpr (fun _ => rfl) ?_
    refine Filter.Eventually.mono (rejected.value opening le) fun n holds p rest before => ?_
    refine .one (Gives.bump before (by simp [symOn])) before fun q before => ?_
    refine .one (Gives.expect before rfl) before fun q before => ?_
    exact grouped_expr_fails (by decide) (holds _ _ before.split.grouped)
  exact mutExpr

theorem arg_rejects (label : Option CString) {inner : Nat}
    (named : ∀ name, label = some name → IsIdent name) (rejected : Rejected true false pw inner toks)
    (opening : Opening toks) (long : toks.tail ≠ []) (le : inner + 1 ≤ levels) :
    Rejects (·.arg) true false levels
      ((label.elim [] fun name => [word name, sym .colon]) ++ toks) := by
  refine .call parseArg (fun _ => rfl) ?_
  refine Filter.Eventually.mono (rejected.value opening le) fun n holds p rest before => ?_
  cases label with
  | none =>
      have before : Before false levels toks rest p := before
      exact .here (argLabel_none before opening fun alone => absurd alone long)
        (holds p rest before).map
  | some name =>
      have before : Before false levels (word name :: sym .colon :: toks) rest p := before
      exact .after (argLabel_some (named name rfl) before) fun q reads =>
        (holds q rest (before.after reads)).map

/-! ## Operators -/

theorem Rejected.prefixed {op : UnOp} (rejected : Rejected stick flag pw levels toks)
    (tight : 70 ≤ pw) (same : opened false toks = toks) :
    Rejected stick flag 70 (1 + levels) (sym (unopKind op) :: toks) := by
  have unary : ∀ nl, Rejects (·.unary) stick flag (1 + levels)
      (opened nl (sym (unopKind op) :: toks)) := by
    intro nl
    rw [Nat.add_comm]
    refine .call parseUnary (fun _ => rfl) (.underCeiling ?_)
    refine .call parseUnaryInner (fun _ => rfl) ?_
    refine Filter.Eventually.mono (same ▸ rejected.unary tight false) fun n holds p rest before => ?_
    have before : Before flag levels (symOn nl (unopKind op) :: toks) rest p := before
    refine .here (pKind_at before) ?_
    have known : unopForKind (symOn nl (unopKind op)).kind = some op := by cases op <;> rfl
    rw [known]
    have real : (symOn nl (unopKind op)).kind ≠ .eof := by cases op <;> simp [symOn, unopKind]
    refine .one (Gives.bump before real) before fun q before => ?_
    exact (holds q rest before).map
  exact ⟨fun nl => chain_of_unary (unary nl), fun _ => unary, fun above => by omega⟩

/-- An operator whose left operand fails. -/
theorem Rejected.infixLeft {op : BinOp} (rejected : Rejected stick flag pw levels toks)
    (tight : binLbp op ≤ pw) (start : ∀ nl others, opened nl (toks ++ others) =
      opened nl toks ++ others) {more : List Token} {room : Nat} (le : levels ≤ room) :
    Rejected stick flag (binLbp op) room (toks ++ more) := by
  have loose := binLbp_le op
  refine ⟨fun nl => ?_, fun above => by omega, fun above => by omega⟩
  refine (rejected.chain nl).mono fun n holds m p rest small before => ?_
  rw [start] at before
  exact holds m p _ (small.trans tight) (before.split.mono le)

/-- An operator whose right operand fails. -/
theorem Rejected.infixRight {op : BinOp} {left : Expr} {first : List Token} {pw' levels' : Nat}
    (lhs : Printed flag pw levels first left) (rejected : Rejected stick flag pw' levels' toks)
    (tight : binLbp op ≤ pw) (tight' : binLbp op + 1 ≤ pw')
    (start : ∀ nl others, opened nl (first ++ others) = opened nl first ++ others)
    (same : opened false toks = toks) :
    Rejected stick flag (binLbp op) (max levels (1 + levels'))
      (first ++ sym (binopKind op) :: toks) := by
  have loose := binLbp_le op
  refine ⟨fun nl => ?_, fun above => by omega, fun above => by omega⟩
  filter_upwards [lhs.chain nl, same ▸ rejected.bin false tight'] with n leads holds m p rest le
    before
  rw [start] at before
  have chained := leads m p _ (Nat.le_trans le tight)
    (before.split.mono (Nat.le_max_left _ _)) (endsExpr_binop tight)
  refine .afterLeads chained fun q reads => .loop ?_ fun e u at' => binTurn_stays e u at'
  have before := before.after reads
  refine .here (before.goesOn rfl) (.here (pKind_at before) ?_)
  rw [binop_found op]
  simp only [if_neg (Nat.not_lt.mpr le)]
  refine .one (Gives.bump before (by cases op <;> decide)) before fun q' before => ?_
  refine (holds q' rest (before.mono ?_)).map
  rw [Nat.add_comm]
  exact Nat.le_max_right _ _

end Operands

/-! ## Lines that fail -/

section Lines

variable {flag : Bool} {levels : Nat}

theorem block_rejects {stmts : List Stmt} {toks : List (List Token)}
    (some : SomeLines blockElement flag levels stmts toks) :
    Rejects (·.block) false flag (1 + levels) (inBraces toks.flatten) := by
  rw [Nat.add_comm]
  refine .call parseBlock (fun _ => rfl) (.underCeiling ?_)
  refine Filter.Eventually.mono some fun n some p rest before => ?_
  refine .one (Gives.expect before rfl) before fun q before => ?_
  refine .step (m := pBraceSave) rfl rfl ?_
  have growing (seen : List Stmt) : Grows Parser.faults (blockElement (parsers n) seen) := by
    unfold blockElement
    infer_instance
  have inside : Fails false (bodyLoop "unexpected token in the block" (blockElement (parsers n)) [])
      { q with groupDepth := 0 } :=
    bodyLoop_fails some [] _ _ (before.regroup 0).split rfl
  exact .bind_fault inside

theorem match_bad_scrutinee {stick : Bool} {pw inner : Nat} {header : List Token}
    (rejected : Rejected false true pw inner header) (opening : Opening header)
    (le : inner + 1 ≤ levels) (more : List Token) :
    BadSpine stick flag levels (sym (.kw .match_) :: (header ++ more)) := by
  refine .of_primary ⟨_, _, rfl, rfl⟩ fun nl => ?_
  refine Rejects.primary (t := symOn nl (.kw .match_)) (fun _ here => by cases here) ?_
  have scrut : Rejects (·.exprNoRecord) false flag levels header :=
    (opening.same ▸ rejected.exprNoRecord false).mono le
  have matched : Rejects (·.matchExpr) stick flag levels
      (symOn nl (.kw .match_) :: (header ++ more)) := by
    refine .call parseMatchExpr (fun _ => rfl) ?_
    refine Filter.Eventually.mono scrut fun n scrut p rest before => ?_
    refine .one (Gives.bump before (by simp [symOn])) before fun q before => ?_
    exact .bind_fault (scrut q _ before.split)
  exact matched

theorem match_bad_arms {stick : Bool} {pw inner : Nat} {scrutinee : Expr} {header : List Token}
    {arms : List Arm} {toks : List (List Token)} (printed : Printed true pw inner header scrutinee)
    (same : opened false header = header) (le : inner + 1 ≤ levels)
    (some : SomeLines matchElement flag levels arms toks) :
    BadSpine stick flag levels (sym (.kw .match_) :: (header ++ inBraces toks.flatten)) := by
  refine .of_primary ⟨_, _, rfl, rfl⟩ fun nl => ?_
  refine Rejects.primary (t := symOn nl (.kw .match_)) (fun _ here => by cases here) ?_
  have scrut : Parses (·.exprNoRecord) scrutinee flag (inner + 1) header _ :=
    same ▸ printed.exprNoRecord false
  have matched : Rejects (·.matchExpr) stick flag levels
      (symOn nl (.kw .match_) :: (header ++ inBraces toks.flatten)) := by
    refine .call parseMatchExpr (fun _ => rfl) ?_
    filter_upwards [scrut, some] with n scrut some p rest before
    refine .one (Gives.bump before (by simp [symOn])) before fun q before => ?_
    refine .part (scrut q _ (before.split.mono le) .brace) before fun q _ before => ?_
    refine .one (Gives.expect before rfl) before fun q before => ?_
    refine .step (m := pBraceSave) rfl rfl ?_
    have growing (seen : List Arm) : Grows Parser.faults (matchElement (parsers n) seen) := by
      unfold matchElement
      infer_instance
    have inside : Fails false
        (bodyLoop "unexpected token in the match arms" (matchElement (parsers n)) [])
        { q with groupDepth := 0 } :=
      bodyLoop_fails some [] _ _ (before.regroup 0).split rfl
    exact .bind_fault inside
  exact matched

/-- The pattern of an arm and its arrow, before what fails. -/
theorem armHead_fails {β : Type} {r : Parsers} {pat : PatternNode} {toks body rest : List Token}
    {p : Parser} {f : PatternNode → P β}
    (pattern : ∀ p rest, Before flag levels toks rest p → EndsPat p.groupDepth (next rest) →
      Gives r.pattern pat toks p)
    (before : Before flag levels (toks ++ sym .arrow :: body) rest p)
    (tail : ∀ q, Before flag levels body rest q → Fails false (f pat) q) :
    Fails false (do
      let pat ← r.pattern
      armArrow
      f pat) p := by
  refine .part (pattern p _ before.split (by simp [EndsPat, next, sym, symOn])) before
    fun q _ before => ?_
  have arrow : Gives armArrow () [sym .arrow] q := (Gives.eat before rfl).bind fun _ _ => .pure
  exact .one arrow before fun q before => tail q before

theorem armBlock_fails {r : Parsers} [KeepsFaults r] {pat : PatternNode}
    {toks block rest : List Token} {p : Parser}
    (pattern : ∀ p rest, Before flag levels toks rest p → EndsPat p.groupDepth (next rest) →
      Gives r.pattern pat toks p)
    (blocks : ∀ p rest, Before flag levels (inBraces block) rest p → Fails false r.block p)
    (before : Before flag levels (toks ++ sym .arrow :: inBraces block) rest p) :
    Fails false (matchArm r) p := by
  refine armHead_fails pattern before fun q before => ?_
  exact .here (pAt_yes before.kind) (.bind_fault (blocks q rest before))

theorem armExpr_fails {r : Parsers} [KeepsFaults r] {pat : PatternNode}
    {toks value rest : List Token} {p : Parser}
    (pattern : ∀ p rest, Before flag levels toks rest p → EndsPat p.groupDepth (next rest) →
      Gives r.pattern pat toks p)
    (opens : ∃ t more, value = t :: more ∧ OpensExpr t.kind)
    (values : ∀ p rest, Before flag levels value rest p → Fails true r.expr p)
    (before : Before flag levels (toks ++ sym .arrow :: value) rest p) :
    Fails false (matchArm r) p := by
  refine armHead_fails pattern before fun q before => ?_
  obtain ⟨t, more, rfl, opens⟩ := opens
  refine .here (pAt_no (by rw [before.kind]; exact OpensExpr.ne opens rfl)) ?_
  exact .bind (values q rest before) fun _ e u _ at' => .bind_fault (.sep at')

/-! ## Statements that fail -/

theorem stmt_rejects {t : Token} {more : List Token}
    (rejects : Rejects (fun r => stmtByKind r t.kind) true flag levels (t :: more)) :
    Rejects (·.stmt) true flag levels (t :: more) := by
  refine .call parseStmt (fun _ => rfl) ?_
  refine Filter.Eventually.mono rejects fun n holds p rest before => ?_
  refine (holds p rest before).of_faults_eq rfl ?_
  rw [parseStmt_eq, before.kind]

theorem exprStmt_rejects {toks : List Token} (opens : ∃ t more, toks = t :: more ∧
    OpensExpr t.kind) (rejects : Rejects exprStmt true flag levels toks) :
    Rejects (·.stmt) true flag levels toks := by
  obtain ⟨t, more, rfl, opens⟩ := opens
  refine stmt_rejects ?_
  rw [funext fun r => stmtByKind_of_opens (r := r) opens]
  exact rejects

/-- An expression that opens a statement and fails. -/
theorem expr_stmt_rejects {toks more : List Token} (opens : ∃ t others, toks = t :: others ∧
    OpensExpr t.kind) (expr : Rejects (·.expr) true flag levels toks) :
    Rejects (·.stmt) true flag levels (toks ++ more) := by
  refine exprStmt_rejects ?_ ?_
  · obtain ⟨t, others, rfl, opens⟩ := opens
    exact ⟨t, _, rfl, opens⟩
  refine Filter.Eventually.mono (expr.append more) fun n holds p rest before => ?_
  refine .bind (holds p rest before) fun _ e q _ at' => ?_
  refine .here at'.goesOn ?_
  have noAssign : pEat .assign q = .ok (false, q) := pEat_not (by rw [at'.kind]; decide)
  exact .here noAssign (.pure at')

theorem assign_rejects {target : Expr} {toks toks' : List Token} (opens : ∃ t more,
    toks = t :: more ∧ OpensExpr t.kind)
    (lvalue : Parses (·.expr) target flag levels toks (EndsExpr flag 0))
    (rvalue : Rejects (·.expr) true flag levels toks') :
    Rejects (·.stmt) true flag levels (toks ++ sym .assign :: toks') := by
  refine exprStmt_rejects ?_ ?_
  · obtain ⟨t, more, rfl, opens⟩ := opens
    exact ⟨t, _, rfl, opens⟩
  · filter_upwards [lvalue, rvalue] with n lvalue rvalue p rest before
    refine .part (lvalue p _ before.split (.closing rfl)) before fun q _ before => ?_
    refine .here (before.goesOn rfl) ?_
    exact .one (Gives.eat before rfl) before fun q before => (rvalue q rest before).map

theorem ret_rejects {toks : List Token} (opening : Opening toks)
    (expr : Rejects (·.expr) true flag levels toks) :
    Rejects (·.stmt) true flag levels (symOn true (.kw .return_) :: toks) := by
  refine stmt_rejects (.call (f := (·.returnStmt)) parseReturnStmt (fun _ => rfl) ?_)
  refine Filter.Eventually.mono expr fun n holds p rest before => ?_
  obtain ⟨t, more, rfl, opens, sameLine, -⟩ := opening
  refine .one (Gives.bump before (by simp [symOn])) before fun q before => ?_
  have opens : OpensExpr q.kind := by rwa [before.kind]
  refine .here (pAt_no (opens.ne rfl)) ?_
  refine .here (exprsGoOn q before.running opens) ?_
  exact .here (before.goesOn sameLine) (holds q rest before).map

theorem let_rejects {mutable : Bool} {name : CString} (isIdent : IsIdent name)
    {ty : Option TypeNode} {toks : List Token}
    (declared : ∀ ty', ty = some ty' →
      Parses (·.type) ty' flag levels (typeToks ty') EndsType)
    (expr : Rejects (·.expr) true flag levels toks) :
    Rejects (·.stmt) true flag levels
      (symOn true (.kw .let_) :: ((if mutable then [sym (.kw .mut)] else []) ++ word name ::
        (letTypeToks ty ++ sym .assign :: toks))) := by
  refine stmt_rejects (.call (f := (·.letStmt)) parseLetStmt (fun _ => rfl) ?_)
  filter_upwards [declared_eventually declared, expr] with n declared holds p rest before
  refine .one (Gives.bump before (by simp [symOn])) before fun q before => ?_
  have notMut : (word name).kind ≠ .kw .mut := by
    rw [Parse.word, isIdent.kind]
    decide
  refine .part (optionalKw_gives ⟨_, _, rfl, notMut⟩ before) before fun q _ before => ?_
  refine .one (Gives.ident before isIdent rfl) before fun q before => ?_
  refine .afterLeads (letType_leads declared before) fun q reads => ?_
  have before := before.after reads
  exact .one (Gives.expect before rfl) before fun q before => (holds q rest before).map

theorem if_rejects_cond {header : List Token} (more : List Token)
    (condition : Rejects (·.exprNoRecord) false flag levels header) :
    Rejects (·.stmt) true flag levels (symOn true (.kw .if_) :: (header ++ more)) := by
  refine stmt_rejects (.call (f := (·.ifStmt)) parseIfStmt (fun _ => rfl) ?_)
  refine Filter.Eventually.mono condition fun n holds p rest before => ?_
  refine .one (Gives.bump before (by simp [symOn])) before fun q before => ?_
  exact .bind_fault (holds q _ before.split)

theorem if_rejects_then {cond : Expr} {header block : List Token} (more : List Token)
    (condition : Parses (·.exprNoRecord) cond flag levels header (EndsExpr true 0))
    (body : Rejects (·.block) false flag levels (inBraces block)) :
    Rejects (·.stmt) true flag levels
      (symOn true (.kw .if_) :: (header ++ (inBraces block ++ more))) := by
  refine stmt_rejects (.call (f := (·.ifStmt)) parseIfStmt (fun _ => rfl) ?_)
  filter_upwards [condition, body] with n condition body p rest before
  refine .one (Gives.bump before (by simp [symOn])) before fun q before => ?_
  refine .part (condition q _ before.split .brace) before fun q _ before => ?_
  exact .bind_fault (body q _ before.split)

theorem if_rejects_else {cond : Expr} {header block block' : List Token} {thenBlock : List Stmt}
    (condition : Parses (·.exprNoRecord) cond flag levels header (EndsExpr true 0))
    (body : Parses (·.block) thenBlock flag levels (inBraces block) fun _ _ => True)
    (other : Rejects (·.block) false flag levels (inBraces block')) :
    Rejects (·.stmt) true flag levels
      (symOn true (.kw .if_) :: (header ++ (inBraces block ++ sym (.kw .else_) :: inBraces block'))) := by
  refine stmt_rejects (.call (f := (·.ifStmt)) parseIfStmt (fun _ => rfl) ?_)
  filter_upwards [condition, body, other] with n condition body other p rest before
  refine .one (Gives.bump before (by simp [symOn])) before fun q before => ?_
  refine .part (condition q _ before.split .brace) before fun q _ before => ?_
  refine .part (body q _ before.split trivial) before fun q _ before => ?_
  refine .one (Gives.eatKw before rfl) before fun q before => ?_
  have branch : Fails false (elseBranch (parsers n)) q :=
    .here (pAt_no (k := .kw .if_) (by rw [before.kind]; decide)) (other q rest before)
  exact .bind_fault branch.map

theorem while_rejects_cond {header : List Token} (more : List Token)
    (condition : Rejects (·.exprNoRecord) false flag levels header) :
    Rejects (·.stmt) true flag levels (symOn true (.kw .while_) :: (header ++ more)) := by
  refine stmt_rejects (.call (f := (·.whileStmt)) parseWhileStmt (fun _ => rfl) ?_)
  refine Filter.Eventually.mono condition fun n holds p rest before => ?_
  refine .one (Gives.bump before (by simp [symOn])) before fun q before => ?_
  exact .bind_fault (holds q _ before.split)

theorem while_rejects_body {cond : Expr} {header block : List Token}
    (condition : Parses (·.exprNoRecord) cond flag levels header (EndsExpr true 0))
    (inside : Rejects (·.block) false flag levels (inBraces block)) :
    Rejects (·.stmt) true flag levels
      (symOn true (.kw .while_) :: (header ++ inBraces block)) := by
  refine stmt_rejects (.call (f := (·.whileStmt)) parseWhileStmt (fun _ => rfl) ?_)
  filter_upwards [condition, inside] with n condition inside p rest before
  refine .one (Gives.bump before (by simp [symOn])) before fun q before => ?_
  refine .part (condition q _ before.split .brace) before fun q _ before => ?_
  exact .bind_fault (inside q rest before)

theorem for_rejects_iter {name : CString} (isIdent : IsIdent name) {header : List Token}
    (more : List Token) (sequence : Rejects (·.exprNoRecord) false flag levels header) :
    Rejects (·.stmt) true flag levels
      (symOn true (.kw .for_) :: word name :: sym (.kw .in_) :: (header ++ more)) := by
  refine stmt_rejects (.call (f := (·.forStmt)) parseForStmt (fun _ => rfl) ?_)
  refine Filter.Eventually.mono sequence fun n holds p rest before => ?_
  refine .one (Gives.bump before (by simp [symOn])) before fun q before => ?_
  refine .one (Gives.ident before isIdent rfl) before fun q before => ?_
  refine .one (Gives.expectKw before rfl) before fun q before => ?_
  exact .bind_fault (holds q _ before.split)

theorem for_rejects_body {name : CString} (isIdent : IsIdent name) {iter : Expr}
    {header block : List Token}
    (sequence : Parses (·.exprNoRecord) iter flag levels header (EndsExpr true 0))
    (inside : Rejects (·.block) false flag levels (inBraces block)) :
    Rejects (·.stmt) true flag levels
      (symOn true (.kw .for_) :: word name :: sym (.kw .in_) :: (header ++ inBraces block)) := by
  refine stmt_rejects (.call (f := (·.forStmt)) parseForStmt (fun _ => rfl) ?_)
  filter_upwards [sequence, inside] with n sequence inside p rest before
  refine .one (Gives.bump before (by simp [symOn])) before fun q before => ?_
  refine .one (Gives.ident before isIdent rfl) before fun q before => ?_
  refine .one (Gives.expectKw before rfl) before fun q before => ?_
  refine .part (sequence q _ before.split .brace) before fun q _ before => ?_
  exact .bind_fault (inside q rest before)

end Lines

/-! ## Trees that are not clear -/

theorem tail_append_ne_nil {first others : List Token} (some : first ≠ []) (more : others ≠ []) :
    (first ++ others).tail ≠ [] := by
  cases first with
  | nil => exact absurd rfl some
  | cons t first => exact List.append_ne_nil_of_right_ne_nil first more

/-- What is not clear is more than a word. -/
theorem exprToks_long {flag header : Bool} {e : Expr} (spelled : ExprSpelled e)
    (bad : ¬ Clear flag header e) : (exprToks header e).tail ≠ [] := by
  have opened (atLeast : Nat) (e : Expr) (spelled : ExprSpelled e) :
      fit atLeast e (exprToks header e) (inParens (exprToks false e)) ≠ [] := by
    have opening : Opening (fit atLeast e (exprToks header e) (inParens (exprToks false e))) :=
      (exprToks_opening header e spelled).fit
    obtain ⟨t, more, same, -⟩ := opening
    rw [same]
    exact List.cons_ne_nil t more
  cases e with
  | lit _ | ident _ | none | mapNew _ => exact absurd (by rw [Clear]; trivial) bad
  | unary op operand =>
      rw [ExprSpelled] at spelled
      rw [exprToks]
      exact opened 70 operand spelled
  | binary op left right =>
      rw [ExprSpelled] at spelled
      rw [exprToks]
      exact tail_append_ne_nil (opened _ left spelled.1) (List.cons_ne_nil _ _)
  | call callee args =>
      rw [ExprSpelled] at spelled
      rw [exprToks]
      exact tail_append_ne_nil (opened 80 callee spelled.1) (List.cons_ne_nil _ _)
  | index base key =>
      rw [ExprSpelled] at spelled
      rw [exprToks]
      exact tail_append_ne_nil (opened 80 base spelled.1) (List.cons_ne_nil _ _)
  | member base name =>
      rw [ExprSpelled] at spelled
      rw [exprToks]
      exact tail_append_ne_nil (opened 80 base spelled.1) (List.cons_ne_nil _ _)
  | question operand =>
      rw [ExprSpelled] at spelled
      rw [exprToks]
      exact tail_append_ne_nil (opened 80 operand spelled) (List.cons_ne_nil _ _)
  | tuple elems | list elems =>
      rw [exprToks]
      exact List.append_ne_nil_of_right_ne_nil _ (List.cons_ne_nil _ _)
  | recordLit name fields =>
      rw [exprToks]
      cases header <;> exact List.cons_ne_nil _ _
  | matchOn scrutinee arms =>
      rw [exprToks]
      exact List.append_ne_nil_of_right_ne_nil _ (List.cons_ne_nil _ _)
  | some payload | ok payload | err payload | «mut» payload =>
      rw [exprToks]
      exact List.cons_ne_nil _ _

theorem Rejected.parens {stick flag : Bool} {pw levels : Nat} {toks : List Token}
    (rejected : Rejected true false pw levels toks) (opening : Opening toks) (e : Expr) :
    Rejected stick flag 80 (2 + levels) (inParens toks) := by
  have items : SomeItems (·.expr) false (levels + 1) (EndsExpr false 0) OpensExpr [e] [toks] :=
    .here (rejected.value opening (Nat.le_refl _)) opening.opens
  exact (Rejected.of_spine (parens_bad items)).mono (by omega)

/-- An operand, in parentheses or not. -/
theorem operand_rejected (stick flag header : Bool) {atLeast : Nat} {e : Expr}
    (small : atLeast ≤ 80) (spelled : ExprSpelled e)
    (bad : ¬ fit atLeast e (Clear flag header e) (Clear false false e))
    (bare : ¬ Clear flag header e →
      Rejected stick flag (power e) (exprLevels header e) (exprToks header e))
    (inside : ¬ Clear false false e →
      Rejected true false (power e) (exprLevels false e) (exprToks false e)) :
    ∃ pw, atLeast ≤ pw ∧
      Rejected stick flag pw (fit atLeast e (exprLevels header e) (2 + exprLevels false e))
        (fit atLeast e (exprToks header e) (inParens (exprToks false e))) := by
  by_cases loose : power e < atLeast
  · rw [fit_inside loose] at bad
    rw [fit_inside loose, fit_inside loose]
    exact ⟨80, small, (inside bad).parens (exprToks_opening false e spelled) e⟩
  · rw [fit_bare loose] at bad
    rw [fit_bare loose, fit_bare loose]
    exact ⟨power e, Nat.le_of_not_lt loose, bare bad⟩

theorem Rejected.of_spine_of_pos {stick flag : Bool} {levels : Nat} {toks : List Token}
    (positive : 0 < levels) (bad : ∀ inner, levels = inner + 1 → BadSpine stick flag inner toks) :
    Rejected stick flag 80 levels toks := by
  obtain ⟨inner, rfl⟩ : ∃ inner, levels = inner + 1 := ⟨levels - 1, by omega⟩
  exact .of_spine (bad inner rfl)

theorem SomeLinesOf.block {flag : Bool} {stmts : List Stmt} {levels room : Nat}
    (some : SomeLines blockElement flag levels stmts (stmts.map fun s => onNewLine (stmtToks s)))
    (le : 1 + levels ≤ room) :
    Rejects (·.block) false flag room (inBraces (stmtsToks stmts)) := by
  rw [stmtsToks_eq]
  exact (block_rejects some).mono le

/-- The expression of a header that fails. -/
theorem Rejected.header {flag : Bool} {pw levels room : Nat} {e : Expr}
    (rejected : Rejected false true pw levels (exprToks true e)) (spelled : ExprSpelled e)
    (le : 1 + levels ≤ room) :
    Rejects (·.exprNoRecord) false flag room (exprToks true e) :=
  ((exprToks_opening true e spelled).same ▸ rejected.exprNoRecord false).mono (by omega)

mutual

/-- A printed expression that is not clear is rejected. -/
theorem expr_rejected (flag header : Bool) : (e : Expr) → ExprSpelled e → ¬ Clear flag header e →
    Rejected (!header) flag (power e) (exprLevels header e) (exprToks header e)
  | .lit _, _, bad => absurd (by rw [Clear]; trivial) bad
  | .ident _, _, bad => absurd (by rw [Clear]; trivial) bad
  | .none, _, bad => absurd (by rw [Clear]; trivial) bad
  | .mapNew _, _, bad => absurd (by rw [Clear]; trivial) bad
  | .unary op operand, spelled, bad => by
      rw [ExprSpelled] at spelled
      rw [Clear] at bad
      rw [exprLevels, exprToks]
      obtain ⟨pw, tight, rejected⟩ := operand_rejected (!header) flag header
        (by decide : 70 ≤ 80) spelled bad (expr_rejected flag header operand spelled)
        (expr_rejected false false operand spelled)
      exact rejected.prefixed tight (exprToks_opening header operand spelled).fit.same
  | .binary op left right, spelled, bad => by
      rw [ExprSpelled] at spelled
      rw [Clear] at bad
      rw [exprLevels, exprToks]
      have loose := binLbp_le op
      by_cases clear : fit (binLbp op) left (Clear flag header left) (Clear false false left)
      · obtain ⟨pw, tight, lhs⟩ := operand_printed flag header
          (by omega : binLbp op ≤ 80) spelled.1 clear (expr_printed flag header left spelled.1)
          (expr_printed false false left spelled.1)
        have bad := fun right => bad ⟨clear, right⟩
        obtain ⟨pw', tight', rhs⟩ := operand_rejected (!header) flag header
          (by omega : binLbp op + 1 ≤ 80) spelled.2 bad (expr_rejected flag header right spelled.2)
          (expr_rejected false false right spelled.2)
        exact .infixRight lhs rhs tight tight'
          (exprToks_opening header left spelled.1).fit.opened_append
          (exprToks_opening header right spelled.2).fit.same
      · obtain ⟨pw, tight, lhs⟩ := operand_rejected (!header) flag header
          (by omega : binLbp op ≤ 80) spelled.1 clear (expr_rejected flag header left spelled.1)
          (expr_rejected false false left spelled.1)
        exact lhs.infixLeft tight (exprToks_opening header left spelled.1).fit.opened_append
          (Nat.le_max_left _ _)
  | .call callee args, spelled, bad => by
      rw [ExprSpelled] at spelled
      rw [Clear] at bad
      refine .of_spine_of_pos (exprLevels_pos header _) fun inner room => ?_
      rw [exprLevels] at room
      rw [exprToks]
      by_cases clear : fit 80 callee (Clear flag header callee) (Clear false false callee)
      · obtain ⟨pw, tight, printed⟩ := operand_printed flag header
          (by decide : 80 ≤ 80) spelled.1 clear (expr_printed flag header callee spelled.1)
          (expr_printed false false callee spelled.1)
        exact (printed.spine tight inner (by omega)).call_rejects
          (args_some args spelled.2 (fun args => bad ⟨clear, args⟩) inner (by omega))
      · obtain ⟨pw, tight, rejected⟩ := operand_rejected (!header) flag header
          (by decide : 80 ≤ 80) spelled.1 clear (expr_rejected flag header callee spelled.1)
          (expr_rejected false false callee spelled.1)
        exact (rejected.spine tight inner (by omega)).append _
  | .index base key, spelled, bad => by
      rw [ExprSpelled] at spelled
      rw [Clear] at bad
      refine .of_spine_of_pos (exprLevels_pos header _) fun inner room => ?_
      rw [exprLevels] at room
      rw [exprToks]
      by_cases clear : fit 80 base (Clear flag header base) (Clear false false base)
      · obtain ⟨pw, tight, printed⟩ := operand_printed flag header
          (by decide : 80 ≤ 80) spelled.1 clear (expr_printed flag header base spelled.1)
          (expr_printed false false base spelled.1)
        exact (printed.spine tight inner (by omega)).index_rejects
          (expr_rejected false false key spelled.2 fun key => bad ⟨clear, key⟩)
          (exprToks_opening false key spelled.2) (by omega)
      · obtain ⟨pw, tight, rejected⟩ := operand_rejected (!header) flag header
          (by decide : 80 ≤ 80) spelled.1 clear (expr_rejected flag header base spelled.1)
          (expr_rejected false false base spelled.1)
        exact (rejected.spine tight inner (by omega)).append _
  | .member base name, spelled, bad => by
      rw [ExprSpelled] at spelled
      rw [Clear] at bad
      refine .of_spine_of_pos (exprLevels_pos header _) fun inner room => ?_
      rw [exprLevels] at room
      rw [exprToks]
      obtain ⟨pw, tight, rejected⟩ := operand_rejected (!header) flag header
        (by decide : 80 ≤ 80) spelled.1 bad (expr_rejected flag header base spelled.1)
        (expr_rejected false false base spelled.1)
      exact (rejected.spine tight inner (by omega)).append _
  | .question operand, spelled, bad => by
      rw [ExprSpelled] at spelled
      rw [Clear] at bad
      refine .of_spine_of_pos (exprLevels_pos header _) fun inner room => ?_
      rw [exprLevels] at room
      rw [exprToks]
      obtain ⟨pw, tight, rejected⟩ := operand_rejected (!header) flag header
        (by decide : 80 ≤ 80) spelled bad (expr_rejected flag header operand spelled)
        (expr_rejected false false operand spelled)
      exact (rejected.spine tight inner (by omega)).append _
  | .tuple elems, spelled, bad => by
      rw [ExprSpelled] at spelled
      rw [Clear] at bad
      refine .of_spine_of_pos (exprLevels_pos header _) fun inner room => ?_
      rw [exprLevels] at room
      rw [exprToks]
      exact parens_bad (exprs_some elems spelled.2 bad inner (by omega))
  | .list elems, spelled, bad => by
      rw [ExprSpelled] at spelled
      rw [Clear] at bad
      refine .of_spine_of_pos (exprLevels_pos header _) fun inner room => ?_
      rw [exprLevels] at room
      rw [exprToks]
      exact list_bad (exprs_some elems spelled bad inner (by omega))
  | .recordLit name fields, spelled, bad => by
      rw [ExprSpelled] at spelled
      rw [Clear] at bad
      have literal (stick : Bool) (levels : Nat) (positive : 0 < levels)
          (room : fieldsLevels fields ≤ levels) (bad : ¬ FieldsClear fields) :
          Rejected stick false 80 levels (word name :: inBraces (commaSep (fieldsToks fields))) := by
        refine .of_spine_of_pos positive fun inner same => ?_
        exact recordLit_bad spelled.1 (fields_some fields spelled.2 bad inner (by omega))
      have positive : 0 < max 1 (fieldsLevels fields) := by omega
      rw [exprLevels, exprToks]
      cases header with
      | true =>
          have opening : Opening (word name :: inBraces (commaSep (fieldsToks fields))) :=
            .word spelled.1.1 (by simp [next, inBraces, sym, symOn])
          have inside := literal true _ positive (Nat.le_max_right _ _)
            fun clear => bad ⟨.inl rfl, clear⟩
          exact inside.parens opening (.recordLit name fields)
      | false =>
          cases flag with
          | true => exact .of_spine_of_pos positive fun inner _ => bare_record_bad spelled.1 _
          | false =>
              exact literal _ _ positive (Nat.le_max_right _ _)
                fun clear => bad ⟨.inr rfl, clear⟩
  | .matchOn scrutinee arms, spelled, bad => by
      rw [ExprSpelled] at spelled
      rw [Clear] at bad
      refine .of_spine_of_pos (exprLevels_pos header _) fun inner room => ?_
      rw [exprLevels] at room
      rw [exprToks]
      by_cases clear : Clear true true scrutinee
      · rw [armsToks_eq]
        exact match_bad_arms (expr_printed true true scrutinee spelled.1 clear)
          (exprToks_opening true scrutinee spelled.1).same (by omega)
          (arms_some flag arms spelled.2 (fun arms => bad ⟨clear, arms⟩) inner (by omega))
      · exact match_bad_scrutinee (expr_rejected true true scrutinee spelled.1 clear)
          (exprToks_opening true scrutinee spelled.1) (by omega) _
  | .some payload, spelled, bad => by
      rw [ExprSpelled] at spelled
      rw [Clear] at bad
      refine .of_spine_of_pos (exprLevels_pos header _) fun inner room => ?_
      rw [exprLevels] at room
      rw [exprToks]
      exact ctor_bad some_isIdent rfl (expr_rejected false false payload spelled bad)
        (exprToks_opening false payload spelled) (by omega)
  | .ok payload, spelled, bad => by
      rw [ExprSpelled] at spelled
      rw [Clear] at bad
      refine .of_spine_of_pos (exprLevels_pos header _) fun inner room => ?_
      rw [exprLevels] at room
      rw [exprToks]
      exact ctor_bad ok_isIdent rfl (expr_rejected false false payload spelled bad)
        (exprToks_opening false payload spelled) (by omega)
  | .err payload, spelled, bad => by
      rw [ExprSpelled] at spelled
      rw [Clear] at bad
      refine .of_spine_of_pos (exprLevels_pos header _) fun inner room => ?_
      rw [exprLevels] at room
      rw [exprToks]
      exact ctor_bad err_isIdent rfl (expr_rejected false false payload spelled bad)
        (exprToks_opening false payload spelled) (by omega)
  | .mut operand, spelled, bad => by
      rw [ExprSpelled] at spelled
      rw [Clear] at bad
      refine .of_spine_of_pos (exprLevels_pos header _) fun inner room => ?_
      rw [exprLevels] at room
      rw [exprToks]
      exact mut_bad (expr_rejected false false operand spelled bad)
        (exprToks_opening false operand spelled) (by omega)

theorem exprs_some : (es : List Expr) → ExprsSpelled es → ¬ ExprsClear es → (levels : Nat) →
    exprsLevels es ≤ levels + 1 →
    SomeItems (·.expr) false levels (EndsExpr false 0) OpensExpr es (exprsToks es)
  | [], _, bad, _, _ => absurd (by rw [ExprsClear]; trivial) bad
  | e :: es, spelled, bad, levels, le => by
      rw [ExprsSpelled] at spelled
      rw [ExprsClear] at bad
      rw [exprsLevels] at le
      rw [exprsToks]
      have opening := exprToks_opening false e spelled.1
      by_cases clear : Clear false false e
      · exact .later ((expr_printed false false e spelled.1 clear).value spelled.1 (by omega))
          opening.opens
          (exprs_some es spelled.2 (fun others => bad ⟨clear, others⟩) levels (by omega))
      · exact .here ((expr_rejected false false e spelled.1 clear).value opening (by omega))
          opening.opens

theorem args_some : (args : List Arg) → ArgsSpelled args → ¬ ArgsClear args → (levels : Nat) →
    argsLevels args ≤ levels + 1 →
    SomeItems (·.arg) false levels EndsItem OpensExpr args (argsToks args)
  | [], _, bad, _, _ => absurd (by rw [ArgsClear]; trivial) bad
  | .mk none value :: args, spelled, bad, levels, le => by
      rw [ArgsSpelled] at spelled
      rw [ArgsClear] at bad
      rw [argsLevels] at le
      rw [argsToks, argToks]
      have opening := exprToks_opening false value spelled.1
      by_cases clear : Clear false false value
      · have parsed : Parses (·.arg) (.mk none value) false levels (exprToks false value) EndsItem :=
          arg_parses none (fun _ same => by cases same)
            (expr_printed false false value spelled.1 clear) opening (by omega)
        exact .later parsed opening.opens
          (args_some args spelled.2 (fun others => bad ⟨clear, others⟩) levels (by omega))
      · have rejects : Rejects (·.arg) true false levels (exprToks false value) :=
          arg_rejects none (fun _ same => by cases same)
            (expr_rejected false false value spelled.1 clear) opening
            (exprToks_long spelled.1 clear) (by omega)
        exact .here rejects opening.opens
  | .mk (some label) value :: args, spelled, bad, levels, le => by
      rw [ArgsSpelled] at spelled
      rw [ArgsClear] at bad
      rw [argsLevels] at le
      rw [argsToks, argToks]
      have opening := exprToks_opening false value spelled.2.1
      have opens : OpensExpr (word label).kind := by
        rw [Parse.word, spelled.1.kind]
        rfl
      have named (name : CString) (same : some label = some name) : IsIdent name := by
        cases same
        exact spelled.1
      by_cases clear : Clear false false value
      · have parsed : Parses (·.arg) (.mk (some label) value) false levels
            (word label :: sym .colon :: exprToks false value) EndsItem :=
          arg_parses (some label) named (expr_printed false false value spelled.2.1 clear) opening
            (by omega)
        exact .later parsed ⟨_, _, rfl, opens⟩
          (args_some args spelled.2.2 (fun others => bad ⟨clear, others⟩) levels (by omega))
      · have rejects : Rejects (·.arg) true false levels
            (word label :: sym .colon :: exprToks false value) :=
          arg_rejects (some label) named (expr_rejected false false value spelled.2.1 clear) opening
            (exprToks_long spelled.2.1 clear) (by omega)
        exact .here rejects ⟨_, _, rfl, opens⟩

theorem fields_some : (fields : List Field) → FieldsSpelled fields → ¬ FieldsClear fields →
    (levels : Nat) → fieldsLevels fields ≤ levels + 1 →
    SomeItems recordField false levels (EndsExpr false 0) (· = .ident) fields (fieldsToks fields)
  | [], _, bad, _, _ => absurd (by rw [FieldsClear]; trivial) bad
  | .mk name value :: fields, spelled, bad, levels, le => by
      rw [FieldsSpelled] at spelled
      rw [FieldsClear] at bad
      rw [fieldsLevels] at le
      rw [fieldsToks, fieldToks]
      have opening := exprToks_opening false value spelled.2.1
      by_cases clear : Clear false false value
      · refine .later ?_ ⟨_, _, rfl, spelled.1⟩
          (fields_some fields spelled.2.2 (fun others => bad ⟨clear, others⟩) levels (by omega))
        exact recordField_parses spelled.1 (expr_printed false false value spelled.2.1 clear)
          opening.same (by omega)
      · refine .here ?_ ⟨_, _, rfl, spelled.1⟩
        exact recordField_rejects spelled.1 (expr_rejected false false value spelled.2.1 clear)
          opening (by omega)

theorem arms_some (flag : Bool) : (arms : List Arm) → ArmsSpelled arms → ¬ ArmsClear flag arms →
    (levels : Nat) → armsLevels arms ≤ levels + 1 →
    SomeLines matchElement flag levels arms (arms.map armToks)
  | [], _, bad, _, _ => absurd (by rw [ArmsClear]; trivial) bad
  | .expr pat body :: arms, spelled, bad, levels, le => by
      rw [ArmsSpelled] at spelled
      rw [ArmsClear] at bad
      rw [armsLevels] at le
      rw [List.map_cons, armToks]
      have pattern : Parses (·.pattern) pat flag levels _ _ :=
        (pattern_parses flag true pat spelled.1).weaken (by omega) fun _ _ follows => follows
      have opening := exprToks_opening false body spelled.2.1
      by_cases clear : Clear flag false body
      · have value : Parses (·.expr) body flag levels _ _ :=
          (expr_printed flag false body spelled.2.1 clear).value spelled.2.1 (by omega)
        filter_upwards [pattern, value, arms_some flag arms spelled.2.2
          (fun others => bad ⟨clear, others⟩) levels (by omega)] with n pattern value each
        refine .later ⟨fun seen p rest before ends => ?_, armHead_opens spelled.1 _⟩ each
        exact (armExpr_gives pattern ⟨value, opening.opens⟩ before ends).map
      · have value : Rejects (·.expr) true flag levels _ :=
          (expr_rejected flag false body spelled.2.1 clear).value opening (by omega)
        filter_upwards [pattern, value] with n pattern value
        refine .here (fun seen p rest before => ?_) (armHead_opens spelled.1 _)
        exact (armExpr_fails pattern opening.opens value before).map
  | .block pat body :: arms, spelled, bad, levels, le => by
      rw [ArmsSpelled] at spelled
      rw [ArmsClear] at bad
      rw [armsLevels] at le
      rw [List.map_cons, armToks]
      have pattern : Parses (·.pattern) pat flag levels _ _ :=
        (pattern_parses flag true pat spelled.1).weaken (by omega) fun _ _ follows => follows
      by_cases clear : StmtsClear flag body
      · have block : Parses (·.block) body flag levels _ _ :=
          (stmts_lines flag body spelled.2.1 clear _ (Nat.le_refl _)).block (by omega)
        filter_upwards [pattern, block, arms_some flag arms spelled.2.2
          (fun others => bad ⟨clear, others⟩) levels (by omega)] with n pattern block each
        refine .later ⟨fun seen p rest before ends => ?_, armHead_opens spelled.1 _⟩ each
        exact (armBlock_gives pattern (fun p rest before => block p rest before trivial) before
          ends).map
      · have block : Rejects (·.block) false flag levels _ :=
          (stmts_some flag body spelled.2.1 clear _ (Nat.le_refl _)).block (by omega)
        filter_upwards [pattern, block] with n pattern block
        refine .here (fun seen p rest before => ?_) (armHead_opens spelled.1 _)
        exact (armBlock_fails pattern block before).map

/-- A printed statement that is not clear is rejected. -/
theorem stmt_rejected (flag : Bool) : (s : Stmt) → StmtSpelled s → ¬ StmtClear flag s →
    (levels : Nat) → stmtLevels s ≤ levels →
    Rejects (·.stmt) true flag levels (onNewLine (stmtToks s))
  | .letBind mutable name ty value, spelled, bad, levels, le => by
      simp only [StmtSpelled] at spelled
      rw [StmtClear] at bad
      simp only [stmtLevels] at le
      rw [stmtToks]
      have rejected : Rejects (·.expr) true flag levels _ :=
        (expr_rejected flag false value spelled.2.2 bad).value
          (exprToks_opening false value spelled.2.2) (by omega)
      refine let_rejects spelled.1 (fun ty' same => ?_) rejected
      subst same
      exact (opened_false_typeToks ty' ▸ type_parses flag false ty' spelled.2.1).weaken
        (by simp only at le; omega) fun _ _ follows => follows
  | .assign target value, spelled, bad, levels, le => by
      rw [StmtSpelled] at spelled
      rw [StmtClear] at bad
      rw [stmtLevels] at le
      rw [stmtToks]
      have left := exprToks_opening false target spelled.1
      rw [onNewLine, left.opened_append]
      have opens : ∃ t others, opened true (exprToks false target) = t :: others ∧
          OpensExpr t.kind := by
        obtain ⟨t, more, same, opens, -⟩ := left
        rw [same]
        exact ⟨_, _, rfl, opens⟩
      by_cases clear : Clear flag false target
      · have lvalue : Parses (·.expr) target flag levels _ (EndsExpr flag 0) :=
          ((expr_printed flag false target spelled.1 clear).expr true).weaken (by omega)
            fun _ _ follows => follows
        have bad := fun value => bad ⟨clear, value⟩
        exact assign_rejects opens lvalue ((expr_rejected flag false value spelled.2 bad).value
          (exprToks_opening false value spelled.2) (by omega))
      · exact expr_stmt_rejects opens
          (((expr_rejected flag false target spelled.1 clear).expr true).mono (by omega))
  | .ret none, _, bad, _, _ => absurd (by rw [StmtClear]; trivial) bad
  | .ret (some value), spelled, bad, levels, le => by
      rw [StmtSpelled] at spelled
      rw [StmtClear] at bad
      rw [stmtLevels] at le
      rw [stmtToks]
      have opening := exprToks_opening false value spelled
      exact ret_rejects opening
        ((expr_rejected flag false value spelled bad).value opening (by omega))
  | .ifElse cond thenBlock none, spelled, bad, levels, le => by
      rw [StmtSpelled] at spelled
      rw [StmtClear] at bad
      rw [stmtLevels] at le
      rw [stmtToks]
      by_cases clear : Clear true true cond
      · have header : Parses (·.exprNoRecord) cond flag levels _ _ :=
          (expr_printed true true cond spelled.1 clear).header spelled.1 (by omega)
        have bad := fun block => bad ⟨clear, block⟩
        have body : Rejects (·.block) false flag levels _ :=
          (stmts_some flag thenBlock spelled.2 bad _ (Nat.le_refl _)).block (by omega)
        have rejects := if_rejects_then [] header body
        rwa [List.append_nil] at rejects
      · exact if_rejects_cond _ ((expr_rejected true true cond spelled.1 clear).header spelled.1
          (by omega))
  | .ifElse cond thenBlock (some elseBlock), spelled, bad, levels, le => by
      rw [StmtSpelled] at spelled
      rw [StmtClear] at bad
      rw [stmtLevels] at le
      rw [stmtToks, List.append_assoc]
      by_cases clear : Clear true true cond
      · have header : Parses (·.exprNoRecord) cond flag levels _ _ :=
          (expr_printed true true cond spelled.1 clear).header spelled.1 (by omega)
        by_cases clear' : StmtsClear flag thenBlock
        · have bad := fun block => bad ⟨clear, clear', block⟩
          exact if_rejects_else header
            ((stmts_lines flag thenBlock spelled.2.1 clear' _ (Nat.le_refl _)).block (by omega))
            ((stmts_some flag elseBlock spelled.2.2 bad _ (Nat.le_refl _)).block (by omega))
        · exact if_rejects_then _ header
            ((stmts_some flag thenBlock spelled.2.1 clear' _ (Nat.le_refl _)).block (by omega))
      · exact if_rejects_cond _ ((expr_rejected true true cond spelled.1 clear).header spelled.1
          (by omega))
  | .whileDo cond body, spelled, bad, levels, le => by
      rw [StmtSpelled] at spelled
      rw [StmtClear] at bad
      rw [stmtLevels] at le
      rw [stmtToks]
      by_cases clear : Clear true true cond
      · have bad := fun block => bad ⟨clear, block⟩
        exact while_rejects_body
          ((expr_printed true true cond spelled.1 clear).header spelled.1 (by omega))
          ((stmts_some flag body spelled.2 bad _ (Nat.le_refl _)).block (by omega))
      · exact while_rejects_cond _ ((expr_rejected true true cond spelled.1 clear).header spelled.1
          (by omega))
  | .forIn name iter body, spelled, bad, levels, le => by
      rw [StmtSpelled] at spelled
      rw [StmtClear] at bad
      rw [stmtLevels] at le
      rw [stmtToks]
      by_cases clear : Clear true true iter
      · have bad := fun block => bad ⟨clear, block⟩
        exact for_rejects_body spelled.1
          ((expr_printed true true iter spelled.2.1 clear).header spelled.2.1 (by omega))
          ((stmts_some flag body spelled.2.2 bad _ (Nat.le_refl _)).block (by omega))
      · exact for_rejects_iter spelled.1 _
          ((expr_rejected true true iter spelled.2.1 clear).header spelled.2.1 (by omega))
  | .brk, _, bad, _, _ => absurd (by rw [StmtClear]; trivial) bad
  | .cont, _, bad, _, _ => absurd (by rw [StmtClear]; trivial) bad
  | .expr value, spelled, bad, levels, le => by
      rw [StmtSpelled] at spelled
      rw [StmtClear] at bad
      rw [stmtLevels] at le
      rw [stmtToks]
      obtain ⟨t, more, same, opens, -⟩ := exprToks_opening false value spelled
      have rejects : Rejects (·.stmt) true flag levels (opened true (exprToks false value) ++ []) := by
        refine expr_stmt_rejects ?_
          (((expr_rejected flag false value spelled bad).expr true).mono (by omega))
        rw [same]
        exact ⟨_, _, rfl, opens⟩
      rwa [List.append_nil] at rejects

theorem stmts_some (flag : Bool) : (stmts : List Stmt) → StmtsSpelled stmts →
    ¬ StmtsClear flag stmts → (levels : Nat) → stmtsLevels stmts ≤ levels →
    SomeLines blockElement flag levels stmts (stmts.map fun s => onNewLine (stmtToks s))
  | [], _, bad, _, _ => absurd (by rw [StmtsClear]; trivial) bad
  | s :: stmts, spelled, bad, levels, le => by
      rw [StmtsSpelled] at spelled
      rw [StmtsClear] at bad
      rw [stmtsLevels] at le
      rw [List.map_cons]
      by_cases clear : StmtClear flag s
      · filter_upwards [stmt_printed flag s spelled.1 clear levels (by omega),
          stmts_some flag stmts spelled.2 (fun others => bad ⟨clear, others⟩) levels (by omega)]
          with n holds each
        refine .later ⟨fun seen p rest before ends => ?_, stmtToks_opens spelled.1⟩ each
        exact (holds p rest before ends).sep before ends.sep _
      · refine Filter.Eventually.mono (stmt_rejected flag s spelled.1 clear levels (by omega))
          fun n rejects => ?_
        refine .here (fun seen p rest before => ?_) (stmtToks_opens spelled.1)
        exact (rejects p rest before).bind fun _ _ _ _ at' => .bind_fault (.sep at')

end

/-! ## Exactly the clear trees are read back -/

/-- The state in front of some tokens and the end, outside every group. -/
def parserAt (flag : Bool) (toks : List Token) : Parser :=
  { parserNew (toks ++ [eofToken]) with noRecord := flag }

theorem before_parserAt (flag : Bool) {levels : Nat} (toks : List Token)
    (room : levels ≤ ceiling) : Before flag levels toks [eofToken] (parserAt flag toks) :=
  ⟨rfl, rfl, rfl, (Nat.zero_add levels).symm ▸ room⟩

/-- What is rejected is not read back, since the end of the input may follow it. -/
theorem Rejects.not_parses {α : Type} {f : Parsers → P α} {a : α} {stick flag : Bool}
    {levels : Nat} {toks : List Token} {follow : Nat → Token → Prop}
    (rejects : Rejects f stick flag levels toks) (room : levels ≤ ceiling)
    (ends : follow 0 eofToken) : ¬ Parses f a flag levels toks follow := by
  intro parses
  obtain ⟨n, fails, gives⟩ := (rejects.and parses).exists
  have before := before_parserAt flag toks room
  obtain ⟨_, q, runs, rfl, reads⟩ := gives _ _ before ends
  rcases fails _ _ before _ q runs with fault | ⟨-, -, at'⟩
  · have same : q.faults = (parserAt flag toks).faults := congrArg List.length reads.errors
    omega
  · have atEof : q.kind = .eof := (before.done reads).kind_of_nil
    rw [at'.kind] at atEof
    cases atEof

/-- The parse function for an expression, in a header or elsewhere. -/
def exprAt (header : Bool) (r : Parsers) : P Expr := if header then r.exprNoRecord else r.expr

theorem endsExpr_eof {flag : Bool} {m : Nat} : EndsExpr flag m 0 eofToken :=
  ⟨⟨fun _ here => (by cases here), .inr rfl⟩, .inr fun op here => by cases here⟩

/-- A printed expression is read back, at every group depth, under either flag and before
whatever may follow an expression, exactly when no record literal of it stands bare where
the flag forbids one. -/
theorem parse_expr_iff (flag header : Bool) (e : Expr) (spelled : ExprSpelled e)
    (room : 1 + exprLevels header e ≤ ceiling) :
    Parses (exprAt header) e flag (1 + exprLevels header e) (exprToks header e)
        (EndsExpr (flag || header) 0) ↔ Clear (flag || header) header e := by
  have opening := exprToks_opening header e spelled
  constructor
  · intro parses
    by_contra bad
    have rejected := expr_rejected (flag || header) header e spelled bad
    have rejects : Rejects (exprAt header) (!header) flag (1 + exprLevels header e)
        (exprToks header e) := by
      cases header with
      | true =>
          rw [Bool.or_true] at rejected
          exact rejected.header spelled (Nat.le_refl _)
      | false =>
          rw [Bool.or_false] at rejected
          exact rejected.value opening (Nat.add_comm _ _).le
    exact rejects.not_parses room endsExpr_eof parses
  · intro clear
    have printed := expr_printed (flag || header) header e spelled clear
    cases header with
    | true =>
        rw [Bool.or_true] at printed ⊢
        exact printed.header spelled (Nat.le_refl _)
    | false =>
        rw [Bool.or_false] at printed ⊢
        exact printed.value spelled (Nat.le_refl _)

/-- `match x { _ -> R {} }`. -/
def bareArm : Expr :=
  .matchOn (.ident (ascii "x")) [.expr .wildcard (.recordLit (ascii "R") [])]

/-- The literal in the arm is read back, but not in a header. -/
theorem parse_expr_bareArm :
    Parses (exprAt false) bareArm false 4 (exprToks false bareArm) (EndsExpr false 0) ∧
      ¬ Parses (exprAt true) bareArm false 4 (exprToks true bareArm) (EndsExpr true 0) := by
  have spelled : ExprSpelled bareArm := by
    simp only [bareArm, ExprSpelled, ArmsSpelled, PatSpelled, FieldsSpelled, IsName, IsIdent]
    decide
  have elsewhere := parse_expr_iff false false bareArm spelled (by decide)
  have header := parse_expr_iff false true bareArm spelled (by decide)
  refine ⟨elsewhere.mpr ?_, fun parses => ?_⟩
  · simp [bareArm, Clear, ArmsClear, FieldsClear]
  · simpa [bareArm, Clear, ArmsClear] using header.mp parses

end Geas.Compiler.Parse
