import Geas.Compiler.Printer
import Mathlib.Data.List.Forall2
import Mathlib.Order.Filter.AtTopBot.Basic

/-!
# Reading tokens back

What a run of the parser reads: the tokens it uses up, with no fault and with every flag
as it found it.  `Gives` says that a run answers, `Leads` that it comes to a run that is
still to be made.  Both are closed under the operations the grammar is written in.

A parse function is given room for enough calls, so its results hold of `parsers n` for
every `n` from some point on.
-/

namespace Geas.Compiler.Parse

open Geas.Lib Geas.Lib.Descent
open Geas.Runtime (CString ascii)
open Filter (atTop)

/-! ## Reading tokens -/

/-- From `p` to `q` exactly the tokens `read` are read, no fault is reported and every
flag is as it was. -/
structure Reads (read : List Token) (p q : Parser) : Prop where
  toks : p.toks = read ++ q.toks
  pos : q.pos = p.pos + read.length
  errors : q.errors = p.errors
  groupDepth : q.groupDepth = p.groupDepth
  depth : q.depth = p.depth
  hitDepthLimit : q.hitDepthLimit = p.hitDepthLimit
  noRecord : q.noRecord = p.noRecord

theorem Reads.refl (p : Parser) : Reads [] p p := ⟨rfl, rfl, rfl, rfl, rfl, rfl, rfl⟩

theorem Reads.trans {first rest : List Token} {p q t : Parser} (head : Reads first p q)
    (tail : Reads rest q t) : Reads (first ++ rest) p t where
  toks := by rw [head.toks, tail.toks, List.append_assoc]
  pos := by rw [tail.pos, head.pos, List.length_append, Nat.add_assoc]
  errors := tail.errors.trans head.errors
  groupDepth := tail.groupDepth.trans head.groupDepth
  depth := tail.depth.trans head.depth
  hitDepthLimit := tail.hitDepthLimit.trans head.hitDepthLimit
  noRecord := tail.noRecord.trans head.noRecord

theorem Reads.advance {p : Parser} {t : Token} {rest : List Token} (toks : p.toks = t :: rest) :
    Reads [t] p p.advance := by
  refine ⟨?_, rfl, rfl, rfl, rfl, rfl, rfl⟩
  simp [Parser.advance, toks]

/-- The token that comes next. -/
def next (toks : List Token) : Token := toks.headD eofToken

/-- The parser stands before `here`, with `levels` levels of nesting left for them. -/
structure Before (flag : Bool) (levels : Nat) (here rest : List Token) (p : Parser) : Prop where
  toks : p.toks = here ++ rest
  running : p.hitDepthLimit = false
  noRecord : p.noRecord = flag
  depth : p.depth + levels ≤ ceiling

namespace Before

variable {flag : Bool} {levels fewer : Nat} {t : Token} {first toks rest : List Token}
  {p q : Parser}

theorem tok (before : Before flag levels (t :: toks) rest p) : p.tok = t := by
  simp [Parser.tok, before.toks]

theorem kind (before : Before flag levels (t :: toks) rest p) : p.kind = t.kind := by
  rw [Parser.kind, before.tok]

/-- The token behind what is read. -/
theorem tok_of_nil (before : Before flag levels [] rest p) : p.tok = next rest := by
  have : p.toks = rest := before.toks
  simp [Parser.tok, next, this]

theorem kind_of_nil (before : Before flag levels [] rest p) : p.kind = (next rest).kind := by
  rw [Parser.kind, before.tok_of_nil]

/-- Behind the first part, before the second. -/
theorem after (before : Before flag levels (first ++ toks) rest p) (reads : Reads first p q) :
    Before flag levels toks rest q where
  toks := by
    have same := reads.toks.symm.trans before.toks
    rw [List.append_assoc] at same
    exact List.append_cancel_left same
  running := reads.hitDepthLimit.trans before.running
  noRecord := reads.noRecord.trans before.noRecord
  depth := by
    rw [reads.depth]
    exact before.depth

theorem done (before : Before flag levels first rest p) (reads : Reads first p q) :
    Before flag levels [] rest q :=
  Before.after (by rwa [List.append_nil]) reads

theorem mono (before : Before flag levels toks rest p) (le : fewer ≤ levels) :
    Before flag fewer toks rest p :=
  ⟨before.toks, before.running, before.noRecord,
    Nat.le_trans (Nat.add_le_add_left le _) before.depth⟩

/-- The first part, with the second behind it. -/
theorem split (before : Before flag levels (first ++ toks) rest p) :
    Before flag levels first (toks ++ rest) p :=
  ⟨before.toks.trans (List.append_assoc _ _ _), before.running, before.noRecord, before.depth⟩

/-- In a group that was just opened. -/
theorem grouped (before : Before flag levels toks rest p) :
    Before false levels toks rest { p with groupDepth := p.groupDepth + 1, noRecord := false } :=
  ⟨before.toks, before.running, rfl, before.depth⟩

/-- At another group depth. -/
theorem regroup (before : Before flag levels toks rest p) (d : Nat) :
    Before flag levels toks rest { p with groupDepth := d } :=
  ⟨before.toks, before.running, before.noRecord, before.depth⟩

/-- Under another flag. -/
theorem reflag (before : Before flag levels toks rest p) (b : Bool) :
    Before b levels toks rest { p with noRecord := b } :=
  ⟨before.toks, before.running, rfl, before.depth⟩

end Before

/-! ### Looking at tokens -/

theorem pAt_yes {k : Kind} {p : Parser} (here : p.kind = k) : pAt k p = .ok (true, p) := by
  change Except.ok (decide (p.kind = k), p) = _
  rw [decide_eq_true here]

theorem pAt_no {k : Kind} {p : Parser} (no : p.kind ≠ k) : pAt k p = .ok (false, p) := by
  change Except.ok (decide (p.kind = k), p) = _
  rw [decide_eq_false no]

/-- A level below the ceiling is entered without a fault. -/
theorem pEnterNesting_below {p : Parser} (room : p.depth + 1 ≤ ceiling) :
    pEnterNesting p = .ok (true, { p with depth := p.depth + 1 }) := by
  have below : p.enter = { p with depth := p.depth + 1 } := by
    unfold Parser.enter
    exact if_neg fun above => absurd above.1 (Nat.not_lt.mpr room)
  change Except.ok (decide (p.enter.depth ≤ ceiling), p.enter) = _
  rw [below]
  exact congrArg (fun entered => Except.ok (entered, _)) (decide_eq_true room)

section Looking

variable {flag : Bool} {levels : Nat} {t : Token} {toks rest : List Token} {p : Parser}

theorem pTok_at (before : Before flag levels (t :: toks) rest p) : pTok p = .ok (t, p) := by
  change Except.ok (p.tok, p) = _
  rw [before.tok]

theorem pKind_at (before : Before flag levels (t :: toks) rest p) : pKind p = .ok (t.kind, p) := by
  change Except.ok (p.kind, p) = _
  rw [before.kind]

theorem pKind2_at (before : Before flag levels (t :: toks) rest p) :
    pKind2 p = .ok ((next (toks ++ rest)).kind, p) := by
  change Except.ok (p.tok2.kind, p) = _
  rw [Parser.tok2, before.toks]
  rfl

end Looking

/-! ## Runs that answer -/

/-- The run answers `a` and reads `toks`. -/
def Gives {α : Type} (m : P α) (a : α) (toks : List Token) (p : Parser) : Prop :=
  Ends m p fun b q => b = a ∧ Reads toks p q

/-- After it has read `toks`, the run is the run `k`. -/
def Leads {α : Type} (m k : P α) (toks : List Token) (p : Parser) : Prop :=
  ∃ q, Reads toks p q ∧ m p = k q

namespace Gives

variable {α β : Type} {m : P α} {a : α} {b : β} {first toks rest : List Token} {p : Parser}
  {t : Token} {flag : Bool} {levels : Nat}

theorem pure : Gives (pure a : P α) a [] p :=
  Ends.pure ⟨rfl, .refl p⟩

theorem bind {f : α → P β} (head : Gives m a first p)
    (tail : ∀ q, Reads first p q → Gives (f a) b toks q) : Gives (m >>= f) b (first ++ toks) p := by
  refine Ends.bind head ?_
  rintro _ q ⟨rfl, reads⟩
  refine Ends.mono (tail q reads) ?_
  rintro _ t ⟨rfl, readsNext⟩
  exact ⟨rfl, reads.trans readsNext⟩

/-- A part of the tokens, then the others. -/
theorem part {f : α → P β} (head : Gives m a first p)
    (before : Before flag levels (first ++ toks) rest p)
    (tail : ∀ q, q.groupDepth = p.groupDepth → Before flag levels toks rest q →
      Gives (f a) b toks q) : Gives (m >>= f) b (first ++ toks) p :=
  head.bind fun q reads => tail q reads.groupDepth (before.after reads)

/-- One token, then the others. -/
theorem one {f : α → P β} (head : Gives m a [t] p)
    (before : Before flag levels (t :: toks) rest p)
    (tail : ∀ q, q.groupDepth = p.groupDepth → Before flag levels toks rest q →
      Gives (f a) b toks q) : Gives (m >>= f) b (t :: toks) p :=
  head.bind fun q reads => tail q reads.groupDepth (Before.after before reads)

/-- A run that leaves the state alone. -/
theorem stays (runs : m p = .ok (a, p)) : Gives m a [] p :=
  ⟨a, p, runs, rfl, .refl p⟩

/-- A step that reads nothing and leaves the state alone. -/
theorem here {f : α → P β} (runs : m p = .ok (a, p)) (tail : Gives (f a) b toks p) :
    Gives (m >>= f) b toks p :=
  Ends.step runs tail

theorem cast (gives : Gives m a first p) (same : first = toks) : Gives m a toks p := same ▸ gives

/-- The last step makes the answer of what was given. -/
theorem map {f : α → β} (gives : Gives m a toks p) :
    Gives (m >>= fun a => Pure.pure (f a)) (f a) toks p := by
  have mapped : Gives (m >>= fun a => Pure.pure (f a)) (f a) (toks ++ []) p :=
    gives.bind fun _ _ => pure
  exact mapped.cast (List.append_nil toks)

theorem framed (body : Gives m a toks p.called) : Gives (framed m) a toks p := by
  refine Ends.update_bind (Ends.bind body ?_)
  rintro _ q ⟨rfl, reads⟩
  exact Ends.update_bind (Ends.pure ⟨rfl, ⟨reads.toks, reads.pos, reads.errors, reads.groupDepth,
    reads.depth, reads.hitDepthLimit, reads.noRecord⟩⟩)

/-- A production under the ceiling. -/
theorem underCeiling {placeholder : α} (room : p.depth + 1 ≤ ceiling)
    (body : Gives m a toks { p with depth := p.depth + 1 }) :
    Gives (underCeiling m placeholder) a toks p := by
  refine Ends.step (pEnterNesting_below room) (Ends.bind body ?_)
  rintro _ q ⟨rfl, reads⟩
  exact Ends.update_bind (Ends.pure ⟨rfl, ⟨reads.toks, reads.pos, reads.errors, reads.groupDepth,
    by rw [reads.depth]; rfl, reads.hitDepthLimit, reads.noRecord⟩⟩)

/-- What stands in a group that was just opened. -/
theorem grouped (body : Gives m a toks { p with groupDepth := p.groupDepth + 1, noRecord := false }) :
    Gives (grouped m) a toks p := by
  refine Ends.update_bind (Ends.step rfl (Ends.update_bind (Ends.bind body ?_)))
  rintro _ q ⟨rfl, reads⟩
  exact Ends.update_bind (Ends.update_bind (Ends.pure ⟨rfl, ⟨reads.toks, reads.pos, reads.errors,
    by rw [reads.groupDepth]; rfl, reads.depth, reads.hitDepthLimit, rfl⟩⟩))

/-- What stands between `p_group_enter` and `p_group_leave`. -/
theorem inGroup {f : α → P β} (head : Gives m a first { p with groupDepth := p.groupDepth + 1 })
    (tail : ∀ q, Reads first p q → Gives (f a) b toks q) :
    Gives (do
      pGroupEnter
      let a ← m
      pGroupLeave
      f a) b (first ++ toks) p := by
  refine Ends.update_bind (Ends.bind head ?_)
  rintro _ q ⟨rfl, reads⟩
  have whole : Reads first p { q with groupDepth := q.groupDepth - 1 } :=
    ⟨reads.toks, reads.pos, reads.errors, by rw [reads.groupDepth]; rfl, reads.depth,
      reads.hitDepthLimit, reads.noRecord⟩
  refine Ends.update_bind (Ends.mono (tail _ whole) ?_)
  rintro _ t ⟨rfl, readsNext⟩
  exact ⟨rfl, whole.trans readsNext⟩

/-- What stands between braces, where newlines count again. -/
theorem inBrace {f : α → P β} (head : Gives m a first { p with groupDepth := 0 })
    (tail : ∀ q, Reads first p q → Gives (f a) b toks q) :
    Gives (do
      let saved ← pBraceSave
      let a ← m
      pBraceRestore saved
      f a) b (first ++ toks) p := by
  refine Ends.step (m := pBraceSave) rfl (Ends.bind head ?_)
  rintro _ q ⟨rfl, reads⟩
  have whole : Reads first p { q with groupDepth := p.groupDepth } :=
    ⟨reads.toks, reads.pos, reads.errors, rfl, reads.depth, reads.hitDepthLimit, reads.noRecord⟩
  refine Ends.update_bind (Ends.mono (tail _ whole) ?_)
  rintro _ t ⟨rfl, readsNext⟩
  exact ⟨rfl, whole.trans readsNext⟩

/-- What is read under another record flag. -/
theorem flagged {f : α → P β} {b' : Bool} (head : Gives m a first { p with noRecord := b' })
    (tail : ∀ q, Reads first p q → Gives (f a) b toks q) :
    Gives (do
      let saved ← pNoRecord
      pSetNoRecord b'
      let a ← m
      pSetNoRecord saved
      f a) b (first ++ toks) p := by
  refine Ends.step (m := pNoRecord) rfl (Ends.update_bind (Ends.bind head ?_))
  rintro _ q ⟨rfl, reads⟩
  have whole : Reads first p { q with noRecord := p.noRecord } :=
    ⟨reads.toks, reads.pos, reads.errors, reads.groupDepth, reads.depth, reads.hitDepthLimit, rfl⟩
  refine Ends.update_bind (Ends.mono (tail _ whole) ?_)
  rintro _ t ⟨rfl, readsNext⟩
  exact ⟨rfl, whole.trans readsNext⟩

/-! ### Operations -/

variable {k : Kind}

theorem bump (before : Before flag levels (t :: toks) rest p) (real : t.kind ≠ .eof) :
    Gives pBump () [t] p := by
  have awake : p.kind ≠ .eof := by rwa [before.kind]
  exact ⟨(), p.advance, pBump_at awake, rfl, .advance before.toks⟩

theorem eat (before : Before flag levels (t :: toks) rest p) (same : t.kind = k) :
    Gives (pEat k) true [t] p :=
  ⟨true, p.advance, pEat_at (before.kind.trans same), rfl, .advance before.toks⟩

theorem eatNot (no : p.kind ≠ k) : Gives (pEat k) false [] p :=
  ⟨false, p, pEat_not no, rfl, .refl p⟩

theorem expect {what : String} (before : Before flag levels (t :: toks) rest p)
    (same : t.kind = k) : Gives (pExpect k what) () [t] p :=
  ⟨(), p.advance, pExpect_at (before.kind.trans same), rfl, .advance before.toks⟩

theorem ident {name : CString} (before : Before flag levels (t :: toks) rest p)
    (isIdent : t.kind = .ident) (text : t.text = name) : Gives pIdent name [t] p :=
  ⟨_, p.advance, pIdent_at (before.kind.trans isIdent), by rw [before.tok, text],
    .advance before.toks⟩

theorem literal {l : Lit} (before : Before flag levels (t :: toks) rest p)
    (isLit : t.kind = .lit l) : Gives parseLiteralExpr (Option.some l) [t] p := by
  refine .here (pTok_at before) ?_
  rw [isLit]
  exact (bump before (by simp [isLit])).map

theorem noLiteral (before : Before flag levels (t :: toks) rest p)
    (notLit : ∀ l, t.kind ≠ .lit l) : parseLiteralExpr p = .ok (Option.none, p) := by
  refine (run_bind (pTok_at before)).trans ?_
  cases same : t.kind with
  | lit l => exact absurd same (notLit l)
  | _ => rfl

/-! ### Loops -/

variable {turn : β → P (Turn β)} {c : β}

theorem loop_stop (stops : Gives (turn b) (.stop c) toks p) : Gives (pLoop turn b) c toks p := by
  obtain ⟨_, q, runs, rfl, reads⟩ := stops
  exact ⟨c, q, Descent.loop_stop runs, rfl, reads⟩

end Gives

namespace Leads

variable {α β : Type} {m k l : P α} {a : α} {first toks : List Token} {p : Parser}

theorem trans (head : Leads m k first p) (tail : ∀ q, Reads first p q → Leads k l toks q) :
    Leads m l (first ++ toks) p := by
  obtain ⟨q, reads, same⟩ := head
  obtain ⟨t, readsNext, sameNext⟩ := tail q reads
  exact ⟨t, reads.trans readsNext, same.trans sameNext⟩

theorem gives (head : Leads m k first p) (tail : ∀ q, Reads first p q → Gives k a toks q) :
    Gives m a (first ++ toks) p := by
  obtain ⟨q, reads, same⟩ := head
  obtain ⟨_, t, runs, rfl, readsNext⟩ := tail q reads
  exact ⟨_, t, same.trans runs, rfl, reads.trans readsNext⟩

/-- What was given is handed on. -/
theorem bind {f : α → P β} (head : Gives m a first p) : Leads (m >>= f) (f a) first p := by
  obtain ⟨_, q, runs, rfl, reads⟩ := head
  exact ⟨q, reads, run_bind runs⟩

/-- A turn that goes round again. -/
theorem again {turn : β → P (Turn β)} {b b' : β} (goes : Gives (turn b) (.again b') first p)
    (some : first ≠ []) : Leads (pLoop turn b) (pLoop turn b') first p := by
  obtain ⟨_, q, runs, rfl, reads⟩ := goes
  have used : q.toks.length < p.toks.length := by
    rw [reads.toks, List.length_append]
    have := List.length_pos_of_ne_nil some
    omega
  exact ⟨q, reads, Descent.loop_again runs used⟩

end Leads

/-! ## Parsing what was printed -/

/-- With room enough, the function reads `toks` and answers `a`, whatever follows that
`follow` allows at the group depth it is called in. -/
def Parses {α : Type} (f : Parsers → P α) (a : α) (flag : Bool) (levels : Nat)
    (toks : List Token) (follow : Nat → Token → Prop) : Prop :=
  ∀ᶠ n in atTop, ∀ p rest, Before flag levels toks rest p → follow p.groupDepth (next rest) →
    Gives (f (parsers n)) a toks p

theorem eventually_step {here there : Nat → Prop} (step : ∀ n, here n → there (n + 1))
    (eventually : ∀ᶠ n in atTop, here n) : ∀ᶠ n in atTop, there n := by
  obtain ⟨first, holds⟩ := Filter.eventually_atTop.mp eventually
  refine Filter.eventually_atTop.mpr ⟨first + 1, fun n le => ?_⟩
  obtain ⟨n, rfl⟩ : ∃ m, n = m + 1 := ⟨n - 1, by omega⟩
  exact step n (holds n (by omega))

namespace Parses

variable {α : Type} {f body : Parsers → P α} {a : α} {flag : Bool} {levels : Nat}
  {toks : List Token} {follow : Nat → Token → Prop}

/-- A call parses what its body does. -/
theorem call (body : Parsers → P α)
    (calls : ∀ n, f (parsers (n + 1)) = framed (body (parsers n)))
    (parses : Parses body a flag levels toks follow) : Parses f a flag levels toks follow := by
  refine eventually_step (fun n holds p rest before follows => ?_) parses
  rw [calls]
  exact Gives.framed (holds p.called rest
    ⟨before.toks, before.running, before.noRecord, before.depth⟩ follows)

/-- A production under the ceiling takes one level more. -/
theorem underCeiling {placeholder : α} (parses : Parses body a flag levels toks follow) :
    Parses (fun r => underCeiling (body r) placeholder) a flag (levels + 1) toks follow := by
  refine parses.mono fun n holds p rest before follows => ?_
  have room := before.depth
  refine Gives.underCeiling (by omega) (holds _ rest ?_ follows)
  refine ⟨before.toks, before.running, before.noRecord, ?_⟩
  change p.depth + 1 + levels ≤ ceiling
  omega

theorem weaken {more : Nat} {narrow : Nat → Token → Prop} (parses : Parses f a flag levels toks follow)
    (le : levels ≤ more) (weaker : ∀ g t, narrow g t → follow g t) :
    Parses f a flag more toks narrow :=
  Filter.Eventually.mono parses fun _ holds p rest before follows =>
    holds p rest (before.mono le) (weaker _ _ follows)

end Parses

/-! ## Comma lists -/

section CommaLists

variable {α : Type} {m : P α} {stops : P Bool} {flag : Bool} {levels : Nat}
  {follow : Nat → Token → Prop} {opener : Kind → Prop}

/-- An element of a comma list: it is read back, and it opens with a token that does not
look like the list's end. -/
structure Item (m : P α) (flag : Bool) (levels : Nat) (follow : Nat → Token → Prop)
    (opener : Kind → Prop) (a : α) (toks : List Token) : Prop where
  gives : ∀ p rest, Before flag levels toks rest p → follow p.groupDepth (next rest) →
    Gives m a toks p
  opens : ∃ t more, toks = t :: more ∧ opener t.kind

/-- The list does not stop before an element. -/
def KeepsGoing (stops : P Bool) (opener : Kind → Prop) : Prop :=
  ∀ p : Parser, p.hitDepthLimit = false → opener p.kind → stops p = .ok (false, p)

theorem Item.kind {a : α} {toks rest : List Token} {p : Parser}
    (item : Item m flag levels follow opener a toks) (before : Before flag levels toks rest p) :
    opener p.kind := by
  obtain ⟨t, more, rfl, opens⟩ := item.opens
  rwa [before.kind]

/-- The turn behind the last element. -/
theorem Item.last {a : α} {toks rest : List Token} {p : Parser}
    (item : Item m flag levels follow opener a toks) (goes : KeepsGoing stops opener)
    (before : Before flag levels toks rest p)
    (follows : follow p.groupDepth (next rest)) (noComma : (next rest).kind ≠ .comma)
    (seen : List α) :
    Gives (do if ← stops then return .stop seen else commaTurn m seen) (.stop (seen ++ [a])) toks
      p := by
  refine .here (goes p before.running (item.kind before)) ?_
  refine ((item.gives p rest before follows).bind fun q reads => ?_).cast (List.append_nil toks)
  have behind : q.kind ≠ .comma := by rwa [(before.done reads).kind_of_nil]
  exact (Gives.eatNot behind).bind fun _ _ => .pure

/-- The turn behind any other element. -/
theorem Item.again {a : α} {toks rest : List Token} {p : Parser}
    (item : Item m flag levels follow opener a toks) (goes : KeepsGoing stops opener)
    (before : Before flag levels (toks ++ [sym .comma]) rest p)
    (comma : follow p.groupDepth (sym .comma)) (seen : List α) :
    Gives (do if ← stops then return .stop seen else commaTurn m seen) (.again (seen ++ [a]))
      (toks ++ [sym .comma]) p := by
  refine .here (goes p before.running (item.kind before.split)) ?_
  refine (item.gives p _ before.split comma).part before fun q _ behind => ?_
  exact (Gives.eat behind rfl).one behind fun _ _ _ => .pure

/-- A comma list is read back element by element. -/
theorem commaLoop_gives {items : List α} {toks : List (List Token)}
    (each : List.Forall₂ (Item m flag levels follow opener) items toks)
    (goes : KeepsGoing stops opener) (comma : ∀ g, follow g (sym .comma)) (some : items ≠ [])
    (seen : List α) (p : Parser) (rest : List Token)
    (before : Before flag levels (commaSep toks) rest p)
    (follows : follow p.groupDepth (next rest)) (noComma : (next rest).kind ≠ .comma) :
    Gives (pLoop (fun seen => do
      if ← stops then return .stop seen else commaTurn m seen) seen) (seen ++ items)
      (commaSep toks) p := by
  induction each generalizing seen p with
  | nil => exact absurd rfl some
  | @cons a ts items tss item each ih =>
      cases each with
      | nil => exact .loop_stop (item.last goes before follows noComma seen)
      | @cons a' ts' items tss item' each =>
          have split : commaSep (ts :: ts' :: tss) =
              (ts ++ [sym .comma]) ++ commaSep (ts' :: tss) := by
            rw [List.append_assoc]
            rfl
          rw [split] at before ⊢
          have turned := item.again goes before.split (comma _) seen
          refine (Leads.again turned (by simp)).gives fun q reads => ?_
          have done := ih (by simp) (seen ++ [a]) q (before.after reads)
            (by rwa [reads.groupDepth])
          rwa [List.append_assoc] at done

theorem commaList_gives {close : Kind} {items : List α} {toks : List (List Token)}
    (each : List.Forall₂ (Item m flag levels follow opener) items toks)
    (goes : KeepsGoing stops opener) (comma : ∀ g, follow g (sym .comma)) (p : Parser)
    (rest : List Token) (before : Before flag levels (commaSep toks) rest p)
    (closes : (next rest).kind = close) (follows : follow p.groupDepth (next rest))
    (noComma : close ≠ .comma) (noOpener : ¬ opener close) :
    Gives (commaList close stops m) items (commaSep toks) p := by
  unfold commaList
  refine .here (m := pAt close) rfl ?_
  cases each with
  | nil =>
      have here : p.kind = close := before.kind_of_nil.trans closes
      rw [if_pos (by simpa using here)]
      exact .pure
  | @cons a ts items tss item each =>
      have opens : opener p.kind := by
        cases each with
        | nil => exact item.kind before
        | cons => exact item.kind before.split
      rw [if_neg (by rintro here; exact noOpener (of_decide_eq_true here ▸ opens))]
      exact commaLoop_gives (.cons item each) goes comma (by simp) [] p rest before follows
        (by rw [closes]; exact noComma)

/-- With room enough, the elements are read back. -/
def Items (f : Parsers → P α) (flag : Bool) (levels : Nat) (follow : Nat → Token → Prop)
    (opener : Kind → Prop) (items : List α) (toks : List (List Token)) : Prop :=
  ∀ᶠ n in atTop, List.Forall₂ (Item (f (parsers n)) flag levels follow opener) items toks

theorem Items.nil {f : Parsers → P α} : Items f flag levels follow opener [] [] :=
  Filter.Eventually.of_forall fun _ => .nil

theorem Items.cons {f : Parsers → P α} {a : α} {toks : List Token} {items : List α}
    {rest : List (List Token)} (parses : Parses f a flag levels toks follow)
    (opens : ∃ t more, toks = t :: more ∧ opener t.kind)
    (others : Items f flag levels follow opener items rest) :
    Items f flag levels follow opener (a :: items) (toks :: rest) := by
  filter_upwards [parses, others] with n gives each
  exact .cons ⟨gives, opens⟩ each

/-- A comma list before its closing token. -/
theorem Items.commaList {f : Parsers → P α} {items : List α} {toks : List (List Token)}
    (each : Items f flag levels follow opener items toks) (close : Kind)
    (goes : KeepsGoing stops opener) (comma : ∀ g, follow g (sym .comma))
    (noComma : close ≠ .comma) (noOpener : ¬ opener close) :
    Parses (fun r => commaList close stops (f r)) items flag levels (commaSep toks)
      fun g t => t.kind = close ∧ follow g t := by
  refine each.mono fun n each p rest before follows => ?_
  exact commaList_gives each goes comma p rest before follows.1 follows.2 noComma noOpener

end CommaLists

end Geas.Compiler.Parse
